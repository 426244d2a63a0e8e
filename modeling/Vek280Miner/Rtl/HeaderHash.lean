import Vek280Miner.Rtl.EngineEval

/-!
# The engine hashes block headers

The software splits a header at byte 64 into a midstate and tail words; the hardware runs its two fixed blocks from
there. Both padded tails are written out as words (`firstBlock_bytes`, `secondBlock_bytes`), so the two compressions are
`double_sha256` of the header with the nonce in bytes 76 to 79, most significant byte first (`engineDigest_header`).
-/

namespace Vek280Miner.Rtl

open Sw (bitcoinHeaderMidstate bitcoinHeaderTailWords doubleSha256)

/-! ## The padded tails -/

/-- The header whose last four bytes are the nonce, most significant byte first. -/
def hashedHeader (header : List Byte) (nonce : Word) : List Byte := header.take 76 ++ beBytes nonce

theorem length_hashedHeader {header : List Byte} (h : header.length = 80) (nonce : Word) :
    (hashedHeader header nonce).length = 80 := by
  simp [hashedHeader, h]

theorem beBytes_loadBe32 {p : List Byte} (h : 4 ≤ p.length) : beBytes (Sw.loadBe32 p) = p.take 4 := by
  obtain ⟨a, b, c, d, q, rfl⟩ : ∃ a b c d q, p = a :: b :: c :: d :: q := by
    rcases p with _ | ⟨a, _ | ⟨b, _ | ⟨c, _ | ⟨d, q⟩⟩⟩⟩
    all_goals try simp at h
    exact ⟨a, b, c, d, q, rfl⟩
  exact beBytes_ofBe a b c d

/-- The padding of a message of 80 bytes after its first 64. -/
theorem firstBlock_bytes {header : List Byte} (h : header.length = 80) (nonce : Word) :
    wordsBytes (firstBlock (bitcoinHeaderTailWords header) nonce) =
      (header.drop 64).take 12 ++ (beBytes nonce ++ 0x80 :: (List.replicate 39 0 ++ Sha256.lengthBytes 640)) := by
  have hz : nonce ||| (bitcoinHeaderTailWords header 3 &&& 0x00000000) = nonce := by simp
  have hc : wordsBytes ![0x80000000, 0, 0, 0, 0, 0, 0, 0, 0, 0, 0, 0x00000280] =
      0x80 :: (List.replicate 39 0 ++ Sha256.lengthBytes 640) := by decide
  have ht : ∀ i : Fin 4, beBytes (bitcoinHeaderTailWords header i) = (header.drop (64 + i * 4)).take 4 := fun i =>
    beBytes_loadBe32 (by simp; omega)
  have h12 : (header.drop 64).take 12 = (header.drop 64).take 4 ++ ((header.drop 68).take 4 ++ (header.drop 72).take 4) := by
    rw [show 12 = 4 + (4 + 4) from rfl, List.take_add, List.take_add, List.drop_drop, List.drop_drop]
  have hw : wordsBytes (firstBlock (bitcoinHeaderTailWords header) nonce) =
      beBytes (bitcoinHeaderTailWords header 0) ++ (beBytes (bitcoinHeaderTailWords header 1) ++
        (beBytes (bitcoinHeaderTailWords header 2) ++ (beBytes nonce ++ wordsBytes
          ![0x80000000, 0, 0, 0, 0, 0, 0, 0, 0, 0, 0, 0x00000280]))) := by
    rw [firstBlock, hz, wordsBytes_succ, wordsBytes_succ, wordsBytes_succ, wordsBytes_succ]
    rfl
  rw [hw, ht, ht, ht, h12, hc]
  simp only [List.append_assoc]
  rfl

/-- The padding of a message of 32 bytes. -/
theorem secondBlock_bytes (d : Words 8) :
    wordsBytes (secondBlock d) = wordsBytes d ++ 0x80 :: (List.replicate 23 0 ++ Sha256.lengthBytes 256) := by
  have hc : wordsBytes ![0x80000000, 0, 0, 0, 0, 0, 0, 0x00000100] =
      0x80 :: (List.replicate 23 0 ++ Sha256.lengthBytes 256) := by decide
  rw [← hc, secondBlock]
  simp only [wordsBytes_succ, wordsBytes_zero, List.append_assoc, List.nil_append]
  rfl

/-! ## Two compressions are the double hash -/

theorem sha256Iv_eq : sha256Iv = Sw.initialH := rfl

/-- The first pass, from the midstate of the header, is the hash of the hashed header. -/
theorem pass1Digest_header {header : List Byte} (h : header.length = 80) (target : Words 8) (nonce : Word) :
    pass1Digest ⟨bitcoinHeaderMidstate header, bitcoinHeaderTailWords header, target⟩ nonce =
      Sha256.hash Sw.roundConst Sw.initialH (hashedHeader header nonce) := by
  have hpad : Sha256.pad (hashedHeader header nonce) =
      header.take 64 ++ wordsBytes (firstBlock (bitcoinHeaderTailWords header) nonce) := by
    rw [firstBlock_bytes h, Sha256.pad, length_hashedHeader h, hashedHeader, show 76 = 64 + 12 from rfl, List.take_add]
    simp only [List.append_assoc]
    rfl
  have h64 : (header.take 64).length = 64 := by simp [h]
  have hmid : Sha256.blockWords header = Sha256.blockWords (header.take 64) := by
    conv_lhs => rw [← List.take_append_drop 64 header, Sha256.blockWords_append _ (by omega)]
  rw [Sha256.hash, hpad, Sha256.absorb_cons_block _ h64, Sha256.absorb_block (by simp), Sha256.blockWords_wordsBytes,
    pass1Digest, Sw.bitcoinHeaderMidstate_eq (by omega), hmid]

/-- The second pass is the hash of the 32 bytes of the first digest. -/
theorem pass2Digest_eq (d : Words 8) : pass2Digest d = Sha256.hash Sw.roundConst Sw.initialH (wordsBytes d) := by
  have hpad : Sha256.pad (wordsBytes d) = wordsBytes (secondBlock d) := by
    rw [secondBlock_bytes, Sha256.pad, length_wordsBytes]
    rfl
  rw [Sha256.hash, hpad, Sha256.absorb_block (by simp), Sha256.blockWords_wordsBytes, pass2Digest, sha256Iv_eq]

/-- The digest that the engine forms, byte by byte. -/
theorem engineDigest_header {header : List Byte} (h : header.length = 80) (target : Words 8) (nonce : Word) :
    wordsBytes (engineDigest ⟨bitcoinHeaderMidstate header, bitcoinHeaderTailWords header, target⟩ nonce) =
      doubleSha256 (hashedHeader header nonce) := by
  rw [engineDigest, pass1Digest_header h, pass2Digest_eq, Sw.doubleSha256_eq]

/-- **Hardware hash.** The two compressions that an engine runs through its front end, each from any contents of an idle
core and whatever the ports do after the start, give `double_sha256` of the header with the nonce in its last four
bytes, most significant byte first. -/
theorem core_runs_eq_doubleSha256 (cfg : EngineCfg) (header : List Byte) (h : header.length = 80) (nonce : Word)
    (s s' : Sha256Core) (hs : s.busyQ = false) (hs' : s'.busyQ = false) (inp inp' : Nat → CoreIn) (d : Words 8)
    (hi : inp 0 = bitcoinSha256CoreIn true true (bitcoinHeaderMidstate header) (bitcoinHeaderTailWords header) nonce d)
    (hi' : inp' 0 = bitcoinSha256CoreIn true false (bitcoinHeaderMidstate header) (bitcoinHeaderTailWords header) nonce
      (Clocked.run (Sha256Core.step cfg.core) inp s (coreCycles cfg.core + 1)).digestO) :
    wordsBytes (Clocked.run (Sha256Core.step cfg.core) inp' s' (coreCycles cfg.core + 1)).digestO =
      doubleSha256 (header.take 76 ++ beBytes nonce) := by
  have h1 := (coreAge_done (c := cfg.core) hs (by rw [hi]; rfl : (inp 0).start = true)).digest
  have h2 := (coreAge_done (c := cfg.core) hs' (by rw [hi']; rfl : (inp' 0).start = true)).digest
  rw [hi] at h1
  rw [hi', h1] at h2
  rw [h2]
  exact engineDigest_header h 0 nonce

/-- The all-zero header on two cores out of reset. -/
theorem core_runs_zero_header :
    let cfg : EngineCfg := ⟨1, false⟩
    let header : List Byte := List.replicate 80 0
    let ports := fun first digest => bitcoinSha256CoreIn true first (bitcoinHeaderMidstate header)
      (bitcoinHeaderTailWords header) 1 digest
    let digest := fun i => (Clocked.run (Sha256Core.step cfg.core) (fun _ => i) (default : Sha256Core).reset
      (coreCycles cfg.core + 1)).digestO
    wordsBytes (digest (ports false (digest (ports true 0)))) = doubleSha256 (header.take 76 ++ beBytes 1) := by
  intro cfg header ports digest
  exact core_runs_eq_doubleSha256 cfg header (List.length_replicate ..) 1 _ _ rfl rfl _ _ 0 rfl rfl

end Vek280Miner.Rtl
