import Vek280Miner.Software.JobHeader

/-!
# The merkle root of a job

Stratum v1 chains the merkle branches to the double hash of the coinbase transaction, all in the byte order in which a
hash comes out of SHA-256. `build_job` reverses every double hash on the way. The two agree when every hash on the way
is its own reversal. Where they agree although one is not, they have come together again at a branch, in front of which
stood different hashes (`Rejoins`).
-/

namespace Vek280Miner.Sw

/-! ## Chains of hashes -/

section Chain

variable {α : Type} (D : List α → List α)

/-- The chain with every hash reversed. -/
def mirroredFold (r : List α) (branches : List (List α)) : List α := branches.foldl (fun r b => (D (r ++ b)).reverse) r

/-- The chain of hashes of the hash so far with the next branch behind it. -/
def chainFold (r : List α) (branches : List (List α)) : List α := branches.foldl (fun r b => D (r ++ b)) r

/-- The hashes on the way, the first and the last included. -/
def chainScan : List α → List (List α) → List (List α)
  | r, [] => [r]
  | r, b :: branches => r :: chainScan (D (r ++ b)) branches

/-- At the branch `b` the two chains come together, the one from `c` on and the one from `r` on: with different hashes in
front of it, they have mirrored hashes behind it, and reversal changes nothing from there on. -/
structure RejoinAt (c r : List α) (pre : List (List α)) (b : List α) (post : List (List α)) : Prop where
  differ : mirroredFold D c pre ≠ chainFold D r pre
  mirrored : (D (mirroredFold D c pre ++ b)).reverse = D (chainFold D r pre ++ b)
  behind : ∀ x ∈ (chainScan D (D (chainFold D r pre ++ b)) post).tail, x.reverse = x

variable {D}

theorem mem_chainScan {r x : List α} {branches : List (List α)} :
    x ∈ chainScan D r branches ↔ x = r ∨ x ∈ (chainScan D r branches).tail := by
  cases branches <;> simp [chainScan]

/-- The two chains agree if they start from the same hash and reversal changes nothing, or if they have come together. -/
theorem mirroredFold_eq_iff (branches : List (List α)) {c r : List α} :
    mirroredFold D c branches = chainFold D r branches ↔
      (c = r ∧ ∀ x ∈ (chainScan D r branches).tail, x.reverse = x) ∨
        ∃ pre b post, branches = pre ++ b :: post ∧ RejoinAt D c r pre b post := by
  induction branches generalizing c r with
  | nil =>
    constructor
    · exact fun h => .inl ⟨h, by simp [chainScan]⟩
    · rintro (⟨h, -⟩ | ⟨pre, b, post, h, -⟩)
      · exact h
      · cases pre <;> cases h
  | cons b branches ih =>
    have hfold : mirroredFold D c (b :: branches) = mirroredFold D (D (c ++ b)).reverse branches := rfl
    have hchain : chainFold D r (b :: branches) = chainFold D (D (r ++ b)) branches := rfl
    rw [hfold, hchain, ih]
    constructor
    · rintro (⟨hstep, htail⟩ | ⟨pre, b', post, rfl, hrejoin⟩)
      · by_cases hc : c = r
        · subst hc
          refine .inl ⟨rfl, fun x hx => ?_⟩
          rcases mem_chainScan.1 (show x ∈ chainScan D (D (c ++ b)) branches from hx) with rfl | hx
          · exact hstep
          · exact htail x hx
        · exact .inr ⟨[], b, branches, rfl, hc, hstep, htail⟩
      · exact .inr ⟨b :: pre, b', post, rfl, hrejoin.differ, hrejoin.mirrored, hrejoin.behind⟩
    · rintro (⟨rfl, hall⟩ | ⟨pre, b', post, hsplit, hrejoin⟩)
      · have hall : ∀ x ∈ chainScan D (D (c ++ b)) branches, x.reverse = x := hall
        exact .inl ⟨hall _ (mem_chainScan.2 (.inl rfl)), fun x hx => hall x (mem_chainScan.2 (.inr hx))⟩
      · cases pre with
        | nil =>
          obtain ⟨rfl, rfl⟩ := List.cons.inj hsplit
          exact .inl ⟨hrejoin.mirrored, hrejoin.behind⟩
        | cons p pre =>
          obtain ⟨rfl, rfl⟩ := List.cons.inj hsplit
          exact .inr ⟨pre, b', post, rfl, hrejoin.differ, hrejoin.mirrored, hrejoin.behind⟩

end Chain

/-! ## The loop of `build_job` -/

/-- The merkle root of Stratum v1. -/
def stratumRoot (coinbase : List Byte) (branches : List (List Byte)) : List Byte :=
  chainFold doubleSha256 (doubleSha256 coinbase) branches

/-- The double hashes on the way to the root, the root included. -/
def merkleChain (coinbase : List Byte) (branches : List (List Byte)) : List (List Byte) :=
  chainScan doubleSha256 (doubleSha256 coinbase) branches

/-- By coincidence the double hash that is put behind one of the branches is the right one again, and so are those that
follow. -/
def Rejoins (coinbase : List Byte) (branches : List (List Byte)) : Prop := ∃ pre b post, branches = pre ++ b :: post ∧
  RejoinAt doubleSha256 (doubleSha256 coinbase).reverse (doubleSha256 coinbase) pre b post

/-- The loop is a fold over the decoded branches. -/
theorem merkleLoop_some : ∀ {l : List (CStr 65)} {m r : List Byte}, merkleLoop l m = some r →
    ∃ branches, l.mapM (fun b => hex32 b.val) = some branches ∧ r = mirroredFold doubleSha256 m branches
  | [], m, r, h => ⟨[], rfl, (Option.some.inj h).symm⟩
  | b :: l, m, r, h => by
    rw [merkleLoop] at h
    split at h
    · simp at h
    · rename_i c hc
      obtain ⟨branches, hb, hr⟩ := merkleLoop_some h
      exact ⟨c :: branches, by simp [List.mapM_cons, hc, hb], hr⟩

variable {notify : StratumNotify} {state : StratumState} {job : MinerJob} {header : List Byte}

/-- Bytes 36 to 67 of the header. -/
theorem header_merkle_bytes (hh : jobHeader notify state = some header) : ∃ coinbase branches,
    jobCoinbase notify state = some coinbase ∧ notify.merkle.mapM (fun b => hex32 b.val) = some branches ∧
      (header.drop 36).take 32 = mirroredFold doubleSha256 (doubleSha256 coinbase).reverse branches := by
  obtain ⟨coinbase, m, prev, hc, hm, -, hml, hpl, hheader⟩ := jobHeader_eq hh
  obtain ⟨branches, hb, hr⟩ := merkleLoop_some hm
  refine ⟨coinbase, branches, hc, hb, ?_⟩
  rw [reverseCopy] at hr
  rw [← hr, hheader, List.append_assoc (_ ++ m ++ _), List.append_assoc (_ ++ m),
    List.append_assoc (_ ++ _) m, List.drop_left' (by simp [storeLe32, hpl]), List.take_left' hml]

/-- **Merkle root.** A job hashes the merkle root of Stratum v1 exactly when all double hashes on the way are their own
reversals, or the chain has come together again with that of Stratum v1; without branches, exactly when the double hash
of the coinbase transaction is its own reversal. -/
theorem merkle_root_iff (hj : (buildJob notify state).1 = some job) (hh : jobHeader notify state = some header) :
    ∃ coinbase branches, jobCoinbase notify state = some coinbase ∧
      notify.merkle.mapM (fun b => hex32 b.val) = some branches ∧
      job.midstate = bitcoinHeaderMidstate header ∧ job.headerTail = bitcoinHeaderTailWords header ∧
      ((header.drop 36).take 32 = stratumRoot coinbase branches ↔
        (∀ r ∈ merkleChain coinbase branches, r.reverse = r) ∨ Rejoins coinbase branches) ∧
      (branches = [] → ((header.drop 36).take 32 = stratumRoot coinbase branches ↔
        (doubleSha256 coinbase).reverse = doubleSha256 coinbase)) := by
  obtain ⟨hmid, htail, -⟩ := buildJob_header hj hh
  obtain ⟨coinbase, branches, hc, hb, hbytes⟩ := header_merkle_bytes hh
  refine ⟨coinbase, branches, hc, hb, hmid, htail, ?_, ?_⟩
  · rw [hbytes, stratumRoot, mirroredFold_eq_iff]
    refine or_congr_left ⟨fun ⟨h0, hrest⟩ r hr => ?_, fun h => ?_⟩
    · rcases mem_chainScan.1 hr with rfl | hr
      · exact h0
      · exact hrest r hr
    · exact ⟨h _ (mem_chainScan.2 (.inl rfl)), fun r hr => h r (mem_chainScan.2 (.inr hr))⟩
  · rintro rfl
    rw [hbytes, stratumRoot, mirroredFold, chainFold, List.foldl_nil, List.foldl_nil]

/-! ## The job of the mock pool -/

/-- The hash of a message that fits into one block with its padding. -/
theorem hash_one_block {m : List Byte} (h : (Sha256.pad m).length = 64) :
    Sha256.hash roundConst initialH m = sha256Compress initialH (Sha256.pad m) := by
  rw [Sha256.hash, Sha256.absorb_block h, sha256Compress_eq]

theorem mockCoinbase_not_palindrome : (doubleSha256 mockCoinbase).reverse ≠ doubleSha256 mockCoinbase := by
  rw [doubleSha256_eq, hash_one_block (m := mockCoinbase) (by decide), hash_one_block]
  · decide +kernel
  · simp [Sha256.pad, Sha256.zeroBytes]

/-- The root of a job of the mock session. -/
theorem merkle_root_mock : ∃ job header, (buildJob (mockNotify zeroPrevhash) mockState).1 = some job ∧
    job.midstate = bitcoinHeaderMidstate header ∧ job.headerTail = bitcoinHeaderTailWords header ∧
      ((header.drop 36).take 32 = stratumRoot mockCoinbase [] ↔
        (doubleSha256 mockCoinbase).reverse = doubleSha256 mockCoinbase) := by
  obtain ⟨job, header, hj, hh⟩ := mock_job zeroPrevhash (p := List.replicate 32 0) (by decide +kernel)
  obtain ⟨coinbase, branches, hc, hb, hmid, htail, -, hnone⟩ := merkle_root_iff hj hh
  obtain rfl : branches = [] := (Option.some.inj hb).symm
  obtain rfl : coinbase = mockCoinbase := Option.some.inj (hc.symm.trans (jobCoinbase_mock _))
  exact ⟨job, header, hj, hmid, htail, hnone rfl⟩

/-- With no branches at all the root is the reversed double hash of the coinbase transaction. -/
theorem merkle_root_reversed : ¬ ∀ (notify : StratumNotify) (state : StratumState) (job : MinerJob)
    (header coinbase : List Byte) (branches : List (List Byte)), (buildJob notify state).1 = some job →
    jobHeader notify state = some header → jobCoinbase notify state = some coinbase →
    notify.merkle.mapM (fun b => hex32 b.val) = some branches →
    (header.drop 36).take 32 = stratumRoot coinbase branches := by
  intro h
  obtain ⟨job, header, hj, hh⟩ := mock_job zeroPrevhash (p := List.replicate 32 0) (by decide +kernel)
  obtain ⟨coinbase, branches, hc, hb, hbytes⟩ := header_merkle_bytes hh
  have hroot := h _ _ job header coinbase branches hj hh hc hb
  obtain rfl : branches = [] := (Option.some.inj hb).symm
  obtain rfl : coinbase = mockCoinbase := Option.some.inj (hc.symm.trans (jobCoinbase_mock _))
  rw [hbytes, mirroredFold, stratumRoot, chainFold, List.foldl_nil, List.foldl_nil] at hroot
  exact mockCoinbase_not_palindrome hroot

end Vek280Miner.Sw
