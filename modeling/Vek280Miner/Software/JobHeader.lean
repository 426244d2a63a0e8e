import Vek280Miner.Rtl.HeaderHash
import Vek280Miner.Software.Job

/-!
# The header of a job

What `build_job` serialises, written out (`assembleHeader_eq`, `jobHeader_eq`), and compared with the block header that
a Stratum v1 pool forms from the same fields.

The serialisation reverses the previous hash as a whole instead of group by group, so `header_layout_iff` has a
condition on the previous hash. The merkle root is compared in `MerkleRoot`, the nonce in `SubmittedNonce`.
-/

namespace Vek280Miner.Sw

/-! ## What `build_job` serialises -/

/-- The text of `extranonce2` in the job that the state leads to. -/
def jobExtranonce2 (state : StratumState) : List Char :=
  bytesToHex (extranonce2Bytes state.extranonce2Size state.extranonce2Counter)

/-- The coinbase transaction of the job. -/
def jobCoinbase (notify : StratumNotify) (state : StratumState) : Option (List Byte) :=
  coinbaseBytes notify state.extranonce1 (jobExtranonce2 state)

/-- The header of the job. -/
def jobHeader (notify : StratumNotify) (state : StratumState) : Option (List Byte) :=
  (jobCoinbase notify state).bind (headerBytes notify)

variable {notify : StratumNotify} {state : StratumState} {job : MinerJob} {header : List Byte}

theorem makeExtranonce2_eq (state : StratumState) : makeExtranonce2 state =
    (some (jobExtranonce2 state), { state with extranonce2Counter := state.extranonce2Counter + 1 }) := by
  have h := state.extranonce2Size_le
  rw [makeExtranonce2, if_neg (by show ¬ 33 < state.extranonce2Size * 2 + 1; omega)]
  rfl

/-- A job that is built comes from the header. -/
theorem buildJob_some (h : (buildJob notify state).1 = some job) :
    ∃ header, jobHeader notify state = some header ∧
      job = jobOfHeader notify state.target (jobExtranonce2 state) header := by
  rw [buildJob] at h
  split at h
  · simp at h
  · simp only [makeExtranonce2_eq, Option.map_eq_some_iff] at h
    obtain ⟨header, hh, rfl⟩ := h
    exact ⟨header, hh, rfl⟩

/-- The midstate and the tail words are those of the header. -/
theorem buildJob_header (h : (buildJob notify state).1 = some job) (hh : jobHeader notify state = some header) :
    job.midstate = bitcoinHeaderMidstate header ∧ job.headerTail = bitcoinHeaderTailWords header ∧
      job.target = state.target := by
  obtain ⟨header', hh', rfl⟩ := buildJob_some h
  rw [hh] at hh'
  obtain rfl := Option.some.inj hh'
  exact ⟨rfl, rfl, rfl⟩

/-- The job is built exactly when the session is ready and the header can be serialised. -/
theorem buildJob_isSome_iff : (buildJob notify state).1.isSome ↔
    state.haveTarget ∧ state.subscribed ∧ state.authorized ∧ (jobHeader notify state).isSome := by
  rw [buildJob]
  cases h1 : state.haveTarget <;> cases h2 : state.subscribed <;> cases h3 : state.authorized <;>
    simp [makeExtranonce2_eq, jobHeader, jobCoinbase]
  cases coinbaseBytes notify state.extranonce1 (jobExtranonce2 state) <;> simp

theorem length_doubleSha256 (data : List Byte) : (doubleSha256 data).length = 32 := by
  rw [doubleSha256_eq, length_wordsBytes]

theorem length_hex32 {s : List Char} {b : List Byte} (h : hex32 s = some b) : b.length = 32 := by
  simp only [hex32, Option.bind_eq_some_iff] at h
  obtain ⟨c, -, hc⟩ := h
  split at hc
  · simp at hc
  · obtain rfl := Option.some.inj hc
    omega

theorem length_merkleLoop : ∀ {l : List (CStr 65)} {m r : List Byte}, m.length = 32 → merkleLoop l m = some r →
    r.length = 32
  | [], m, r, hm, h => by rwa [← Option.some.inj h]
  | b :: l, m, r, hm, h => by
    rw [merkleLoop] at h
    split at h
    · simp at h
    · exact length_merkleLoop (by simp [reverseCopy, length_doubleSha256]) h

/-- The stores side by side. -/
theorem assembleHeader_eq {v p m t b : List Byte} (hv : v.length = 4) (hp : p.length = 32) (hm : m.length = 32)
    (ht : t.length = 4) (hb : b.length = 4) : assembleHeader v p m t b = v ++ p ++ m ++ t ++ b ++ [0, 0, 0, 0] := by
  have h0 : blit (List.replicate 80 0) 0 v = v ++ List.replicate 76 0 := by simp [blit, hv]
  have h1 : blit (v ++ List.replicate 76 0) 4 p = v ++ p ++ List.replicate 44 0 := by
    rw [blit_append hv, hp, List.drop_replicate]
  have h2 : blit (v ++ p ++ List.replicate 44 0) 36 m = v ++ p ++ m ++ List.replicate 12 0 := by
    rw [blit_append (by simp [hv, hp]), hm, List.drop_replicate]
  have h3 : blit (v ++ p ++ m ++ List.replicate 12 0) 68 t = v ++ p ++ m ++ t ++ List.replicate 8 0 := by
    rw [blit_append (by simp [hv, hp, hm]), ht, List.drop_replicate]
  have h4 : blit (v ++ p ++ m ++ t ++ List.replicate 8 0) 72 b = v ++ p ++ m ++ t ++ b ++ List.replicate 4 0 := by
    rw [blit_append (by simp [hv, hp, hm, ht]), hb, List.drop_replicate]
  rw [assembleHeader, h0, h1, h2, h3, h4]
  rfl

/-- The header, field by field. -/
theorem jobHeader_eq (h : jobHeader notify state = some header) : ∃ coinbase merkleInternal prev,
    jobCoinbase notify state = some coinbase ∧
      merkleLoop notify.merkle (reverseCopy (doubleSha256 coinbase)) = some merkleInternal ∧
      hex32 notify.prevhash = some prev ∧ merkleInternal.length = 32 ∧ prev.length = 32 ∧
      header = storeLe32 (hexU32 notify.version) ++ prev.reverse ++ merkleInternal ++
        storeLe32 (hexU32 notify.ntime) ++ storeLe32 (hexU32 notify.nbits) ++ [0, 0, 0, 0] := by
  simp only [jobHeader, Option.bind_eq_some_iff] at h
  obtain ⟨coinbase, hc, h⟩ := h
  simp only [headerBytes, Option.bind_eq_bind, Option.bind_eq_some_iff, Option.pure_def] at h
  obtain ⟨m, hm, prev, hp, h⟩ := h
  have hml := length_merkleLoop (by simp [reverseCopy, length_doubleSha256]) hm
  have hpl := length_hex32 hp
  refine ⟨coinbase, m, prev, hc, hm, hp, hml, hpl, ?_⟩
  rw [← Option.some.inj h, assembleHeader_eq rfl (by simpa [reverseCopy] using hpl) hml rfl rfl, reverseCopy]

/-! ## The fields of the header -/

/-- A text of `n` hex digits. -/
def IsHex (n : Nat) (s : List Char) : Prop := s.length = n ∧ ∀ ch ∈ s, (hexValue ch).isSome

instance (n : Nat) (s : List Char) : Decidable (IsHex n s) :=
  decidable_of_iff (s.length = n ∧ s.all (fun ch => (hexValue ch).isSome) = true) (by rw [IsHex, List.all_eq_true])

/-- The `i`-th group of four bytes. -/
def group (p : List Byte) (i : Nat) : List Byte := (p.drop (4 * i)).take 4

/-- The groups of a decoded previous hash in their order, each one reversed. -/
def swapGroups (p : List Byte) : List Byte := (List.range 8).flatMap fun i => (group p i).reverse

/-- The header of Stratum v1 but for the merkle root, which is whatever `merkleInternal` is. -/
structure StratumLayout (notify : StratumNotify) (merkleInternal header : List Byte) : Prop where
  version : ∃ v, hexToBytes notify.version 4 = some v ∧ header.take 4 = v.reverse
  prevhash : ∃ p, hexToBytes notify.prevhash 32 = some p ∧ (header.drop 4).take 32 = swapGroups p
  merkle : (header.drop 36).take 32 = merkleInternal
  ntime : ∃ v, hexToBytes notify.ntime 4 = some v ∧ (header.drop 68).take 4 = v.reverse
  nbits : ∃ v, hexToBytes notify.nbits 4 = some v ∧ (header.drop 72).take 4 = v.reverse

/-- Rows of four bytes agree exactly when they agree row by row. -/
theorem flatMap_groups_iff {f g : Nat → List Byte} : ∀ {n : Nat}, (∀ i < n, (f i).length = 4) →
    (∀ i < n, (g i).length = 4) → ((List.range n).flatMap f = (List.range n).flatMap g ↔ ∀ i < n, f i = g i)
  | 0, _, _ => by simp
  | n + 1, hf, hg => by
    have ih := flatMap_groups_iff (n := n) (fun i hi => hf i (by omega)) fun i hi => hg i (by omega)
    have hlen : (f n).length = (g n).length := (hf n (by omega)).trans (hg n (by omega)).symm
    simp only [List.range_succ, List.flatMap_append, List.flatMap_singleton]
    constructor
    · intro h i hi
      obtain ⟨h1, h2⟩ := List.append_inj' h hlen
      rcases Nat.lt_or_eq_of_le (Nat.le_of_lt_succ hi) with hlt | rfl
      · exact ih.1 h1 i hlt
      · exact h2
    · intro h
      rw [ih.2 fun i hi => h i (by omega), h n (by omega)]

theorem length_group {p : List Byte} {i n : Nat} (hp : p.length = 4 * n) (hi : i < n) : (group p i).length = 4 := by
  simp [group]
  omega

/-- The reversal of a row of groups. -/
theorem reverse_eq_groups : ∀ {n : Nat} {p : List Byte}, p.length = 4 * n →
    p.reverse = (List.range n).flatMap fun i => (group p (n - 1 - i)).reverse
  | 0, p, hp => by simp [List.length_eq_zero_iff.1 hp]
  | n + 1, p, hp => by
    have hl : (p.take (4 * n)).length = 4 * n := by simp; omega
    have hg : ∀ i ∈ List.range n, (group (p.take (4 * n)) (n - 1 - i)).reverse = (group p (n + 1 - 1 - (i + 1))).reverse := by
      intro i hi
      have := List.mem_range.1 hi
      rw [group, group, List.drop_take, List.take_take, show n + 1 - 1 - (i + 1) = n - 1 - i by omega,
        Nat.min_eq_left (by omega)]
    have hlast : p.drop (4 * n) = group p n := by rw [group, List.take_of_length_le (by simp; omega)]
    conv_lhs => rw [← List.take_append_drop (4 * n) p, List.reverse_append, reverse_eq_groups hl, hlast]
    rw [List.range_succ_eq_map, List.flatMap_cons, List.flatMap_map, List.flatMap_congr hg]
    rfl

/-- The reversed previous hash has its groups right exactly when their sequence is its own reversal. -/
theorem reverse_eq_swapGroups_iff {p : List Byte} (hp : p.length = 32) :
    p.reverse = swapGroups p ↔ ∀ i < 8, group p i = group p (7 - i) := by
  have h8 : p.length = 4 * 8 := hp
  rw [reverse_eq_groups h8, swapGroups, flatMap_groups_iff (fun i hi => by simp [length_group h8 (show 8 - 1 - i < 8 by omega)])
    fun i hi => by simp [length_group h8 hi]]
  constructor
  · intro h i hi
    exact (List.reverse_injective (h i hi)).symm
  · intro h i hi
    rw [h i hi]

/-- `store_le32` of a field of eight hex digits. -/
theorem storeLe32_hexU32 {s : List Char} (h : IsHex 8 s) :
    ∃ v, hexToBytes s 4 = some v ∧ storeLe32 (hexU32 s) = v.reverse := by
  obtain ⟨a, b, c, d, hd, hu⟩ := hexU32_eq h.1 h.2
  have hb := beBytes_ofBe a b c d
  refine ⟨_, hd, ?_⟩
  rw [hu, ← hb]
  rfl

theorem length_jobHeader (h : jobHeader notify state = some header) : header.length = 80 := by
  obtain ⟨_, _, _, _, _, _, hm, hp, rfl⟩ := jobHeader_eq h
  simp [storeLe32, hm, hp]

theorem hex32_eq {s : List Char} (h : IsHex 64 s) : hex32 s = hexToBytes s 32 := by
  rw [hex32]
  cases hb : hexToBytes s 32 with
  | none => rfl
  | some b =>
    have hl := length_hexToBytes hb
    rw [h.1] at hl
    simp [hl]

/-- **Header serialisation.** The header of a job has the layout of Stratum v1 exactly when the eight groups of the
decoded previous hash read the same backwards. -/
theorem header_layout_iff (hv : IsHex 8 notify.version) (ht : IsHex 8 notify.ntime) (hn : IsHex 8 notify.nbits)
    (hp : IsHex 64 notify.prevhash) (hj : (buildJob notify state).1 = some job)
    (hh : jobHeader notify state = some header) : ∃ coinbase merkleInternal prev,
      jobCoinbase notify state = some coinbase ∧
      merkleLoop notify.merkle (reverseCopy (doubleSha256 coinbase)) = some merkleInternal ∧
      hexToBytes notify.prevhash 32 = some prev ∧
      job.midstate = bitcoinHeaderMidstate header ∧ job.headerTail = bitcoinHeaderTailWords header ∧
      (StratumLayout notify merkleInternal header ↔ ∀ i < 8, group prev i = group prev (7 - i)) := by
  obtain ⟨hmid, htail, -⟩ := buildJob_header hj hh
  obtain ⟨coinbase, m, prev, hc, hm, hprev, hml, hpl, hheader⟩ := jobHeader_eq hh
  obtain ⟨v, hv1, hv2⟩ := storeLe32_hexU32 hv
  obtain ⟨t, ht1, ht2⟩ := storeLe32_hexU32 ht
  obtain ⟨b, hb1, hb2⟩ := storeLe32_hexU32 hn
  rw [hex32_eq hp] at hprev
  refine ⟨coinbase, m, prev, hc, hm, hprev, hmid, htail, ?_⟩
  rw [← reverse_eq_swapGroups_iff hpl]
  have hvl : v.reverse.length = 4 := by rw [← hv2]; rfl
  have htl : t.reverse.length = 4 := by rw [← ht2]; rfl
  have hbl : b.reverse.length = 4 := by rw [← hb2]; rfl
  have hprl : prev.reverse.length = 32 := by simpa using hpl
  rw [hv2, ht2, hb2] at hheader
  have h4 : (header.drop 4).take 32 = prev.reverse := by
    rw [hheader]
    simp only [List.append_assoc]
    rw [List.drop_left' hvl, List.take_left' hprl]
  constructor
  · rintro ⟨-, ⟨p, hp1, hp2⟩, -, -, -⟩
    rw [hprev] at hp1
    rw [← Option.some.inj hp1, h4] at hp2
    exact hp2
  · intro hrev
    refine ⟨⟨v, hv1, ?_⟩, ⟨prev, hprev, h4.trans hrev⟩, ?_, ⟨t, ht1, ?_⟩, ⟨b, hb1, ?_⟩⟩ <;> rw [hheader]
    · simp only [List.append_assoc]
      rw [List.take_left' hvl]
    · rw [List.append_assoc (_ ++ m ++ _), List.append_assoc (_ ++ m), List.append_assoc (_ ++ _) m,
        List.drop_left' (by simp only [List.length_append, hvl, hprl])]
      rw [List.take_left' hml]
    · rw [List.append_assoc (_ ++ t.reverse), List.append_assoc (_ ++ _) t.reverse]
      rw [List.drop_left' (by simp only [List.length_append, hvl, hprl, hml]), List.take_left' htl]
    · rw [List.append_assoc (_ ++ _) b.reverse]
      rw [List.drop_left' (by simp only [List.length_append, hvl, hprl, hml, htl]), List.take_left' hbl]

/-! ## The session of the mock pool -/

/-- The notification that `mock_easy_stratum.py` sends, for the previous hash `prevhash`. -/
def mockNotify (prevhash : CStr 65) : StratumNotify where
  jobId := ⟨"easy0001".toList, by decide⟩
  prevhash := prevhash
  coinb1 := ⟨"01000000".toList, by decide⟩
  coinb2 := ⟨"".toList, by decide⟩
  merkle := []
  version := ⟨"20000000".toList, by decide⟩
  nbits := ⟨"207fffff".toList, by decide⟩
  ntime := ⟨"65f0e100".toList, by decide⟩
  cleanJobs := true
  merkle_count := by decide

/-- The session after its subscribe response and an all-ones target. -/
def mockState : StratumState where
  extranonce1 := ⟨"abcd1234".toList, by decide⟩
  extranonce2Size := 8
  extranonce2Counter := 0
  target := fun _ => 0xffffffff
  subscribed := true
  authorized := true
  haveTarget := true
  extranonce2Size_le := by decide

/-- The all-zero previous hash of the mock pool. -/
def zeroPrevhash : CStr 65 := ⟨List.replicate 64 '0', by decide⟩

/-- A previous hash whose last byte is one. -/
def onePrevhash : CStr 65 := ⟨List.replicate 63 '0' ++ ['1'], by decide⟩

/-- The coinbase transaction of the mock session. -/
def mockCoinbase : List Byte := [1, 0, 0, 0, 0xab, 0xcd, 0x12, 0x34, 0, 0, 0, 0, 0, 0, 0, 0]

theorem jobCoinbase_mock (prevhash : CStr 65) : jobCoinbase (mockNotify prevhash) mockState = some mockCoinbase := by
  show jobCoinbase (mockNotify zeroPrevhash) mockState = _
  decide +kernel

theorem headerBytes_isSome {cb p : List Byte} (hm : notify.merkle = []) (hp : hex32 notify.prevhash = some p) :
    (headerBytes notify cb).isSome := by
  simp [headerBytes, hm, merkleLoop, hp]

/-- The mock session leads to a job. -/
theorem mock_job (prevhash : CStr 65) {p : List Byte} (hp : hex32 prevhash = some p) :
    ∃ job header, (buildJob (mockNotify prevhash) mockState).1 = some job ∧
      jobHeader (mockNotify prevhash) mockState = some header := by
  have hs : (jobHeader (mockNotify prevhash) mockState).isSome := by
    rw [jobHeader, jobCoinbase_mock, Option.bind_some]
    exact headerBytes_isSome rfl hp
  obtain ⟨job, hj⟩ := Option.isSome_iff_exists.1 (buildJob_isSome_iff.2 ⟨rfl, rfl, rfl, hs⟩)
  obtain ⟨header, hh⟩ := Option.isSome_iff_exists.1 hs
  exact ⟨job, header, hj, hh⟩

def mirroredBytes : List Byte :=
  [0x01, 0x23, 0x45, 0x67, 0x89, 0xab, 0xcd, 0xef, 0x02, 0x46, 0x8a, 0xce, 0x13, 0x57, 0x9b, 0xdf,
    0x13, 0x57, 0x9b, 0xdf, 0x02, 0x46, 0x8a, 0xce, 0x89, 0xab, 0xcd, 0xef, 0x01, 0x23, 0x45, 0x67]

/-- A previous hash of four different groups, the same in both directions. -/
def mirroredPrevhash : CStr 65 :=
  ⟨"0123456789abcdef02468ace13579bdf13579bdf02468ace89abcdef01234567".toList, by decide⟩

/-- For it the layout is right. -/
theorem header_layout_mirrored : ∃ job header merkleInternal,
    (buildJob (mockNotify mirroredPrevhash) mockState).1 = some job ∧ job.midstate = bitcoinHeaderMidstate header ∧
      StratumLayout (mockNotify mirroredPrevhash) merkleInternal header := by
  have hp : hexToBytes mirroredPrevhash 32 = some mirroredBytes := by decide +kernel
  obtain ⟨job, header, hj, hh⟩ := mock_job mirroredPrevhash (p := mirroredBytes) (by decide +kernel)
  obtain ⟨cb, m, prev, -, -, hprev, hmid, -, hiff⟩ := header_layout_iff (by decide +kernel) (by decide +kernel)
    (by decide +kernel) (by decide +kernel) hj hh
  obtain rfl := Option.some.inj (hp.symm.trans hprev)
  refine ⟨job, header, m, hj, hmid, hiff.2 ?_⟩
  decide +kernel

/-- With another previous hash it is not. -/
theorem header_layout_one : ¬ ∀ (notify : StratumNotify) (state : StratumState) (job : MinerJob)
    (header coinbase merkleInternal : List Byte), IsHex 8 notify.version → IsHex 8 notify.ntime → IsHex 8 notify.nbits →
    IsHex 64 notify.prevhash → (buildJob notify state).1 = some job → jobHeader notify state = some header →
    jobCoinbase notify state = some coinbase →
    merkleLoop notify.merkle (reverseCopy (doubleSha256 coinbase)) = some merkleInternal →
    StratumLayout notify merkleInternal header := by
  intro h
  have hp : hex32 onePrevhash = some (List.replicate 31 0 ++ [1]) := by decide +kernel
  obtain ⟨job, header, hj, hh⟩ := mock_job onePrevhash hp
  obtain ⟨cb, m, prev, hc, hm, hprev, hml, hpl, hheader⟩ := jobHeader_eq hh
  obtain ⟨-, ⟨p, hp1, hp2⟩, -, -, -⟩ := h _ _ job header cb m (by decide +kernel) (by decide +kernel)
    (by decide +kernel) (by decide +kernel) hj hh hc hm
  obtain rfl := Option.some.inj (hp.symm.trans hprev)
  have hp' : hexToBytes onePrevhash 32 = some (List.replicate 31 0 ++ [1]) := by decide +kernel
  obtain rfl := Option.some.inj (hp'.symm.trans hp1)
  rw [hheader] at hp2
  simp only [List.append_assoc] at hp2
  rw [List.drop_left' (by rfl), List.take_left' (by rfl)] at hp2
  revert hp2
  decide

end Vek280Miner.Sw
