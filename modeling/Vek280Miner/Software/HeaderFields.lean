import Vek280Miner.Software.Coinbase

/-!
# The fields of the header (`build_job`)

The previous hash and the merkle branches go through `hex_to_bytes`, which rejects what is not hex or has the wrong
length. The version, the time and the bits go through `strtoul`, which rejects nothing: an empty text is zero, and a
sign, a prefix or a wrong character is taken as it comes. `wellFormed_iff` says when a job that is built has well-formed
fields.
-/

namespace Vek280Miner.Sw

/-! ## What is decoded -/

/-- Text for exactly 32 bytes. -/
theorem hex32_isSome_iff (s : List Char) : (hex32 s).isSome ↔ IsHex 64 s := by
  rw [hex32, IsHex]
  constructor
  · intro h
    obtain ⟨b, h⟩ := Option.isSome_iff_exists.1 h
    obtain ⟨b', hb', h⟩ := Option.bind_eq_some_iff.1 h
    split at h
    · cases h
    · obtain ⟨heven, -, hdigits⟩ := (hexToBytes_isSome_iff s 32).1 (by rw [hb']; rfl)
      have hlen := length_hexToBytes hb'
      exact ⟨by omega, hdigits⟩
  · rintro ⟨hlen, hdigits⟩
    obtain ⟨b, hb⟩ := Option.isSome_iff_exists.1 ((hexToBytes_isSome_iff s 32).2 ⟨by omega, by omega, hdigits⟩)
    have hl := length_hexToBytes hb
    rw [hb, Option.bind_some, if_neg (by omega)]
    rfl

theorem merkleLoop_isSome_iff : ∀ (l : List (CStr 65)) (m : List Byte),
    (merkleLoop l m).isSome ↔ ∀ branch ∈ l, IsHex 64 branch
  | [], _ => by simp [merkleLoop]
  | branch :: l, m => by
    rw [merkleLoop, List.forall_mem_cons, ← hex32_isSome_iff]
    cases hex32 branch with
    | none => simp
    | some b => simp [merkleLoop_isSome_iff l]

theorem headerBytes_isSome_iff (notify : StratumNotify) (coinbase : List Byte) : (headerBytes notify coinbase).isSome ↔
    (∀ branch ∈ notify.merkle, IsHex 64 branch) ∧ IsHex 64 notify.prevhash := by
  rw [headerBytes, ← merkleLoop_isSome_iff notify.merkle (reverseCopy (doubleSha256 coinbase)), ← hex32_isSome_iff]
  cases merkleLoop notify.merkle (reverseCopy (doubleSha256 coinbase)) with
  | none => simp
  | some m =>
    cases hex32 notify.prevhash with
    | none => simp
    | some p => simp

/-- What `build_job` needs to get to the end. -/
structure Buildable (notify : StratumNotify) (state : StratumState) : Prop where
  haveTarget : state.haveTarget = true
  subscribed : state.subscribed = true
  authorized : state.authorized = true
  coinb1 : HexText notify.coinb1
  extranonce1 : HexText state.extranonce1
  coinb2 : HexText notify.coinb2
  total : hexLength notify.coinb1 + hexLength state.extranonce1 + state.extranonce2Size + hexLength notify.coinb2 ≤ 512
  merkle : ∀ branch ∈ notify.merkle, IsHex 64 branch
  prevhash : IsHex 64 notify.prevhash

variable {notify : StratumNotify} {state : StratumState}

theorem buildJob_isSome_iff_buildable : (buildJob notify state).1.isSome ↔ Buildable notify state := by
  have hcoinbase : (jobCoinbase notify state).isSome ↔ ¬ jobCoinbase notify state = none := by
    rw [← Option.not_isSome_iff_eq_none, not_not]
  have hheader : (jobHeader notify state).isSome ↔ (jobCoinbase notify state).isSome ∧
      (∀ branch ∈ notify.merkle, IsHex 64 branch) ∧ IsHex 64 notify.prevhash := by
    rw [jobHeader]
    cases jobCoinbase notify state with
    | none => simp
    | some coinbase => simp [headerBytes_isSome_iff]
  rw [buildJob_isSome_iff, hheader, hcoinbase, jobCoinbase_eq_none_iff]
  constructor
  · rintro ⟨htarget, hsub, hauth, hparts, hmerkle, hprev⟩
    simp only [not_or, not_not, Nat.not_lt] at hparts
    obtain ⟨h1, h2, h3, htotal⟩ := hparts
    exact ⟨htarget, hsub, hauth, h1, h2, h3, htotal, hmerkle, hprev⟩
  · rintro ⟨htarget, hsub, hauth, h1, h2, h3, htotal, hmerkle, hprev⟩
    refine ⟨htarget, hsub, hauth, ?_, hmerkle, hprev⟩
    simp only [not_or, not_not, Nat.not_lt]
    exact ⟨h1, h2, h3, htotal⟩

/-! ## What is not checked -/

/-- The fields of a job that is built: texts for 32 bytes, texts of 8 hex digits, and a time that is submitted as it is
hashed. -/
structure WellFormed (notify : StratumNotify) (state : StratumState) (job : MinerJob) : Prop where
  prevhash : ∃ b, hexToBytes notify.prevhash 32 = some b ∧ b.length = 32
  merkle : ∀ branch ∈ notify.merkle, ∃ b, hexToBytes branch 32 = some b ∧ b.length = 32
  version : IsHex 8 notify.version
  ntime : IsHex 8 notify.ntime
  nbits : IsHex 8 notify.nbits
  submitted : ∃ header t, jobHeader notify state = some header ∧ hexToBytes job.ntime 4 = some t ∧
    (header.drop 68).take 4 = t.reverse

theorem hexToBytes_of_isHex {s : List Char} (h : IsHex 64 s) : ∃ b, hexToBytes s 32 = some b ∧ b.length = 32 := by
  obtain ⟨b, hb⟩ := Option.isSome_iff_exists.1 ((hexToBytes_isSome_iff s 32).2 ⟨by rw [h.1], by rw [h.1], h.2⟩)
  exact ⟨b, hb, by rw [length_hexToBytes hb, h.1]⟩

/-- The bytes of the time in the header. -/
theorem jobHeader_ntime {header : List Byte} (h : jobHeader notify state = some header) :
    (header.drop 68).take 4 = storeLe32 (hexU32 notify.ntime) := by
  obtain ⟨_, m, prev, _, _, _, hm, hp, rfl⟩ := jobHeader_eq h
  have hfront : (storeLe32 (hexU32 notify.version) ++ prev.reverse ++ m).length = 68 := by
    simp [storeLe32, hm, hp]
  rw [List.append_assoc (_ ++ storeLe32 (hexU32 notify.ntime)), List.append_assoc (_ ++ m), List.drop_left' hfront,
    List.take_left' (show (storeLe32 (hexU32 notify.ntime)).length = 4 from rfl)]

/-- **Header fields.** Whatever the notify and the session are, a job that is built has well-formed fields exactly when
the version, the time and the bits are 8 hex digits each, or there is no job for another reason. -/
theorem wellFormed_iff (notify : StratumNotify) (state : StratumState) :
    (∀ job, (buildJob notify state).1 = some job → WellFormed notify state job) ↔
      (IsHex 8 notify.version ∧ IsHex 8 notify.ntime ∧ IsHex 8 notify.nbits) ∨ ¬ Buildable notify state := by
  constructor
  · intro h
    by_cases hb : Buildable notify state
    · obtain ⟨job, hjob⟩ := Option.isSome_iff_exists.1 (buildJob_isSome_iff_buildable.2 hb)
      have hwell := h job hjob
      exact .inl ⟨hwell.version, hwell.ntime, hwell.nbits⟩
    · exact .inr hb
  · rintro (⟨hversion, hntime, hnbits⟩ | hno) job hjob
    · have hb : Buildable notify state := buildJob_isSome_iff_buildable.1 (by rw [hjob]; rfl)
      obtain ⟨header, hheader, rfl⟩ := buildJob_some hjob
      obtain ⟨t, ht, hbytes⟩ := storeLe32_hexU32 hntime
      refine ⟨hexToBytes_of_isHex hb.prevhash, fun branch hmem => hexToBytes_of_isHex (hb.merkle branch hmem), hversion,
        hntime, hnbits, header, t, hheader, ?_, ?_⟩
      · rw [← ht]
        exact congrArg (hexToBytes · 4) (List.take_of_length_le (by rw [hntime.1]))
      · rw [jobHeader_ntime hheader, hbytes]
    · exact absurd (buildJob_isSome_iff_buildable.1 (by rw [hjob]; rfl)) hno

/-- A notify whose version is no number. -/
def badVersion : StratumNotify := { mockNotify zeroPrevhash with version := ⟨"-".toList, by decide⟩ }

/-- It leads to a job. -/
theorem bad_version_is_mined : ¬ ∀ (notify : StratumNotify) (state : StratumState) (job : MinerJob),
    (buildJob notify state).1 = some job → WellFormed notify state job := by
  intro h
  have hheader : (jobHeader badVersion mockState).isSome := by
    rw [jobHeader, show jobCoinbase badVersion mockState = some mockCoinbase from jobCoinbase_mock zeroPrevhash,
      Option.bind_some]
    exact headerBytes_isSome (p := List.replicate 32 0) rfl (by decide +kernel)
  have hsome : (buildJob badVersion mockState).1.isSome := buildJob_isSome_iff.2 ⟨rfl, rfl, rfl, hheader⟩
  obtain ⟨job, hjob⟩ := Option.isSome_iff_exists.1 hsome
  have hlen := (h badVersion mockState job hjob).version.1
  revert hlen
  decide

end Vek280Miner.Sw
