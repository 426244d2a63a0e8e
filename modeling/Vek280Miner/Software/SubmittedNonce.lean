import Vek280Miner.Software.JobHeader

/-!
# The nonce that is submitted

The engine puts the nonce into the first block as a word, so the header that it hashes ends with the bytes of the nonce
most significant first. `submit_share` prints the nonce as a number, and a pool stores such a number least significant
byte first, as `build_job` does with the version, the time and the bits. The pool sees the hashed header exactly for
nonces that are their own byte swap (`submitted_nonce_iff`).
-/

namespace Vek280Miner.Sw

open Rtl (hashedHeader engineDigest)

theorem length_submitOpen : submitOpen.length = 44 := by decide

theorem length_submitSep : submitSep.length = 3 := by decide

theorem length_submitTail : submitTail.length = 4 := by decide

theorem length_formatHex8 (nonce : Word) : (formatHex8 nonce).length = 8 := by simp [formatHex8]

/-- The line fits into the buffer. -/
theorem length_submit_lt (user : CStr 128) (nonce : Word) (job : MinerJob) :
    (submitHead user job ++ formatHex8 nonce ++ submitTail).length < 512 := by
  have h1 := user.2
  have h2 := job.jobId.2
  have h3 := job.extranonce2.2
  have h4 := job.ntime.2
  simp only [submitHead, List.length_append, length_submitOpen, length_submitSep, length_submitTail, length_formatHex8]
  omega

/-- A job with an id is reported. -/
theorem submitShare_some {job : MinerJob} (h : job.jobId.val ≠ []) (user : CStr 128) (nonce : Word) :
    submitShare user nonce job = some (submitHead user job ++ formatHex8 nonce ++ submitTail) := by
  have hlen := length_submit_lt user nonce job
  rw [submitShare, if_neg h, snprintf, List.take_of_length_le (by omega)]

/-- No line is cut off. -/
theorem submitShare_eq {user : CStr 128} {nonce : Word} {job : MinerJob} {line : List Char}
    (h : submitShare user nonce job = some line) : line = submitHead user job ++ formatHex8 nonce ++ submitTail := by
  by_cases hid : job.jobId.val = []
  · rw [submitShare, if_pos hid] at h
    simp at h
  · rw [submitShare_some hid] at h
    exact (Option.some.inj h).symm

/-- The last parameter of the line is the nonce. -/
theorem submitShare_nonce {user : CStr 128} {nonce : Word} {job : MinerJob} {head s : List Char}
    (h : submitShare user nonce job = some (head ++ s ++ submitTail)) (hs : s.length = 8) : s = formatHex8 nonce := by
  have hline := List.append_cancel_right (submitShare_eq h)
  exact (List.append_inj' hline (hs.trans (length_formatHex8 nonce).symm)).2

variable {notify : StratumNotify} {state : StratumState} {job : MinerJob} {header : List Byte}

/-- **Submitted nonce.** The header that a pool forms from the submitted text is the header that the engine hashed, and
its double hash the digest that the engine compared, exactly when the nonce is its own byte swap. -/
theorem submitted_nonce_iff (hj : (buildJob notify state).1 = some job) (hh : jobHeader notify state = some header)
    {user : CStr 128} {nonce : Word} {head s : List Char}
    (hl : submitShare user nonce job = some (head ++ s ++ submitTail)) (hs : s.length = 8) :
    (header.take 76 ++ storeLe32 (hexU32 s) = hashedHeader header nonce ∧
      doubleSha256 (header.take 76 ++ storeLe32 (hexU32 s)) =
        wordsBytes (engineDigest ⟨job.midstate, job.headerTail, job.target⟩ nonce)) ↔ bswap nonce = nonce := by
  obtain ⟨hmid, htail, -⟩ := buildJob_header hj hh
  have hle : storeLe32 (hexU32 s) = leBytes nonce := by
    rw [submitShare_nonce hl hs, hexU32_formatHex8]
    rfl
  have hiff : header.take 76 ++ leBytes nonce = hashedHeader header nonce ↔ bswap nonce = nonce := by
    rw [hashedHeader, List.append_cancel_left_eq, leBytes_eq_beBytes_iff]
  rw [hle, hmid, htail, Rtl.engineDigest_header (length_jobHeader hh)]
  constructor
  · exact fun h => hiff.1 h.1
  · intro h
    exact ⟨hiff.2 h, by rw [hiff.2 h]⟩

/-! ## Nonces of the mock session -/

theorem submitShare_mock {job : MinerJob} (hj : (buildJob (mockNotify zeroPrevhash) mockState).1 = some job)
    (user : CStr 128) (nonce : Word) :
    submitShare user nonce job = some (submitHead user job ++ formatHex8 nonce ++ submitTail) := by
  obtain ⟨header, -, rfl⟩ := buildJob_some hj
  refine submitShare_some ?_ user nonce
  show ("easy0001".toList.take 63) ≠ []
  decide

/-- A nonce whose bytes are the same in both directions is seen as it was hashed. -/
theorem submitted_nonce_mirrored : ∃ job header, (buildJob (mockNotify zeroPrevhash) mockState).1 = some job ∧
    job.midstate = bitcoinHeaderMidstate header ∧
    header.take 76 ++ storeLe32 (hexU32 (formatHex8 0x12343412)) = hashedHeader header 0x12343412 := by
  obtain ⟨job, header, hj, hh⟩ := mock_job zeroPrevhash (p := List.replicate 32 0) (by decide)
  have hl := submitShare_mock hj ⟨[], by decide⟩ 0x12343412
  exact ⟨job, header, hj, (buildJob_header hj hh).1,
    ((submitted_nonce_iff hj hh hl (length_formatHex8 0x12343412)).2 (by decide)).1⟩

/-- Nonce `1` of the mock session is reported, and seen as another one. -/
theorem submitted_nonce_one : ¬ ∀ (notify : StratumNotify) (state : StratumState) (job : MinerJob) (header : List Byte)
    (user : CStr 128) (nonce : Word) (head s : List Char), (buildJob notify state).1 = some job →
    jobHeader notify state = some header →
    beValue (engineDigest ⟨job.midstate, job.headerTail, job.target⟩ nonce) ≤ beValue job.target →
    submitShare user nonce job = some (head ++ s ++ submitTail) → s.length = 8 →
    header.take 76 ++ storeLe32 (hexU32 s) = hashedHeader header nonce ∧
      doubleSha256 (header.take 76 ++ storeLe32 (hexU32 s)) =
        wordsBytes (engineDigest ⟨job.midstate, job.headerTail, job.target⟩ nonce) := by
  intro h
  obtain ⟨job, header, hj, hh⟩ := mock_job zeroPrevhash (p := List.replicate 32 0) (by decide)
  have htarget : job.target = fun _ => 0xffffffff := (buildJob_header hj hh).2.2
  have hr : beValue (engineDigest ⟨job.midstate, job.headerTail, job.target⟩ 1) ≤ beValue job.target := by
    rw [htarget]
    exact beValue_le_ones _
  have hseen := h _ _ job header ⟨[], by decide⟩ 1 _ _ hj hh hr (submitShare_mock hj _ 1) (length_formatHex8 1)
  have hbytes := hseen.1
  rw [hashedHeader, List.append_cancel_left_eq] at hbytes
  revert hbytes
  decide

end Vek280Miner.Sw
