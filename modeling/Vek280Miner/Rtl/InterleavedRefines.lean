import Vek280Miner.Rtl.InterleavedCore

/-!
# The interleaved core computes `sha256_compress`

Between jobs the core rests with nothing owed (`Resting`); a start leads to the first stage, and the stages lead from
one to the next until the digest (`At.goes_on`). A service that keeps its promises need not be quick: as long as it
accepts and answers at some time, the rank of the stage grows until the job is finished.
-/

namespace Vek280Miner.Rtl

open Sha256 (Vars sched vars)
open Clocked (run run_succ waits_until)

variable {m : Words 16} {h : Words 8} {t : Nat} {q : Stage} {w : Watched} {i : InterleavedIn}

/-- The core is idle and nothing is owed. -/
structure Resting (w : Watched) : Prop where
  busy : w.core.busyQ = false
  valid : w.core.schedReqValidO = false
  pending : w.pending = []
  done : w.core.doneO = true → ∃ m h, Finished m h w

/-- A state of a run. -/
def Sound (w : Watched) : Prop := (∃ m h t q, t < 64 ∧ At m h t q w) ∨ Resting w

theorem Finished.resting (hw : Finished m h w) : Resting w :=
  ⟨hw.core.busy, hw.core.valid, hw.pending, fun _ => ⟨m, h, hw⟩⟩

theorem Resting.logs (hw : Resting w) (i : InterleavedIn) : (w.step i).pending = [] := by
  have hacc : w.core.accepted i = none := by simp [InterleavedCore.accepted, hw.valid]
  have htaken : w.core.taken i = none := by
    simp [InterleavedCore.taken, InterleavedCore.schedRspReadyO, hw.busy]
  simp only [Watched.step, htaken, Watched.owed, hacc, hw.pending]
  rfl

/-- A start leads to the first stage of its job. -/
theorem Resting.step_start (hw : Resting w) (hi : i.start = true) : At i.block i.h 0 .launch (w.step i) := by
  have hstarts : w.starts i = true := by simp [Watched.starts, hi, hw.busy]
  have hcore : (w.step i).core = { w.core with
      doneO := false, schedReqValidO := w.core.schedReqValidO && !i.schedReqReady
      wMem := fun j => i.block j.toFin, hQ := i.h, vQ := Vars.ofWords i.h
      roundQ := 0, phaseQ := 0, busyQ := true } := by
    simp [Watched.step, InterleavedCore.step, hi, hw.busy]
  refine ⟨?_, by simp [Watched.step, hstarts], (hw.logs i).trans rfl, by simp [Watched.step, hstarts, schedRequests]⟩
  rw [hcore]
  refine {
    busy := rfl, done := rfl, round := rfl, phase := rfl, chain := rfl, var := rfl
    ring := fun j hj _ => ?_
    t2 := fun hq => absurd rfl hq
    t1a := fun hq => absurd rfl hq
    t1b := fun hq => absurd rfl hq
    t1c := fun hq => by cases hq
    t1 := fun hq => by cases hq
    new := fun hq => by simp at hq
    late := fun hq => by simp at hq
    valid := by simp [hw.valid] }
  have hj16 : j < 16 := by simpa using hj
  rw [Sha256.sched_input _ hj16]
  exact congrArg i.block (Fin.ext (Nat.mod_eq_of_lt hj16))

theorem Resting.step_idle (hw : Resting w) (hi : i.start = false) : Resting (w.step i) := by
  have hcore : (w.step i).core = { w.core with
      doneO := false, schedReqValidO := w.core.schedReqValidO && !i.schedReqReady } := by
    simp [Watched.step, InterleavedCore.step, hi, hw.busy]
  refine ⟨?_, ?_, hw.logs i, fun hd => ?_⟩
  · rw [hcore]
    exact hw.busy
  · rw [hcore]
    simp [hw.valid]
  · rw [hcore] at hd
    cases hd

/-- The place of a stage in the whole job. -/
def Stage.rank (t : Nat) : Stage → Nat
  | .launch => 5 * t
  | .offer => 5 * t + 1
  | .await => 5 * t + 2
  | .calculate => 5 * t + 3
  | .update => 5 * t + 4

/-- A stage behind rank `r`, or the end. -/
def Later (m : Words 16) (h : Words 8) (r : Nat) (w : Watched) : Prop :=
  (∃ t q, t < 64 ∧ r < q.rank t ∧ At m h t q w) ∨ Finished m h w

/-- The stage waits for the service, which does nothing for it at this edge. -/
def Stage.Waits (q : Stage) (i : InterleavedIn) (w : Watched) : Prop :=
  q = .offer ∧ i.schedReqReady = false ∨ q = .await ∧ w.core.rspMatches i = false

/-- An edge leads to a later stage or to the end, unless the stage waits. -/
theorem At.goes_on (hw : At m h t q w) (ht : t < 64) (ha : w.Answers i) :
    (q.Waits i w ∧ At m h t q (w.step i)) ∨ Later m h (q.rank t) (w.step i) := by
  cases q with
  | launch =>
    have hs := hw.step_launch ht i
    by_cases h16 : t < 16
    · rw [if_pos h16] at hs
      exact .inr (.inl ⟨t, .calculate, ht, by simp [Stage.rank], hs⟩)
    · rw [if_neg h16] at hs
      exact .inr (.inl ⟨t, .offer, ht, by simp [Stage.rank], hs⟩)
  | offer =>
    have hs := hw.step_wait (.inl rfl) ht ha
    by_cases hm : w.core.rspMatches i = true
    · rw [if_pos hm] at hs
      exact .inr (.inl ⟨t, .calculate, ht, by simp [Stage.rank], hs⟩)
    · rw [if_neg hm] at hs
      by_cases hr : i.schedReqReady = false
      · rw [if_pos ⟨rfl, hr⟩] at hs
        exact .inl ⟨.inl ⟨rfl, hr⟩, hs⟩
      · rw [if_neg fun hc => hr hc.2] at hs
        exact .inr (.inl ⟨t, .await, ht, by simp [Stage.rank], hs⟩)
  | await =>
    have hs := hw.step_wait (.inr rfl) ht ha
    by_cases hm : w.core.rspMatches i = true
    · rw [if_pos hm] at hs
      exact .inr (.inl ⟨t, .calculate, ht, by simp [Stage.rank], hs⟩)
    · rw [if_neg hm, if_neg (by simp)] at hs
      exact .inl ⟨.inr ⟨rfl, eq_false_of_ne_true hm⟩, hs⟩
  | calculate => exact .inr (.inl ⟨t, .update, ht, by simp [Stage.rank], hw.step_calc i⟩)
  | update =>
    by_cases hlast : t = 63
    · subst hlast
      exact .inr (.inr (hw.step_last i))
    · exact .inr (.inl ⟨t + 1, .launch, by omega, by simp [Stage.rank]; omega, hw.step_round (by omega) i⟩)

/-- **An edge keeps a run sound**, whatever a service does that answers what it owes. -/
theorem Sound.step (hw : Sound w) (ha : w.Answers i) : Sound (w.step i) := by
  obtain ⟨m, h, t, q, ht, hw⟩ | hw := hw
  · obtain ⟨-, hs⟩ | ⟨t', q', ht', -, hs⟩ | hs := hw.goes_on ht ha
    · exact .inl ⟨m, h, t, q, ht, hs⟩
    · exact .inl ⟨m, h, t', q', ht', hs⟩
    · exact .inr hs.resting
  · cases hi : i.start with
    | true => exact .inl ⟨_, _, 0, .launch, by omega, hw.step_start hi⟩
    | false => exact .inr (hw.step_idle hi)

theorem sound_reset (s : InterleavedCore) : Sound (.reset s) := .inr ⟨rfl, rfl, rfl, fun hd => by cases hd⟩

/-- A service that accepts every request and answers it, at some time. -/
structure FairService (inp : Nat → InterleavedIn) (w : Nat → Watched) : Prop where
  accepts : ∀ n, (w n).core.schedReqValidO = true → ∃ u ≥ n, (inp u).schedReqReady = true
  responds : ∀ n, ∀ r ∈ (w n).pending, ∃ u ≥ n, (inp u).schedRspValid = true ∧ (inp u).schedRsp = r.response

section Run

variable {s : InterleavedCore} {inp : Nat → InterleavedIn}

theorem sound_run (ha : ∀ n, (run Watched.step inp (.reset s) n).Answers (inp n)) :
    ∀ n, Sound (run Watched.step inp (.reset s) n)
  | 0 => sound_reset s
  | n + 1 => (sound_run ha n).step (ha n)

/-- A stage of a job that is served does not last. -/
theorem At.advances {n : Nat} (ha : ∀ n, (run Watched.step inp (.reset s) n).Answers (inp n))
    (hservice : FairService inp (run Watched.step inp (.reset s))) (hw : At m h t q (run Watched.step inp (.reset s) n))
    (ht : t < 64) : ∃ u > n, Later m h (q.rank t) (run Watched.step inp (.reset s) u) := by
  let served (u : Nat) : Prop := (q = .offer → (inp u).schedReqReady = true) ∧
    (q = .await → (inp u).schedRspValid = true ∧ (inp u).schedRsp = (schedRequest m t).response)
  have hev : ∃ u ≥ n, served u := by
    by_cases ho : q = .offer
    · obtain ⟨u, hu, hr⟩ := hservice.accepts n (by rw [hw.regs.valid, ho]; rfl)
      exact ⟨u, hu, fun _ => hr, fun hq => by rw [ho] at hq; cases hq⟩
    · by_cases haw : q = .await
      · obtain ⟨u, hu, hr⟩ := hservice.responds n (schedRequest m t) (by
          rw [hw.pending, if_pos haw]
          exact List.mem_singleton_self _)
        exact ⟨u, hu, fun hq => absurd hq ho, fun _ => hr⟩
      · exact ⟨n, Nat.le_refl n, fun hq => absurd hq ho, fun hq => absurd hq haw⟩
  refine waits_until (P := fun u => At m h t q (run Watched.step inp (.reset s) u)) hw hev fun u _ hu => ?_
  obtain ⟨hwaits, hs⟩ | hs := hu.goes_on ht (ha u)
  · refine .inl ⟨fun hserved => ?_, hs⟩
    obtain ⟨ho, hr⟩ | ⟨haw, hm⟩ := hwaits
    · rw [hserved.1 ho] at hr
      cases hr
    · obtain ⟨hvalid, hrsp⟩ := hserved.2 haw
      have hreq := (hu.regs.late (.inr haw)).2
      rw [(hu.regs.rspMatches_iff (.inr haw) ht).2 ⟨hvalid, by rw [hrsp, hreq]; rfl, by rw [hrsp, hreq]; rfl⟩] at hm
      cases hm
  · exact .inr hs

/-- A job that is served ends. -/
theorem At.finishes (ha : ∀ n, (run Watched.step inp (.reset s) n).Answers (inp n))
    (hservice : FairService inp (run Watched.step inp (.reset s))) :
    ∀ (k n : Nat) {t : Nat} {q : Stage}, 320 ≤ q.rank t + k → At m h t q (run Watched.step inp (.reset s) n) → t < 64 →
      ∃ u > n, Finished m h (run Watched.step inp (.reset s) u) := by
  intro k
  induction k with
  | zero =>
    intro n t q hk hw ht
    cases q <;> simp only [Stage.rank] at hk <;> omega
  | succ k ih =>
    intro n t q hk hw ht
    obtain ⟨u, hu, ⟨t', q', ht', hrank, hs⟩ | hs⟩ := hw.advances ha hservice ht
    · obtain ⟨v, hv, hf⟩ := ih u (by omega) hs ht'
      exact ⟨v, by omega, hf⟩
    · exact ⟨u, hu, hs⟩

end Run

/-! ## The theorem -/

theorem schedRequests_prefix (ht : t ≤ 64) : schedRequests m t <+: (List.range' 16 48).map (schedRequest m) := by
  refine List.IsPrefix.map _ ⟨List.range' (16 + (t - 16)) (48 - (t - 16)), ?_⟩
  rw [List.range'_append_1, Nat.add_sub_cancel' (by omega)]

/-- **Refinement.** In every run from reset, with a service that answers only what it owes, the core raises `done_o`
only with `sha256_compress` of the inputs of its last start, when exactly the requests for the rounds 16 to 63 have been
accepted, in order; before that it is some first part of them. No request is offered while another one is owed a
response. If the service accepts and answers every request, however late, every job ends. -/
theorem interleaved_core_refines (s : InterleavedCore) (inp : Nat → InterleavedIn)
    (ha : ∀ n, (run Watched.step inp (.reset s) n).Answers (inp n)) :
    let w := run Watched.step inp (.reset s)
    (∀ n, (w n).core.doneO = true → ∃ m h, (w n).job = some (m, h) ∧
      (w n).core.digestO = Sw.sha256Compress h (wordsBytes m) ∧
      (w n).issued = (List.range' 16 48).map (schedRequest m)) ∧
    (∀ n, (w n).core.busyQ = true → ∃ m h, (w n).job = some (m, h) ∧
      (w n).issued <+: (List.range' 16 48).map (schedRequest m)) ∧
    (∀ n, (w n).pending.length + (w n).core.schedReqValidO.toNat ≤ 1) ∧
    (FairService inp w → ∀ n, (w n).core.busyQ = true → ∃ u > n, (w u).core.doneO = true ∧ (w u).job = (w n).job) := by
  intro w
  have hsound := sound_run ha
  refine ⟨fun n hd => ?_, fun n hb => ?_, fun n => ?_, fun hservice n hb => ?_⟩
  · obtain ⟨m, h, t, q, -, hw⟩ | hw := hsound n
    · exact absurd (hw.regs.done.symm.trans hd) (by decide)
    · obtain ⟨m, h, hf⟩ := hw.done hd
      exact ⟨m, h, hf.job, by rw [hf.core.digest, Sw.sha256Compress_wordsBytes], hf.issued⟩
  · obtain ⟨m, h, t, q, ht, hw⟩ | hw := hsound n
    · refine ⟨m, h, hw.job, ?_⟩
      rw [hw.issued]
      exact schedRequests_prefix (by split <;> omega)
    · exact absurd (hw.busy.symm.trans hb) (by decide)
  · obtain ⟨m, h, t, q, -, hw⟩ | hw := hsound n
    · rw [hw.pending, hw.regs.valid]
      cases q <;> exact Nat.le_of_ble_eq_true rfl
    · rw [hw.pending, hw.valid]
      decide
  · obtain ⟨m, h, t, q, ht, hw⟩ | hw := hsound n
    · obtain ⟨u, hu, hf⟩ := At.finishes ha hservice 320 n (by omega) hw ht
      exact ⟨u, hu, hf.core.done, hf.job.trans hw.job.symm⟩
    · exact absurd (hw.busy.symm.trans hb) (by decide)

/-! ### A service that answers at the next edge -/

/-- A start at every edge, and the answer to what is owed. -/
def promptIn (w : Watched) : InterleavedIn :=
  ⟨true, 0, 0, true, !w.pending.isEmpty, (w.pending.headD default).response⟩

def promptRun : Nat → Watched
  | 0 => .reset default
  | n + 1 => (promptRun n).step (promptIn (promptRun n))

theorem run_prompt : ∀ n, run Watched.step (fun n => promptIn (promptRun n)) (.reset default) n = promptRun n
  | 0 => rfl
  | n + 1 => by rw [run_succ, run_prompt n, promptRun]

theorem prompt_answers (w : Watched) : w.Answers (promptIn w) := by
  intro rsp hrsp
  rw [InterleavedCore.taken] at hrsp
  split at hrsp
  · rename_i hc
    obtain rfl := Option.some.inj hrsp
    refine .inl ⟨w.pending.headD default, List.mem_append_left _ ?_, rfl⟩
    obtain ⟨hvalid, -⟩ := Bool.and_eq_true_iff.1 hc
    cases hp : w.pending with
    | nil => simp [promptIn, hp] at hvalid
    | cons r l => exact List.mem_cons_self
  · cases hrsp

/-- The all-zero block comes out of that service hashed. -/
theorem interleaved_core_prompt : ∃ u, (promptRun u).core.doneO = true ∧
    (promptRun u).core.digestO = Sw.sha256Compress 0 (wordsBytes (0 : Words 16)) := by
  obtain ⟨hdone, -, hone, hends⟩ := interleaved_core_refines default (fun n => promptIn (promptRun n))
    fun n => by rw [run_prompt]; exact prompt_answers _
  simp only [run_prompt] at hdone hone
  have hservice : FairService (fun n => promptIn (promptRun n))
      (run Watched.step (fun n => promptIn (promptRun n)) (.reset default)) := by
    refine ⟨fun n _ => ⟨n, Nat.le_refl n, rfl⟩, fun n r hr => ⟨n, Nat.le_refl n, ?_⟩⟩
    rw [run_prompt] at hr
    have hlen := hone n
    cases hp : (promptRun n).pending with
    | nil =>
      rw [hp] at hr
      cases hr
    | cons r' l =>
      rw [hp, List.length_cons] at hlen
      obtain rfl : l = [] := List.length_eq_zero_iff.1 (by omega)
      rw [hp] at hr
      obtain rfl := List.mem_singleton.1 hr
      simp [promptIn, hp]
  obtain ⟨u, -, hu, hjob⟩ := hends hservice 1 (by rw [run_prompt]; rfl)
  rw [run_prompt] at hu hjob
  rw [run_prompt] at hjob
  obtain ⟨m, h, hmh, hdigest, -⟩ := hdone u hu
  have hzero : (promptRun 1).job = some (0, 0) := rfl
  obtain ⟨rfl, rfl⟩ := Prod.mk.inj (Option.some.inj (hmh.symm.trans (hjob.trans hzero)))
  exact ⟨u, hu, hdigest⟩

end Vek280Miner.Rtl
