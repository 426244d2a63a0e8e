import Vek280Miner.Rtl.SchedulePipeline
import Vek280Miner.Rtl.Sha256CoreRefines

/-!
# The core behind the schedule service (`sha256_core_interleaved_proto.sv`)

The core leaves the schedule words of rounds 16 to 63 to a service: it launches a request with the four operands, waits
for the response that has its tags, and goes on. Its functions are those of the iterative core.

`Watched` adds to the core what has gone over its ports: the job of the last start, the requests accepted since then,
and those that the service owes a response; no step of the core reads it. A service `Answers` if every response that the
core takes belongs to a request it owes one, or has other tags than the request that the core waits for.

`At m h t q w` says what the registers and the logs hold in stage `q` of round `t`. An edge keeps the stage or leads to
the next one, depending on what the service does (`At.step`), so that neither delays nor foreign responses change the
digest.
-/

namespace Vek280Miner.Rtl

open Sha256 (Vars sched vars temp1 temp2)

/-! ## The core -/

/-- The registers; `schedReqO` are the operands and tags on the request port. -/
structure InterleavedCore where
  busyQ : Bool
  phaseQ : BitVec 3
  roundQ : BitVec 7
  wMem : BitVec 4 → Word
  hQ : Words 8
  vQ : Vars
  t1AQ : Word
  t1BQ : Word
  t1CQ : Word
  t1Q : Word
  t2Q : Word
  wNewQ : Word
  doneO : Bool
  digestO : Words 8
  schedReqValidO : Bool
  schedReqO : SchedReq 5 6
deriving Inhabited

/-- The inputs sampled at an edge. -/
structure InterleavedIn where
  start : Bool
  block : Words 16
  h : Words 8
  schedReqReady : Bool
  schedRspValid : Bool
  schedRsp : SchedRsp 5 6

namespace InterleavedCore

variable (i : InterleavedIn) (s : InterleavedCore)

def schedRspReadyO : Bool := s.busyQ && s.phaseQ == 1

def wi : BitVec 4 := s.roundQ.setWidth 4

def aNext : Word := s.t1Q + s.t2Q

def eNext : Word := s.vQ.d + s.t1Q

/-- The test of `PH_WAIT`; the tags are compared with the engine number zero and with the round counter. -/
def rspMatches : Bool :=
  i.schedRspValid && s.schedRspReadyO && i.schedRsp.engine == 0 && i.schedRsp.round.setWidth 7 == s.roundQ

/-- One clock edge out of reset; the phases are launch, wait, calc and update. -/
def step : InterleavedCore :=
  let n := { s with doneO := false, schedReqValidO := s.schedReqValidO && !i.schedReqReady }
  if i.start && !s.busyQ then
    { n with
      wMem := fun j => i.block j.toFin
      hQ := i.h, vQ := Vars.ofWords i.h
      roundQ := 0, phaseQ := 0, busyQ := true }
  else if s.busyQ then
    if s.phaseQ = 0 then
      let n := { n with
        t1AQ := s.vQ.h + bigSigma1 s.vQ.e
        t1BQ := ch s.vQ.e s.vQ.f s.vQ.g + k s.roundQ
        t2Q := bigSigma0 s.vQ.a + maj s.vQ.a s.vQ.b s.vQ.c }
      if s.roundQ < 16 then { n with t1CQ := s.wMem s.wi, phaseQ := 2 }
      else
        { n with
          schedReqO := ⟨smallSigma1 (s.wMem (s.wi - 2)), s.wMem (s.wi - 7), smallSigma0 (s.wMem (s.wi - 15)), s.wMem s.wi, 0,
            s.roundQ.setWidth 6⟩
          schedReqValidO := true, phaseQ := 1 }
    else if s.phaseQ = 1 then
      if s.rspMatches i then { n with wNewQ := i.schedRsp.wNew, t1CQ := i.schedRsp.wNew, phaseQ := 2 } else n
    else if s.phaseQ = 2 then { n with t1Q := s.t1AQ + s.t1BQ + s.t1CQ, phaseQ := 3 }
    else if s.phaseQ = 3 then
      let n := { n with
        wMem := if 16 ≤ s.roundQ then Function.update s.wMem s.wi s.wNewQ else s.wMem
        vQ := ⟨s.aNext, s.vQ.a, s.vQ.b, s.vQ.c, s.eNext, s.vQ.e, s.vQ.f, s.vQ.g⟩ }
      if s.roundQ = 63 then
        { n with
          digestO := ![s.hQ 0 + s.aNext, s.hQ 1 + s.vQ.a, s.hQ 2 + s.vQ.b, s.hQ 3 + s.vQ.c,
            s.hQ 4 + s.eNext, s.hQ 5 + s.vQ.e, s.hQ 6 + s.vQ.f, s.hQ 7 + s.vQ.g]
          busyQ := false, doneO := true, phaseQ := 0 }
      else { n with roundQ := s.roundQ + 1, phaseQ := 0 }
    else { n with phaseQ := 0 }
  else n

/-- Reset; the datapath keeps whatever it held. -/
def reset : InterleavedCore :=
  { s with busyQ := false, phaseQ := 0, roundQ := 0, doneO := false, digestO := 0, schedReqValidO := false }

/-- The request that the service accepts at an edge. -/
def accepted : Option (SchedReq 5 6) := if s.schedReqValidO && i.schedReqReady then some s.schedReqO else none

/-- The response that the core takes at an edge. -/
def taken : Option (SchedRsp 5 6) := if i.schedRspValid && s.schedRspReadyO then some i.schedRsp else none

end InterleavedCore

/-! ## The core and its service -/

/-- The core, the inputs of the last start, the requests accepted since then, and those that are not answered. -/
structure Watched where
  core : InterleavedCore
  job : Option (Words 16 × Words 8)
  issued : List (SchedReq 5 6)
  pending : List (SchedReq 5 6)

namespace Watched

/-- The requests without a response when the edge comes. -/
def owed (i : InterleavedIn) (w : Watched) : List (SchedReq 5 6) := w.pending ++ (w.core.accepted i).toList

/-- The edge starts a job. -/
def starts (i : InterleavedIn) (w : Watched) : Bool := i.start && !w.core.busyQ

def step (i : InterleavedIn) (w : Watched) : Watched where
  core := w.core.step i
  job := if w.starts i then some (i.block, i.h) else w.job
  issued := if w.starts i then [] else w.issued ++ (w.core.accepted i).toList
  pending :=
    match w.core.taken i with
    | none => w.owed i
    | some rsp => (w.owed i).eraseP fun r => r.response == rsp

/-- The core out of reset, before any start. -/
def reset (s : InterleavedCore) : Watched := ⟨s.reset, none, [], []⟩

/-- A response that the core takes answers a request that is owed one, or has other tags than the request on the port.
-/
def Answers (i : InterleavedIn) (w : Watched) : Prop :=
  ∀ rsp, w.core.taken i = some rsp → (∃ r ∈ w.owed i, r.response = rsp) ∨
    rsp.engine ≠ w.core.schedReqO.engine ∨ rsp.round ≠ w.core.schedReqO.round

end Watched

/-- The request for round `t`. -/
def schedRequest (m : Words 16) (t : Nat) : SchedReq 5 6 :=
  ⟨Sha256.smallSigma1 (sched m (t - 2)), sched m (t - 7), Sha256.smallSigma0 (sched m (t - 15)), sched m (t - 16), 0,
    BitVec.ofNat 6 t⟩

/-- The requests for the rounds from 16 up to `t`. -/
def schedRequests (m : Words 16) (t : Nat) : List (SchedReq 5 6) := (List.range' 16 (t - 16)).map (schedRequest m)

/-! ## Stages -/

/-- Where a round stands; the request is first offered, then awaited. -/
inductive Stage where
  | launch
  | offer
  | await
  | calculate
  | update
deriving DecidableEq

def Stage.phase : Stage → BitVec 3
  | .launch => 0
  | .offer | .await => 1
  | .calculate => 2
  | .update => 3

/-- The registers in stage `q` of round `t` of the compression of `m` from `h`. -/
structure RegsAt (m : Words 16) (h : Words 8) (t : Nat) (q : Stage) (s : InterleavedCore) : Prop where
  busy : s.busyQ = true
  done : s.doneO = false
  round : s.roundQ = BitVec.ofNat 7 t
  phase : s.phaseQ = q.phase
  chain : s.hQ = h
  var : s.vQ = vars Sw.roundConst m h t
  ring : ∀ j, j < max t 16 → t ≤ j + 16 → s.wMem (BitVec.ofNat 4 j) = sched m j
  t2 : q ≠ .launch → s.t2Q = temp2 s.vQ
  t1a : q ≠ .launch → q ≠ .update → s.t1AQ = s.vQ.h + Sha256.bigSigma1 s.vQ.e
  t1b : q ≠ .launch → q ≠ .update → s.t1BQ = Sha256.ch s.vQ.e s.vQ.f s.vQ.g + Sw.roundConst t
  t1c : q = .calculate → s.t1CQ = sched m t
  t1 : q = .update → s.t1Q = temp1 s.vQ (Sw.roundConst t) (sched m t)
  new : q = .calculate ∨ q = .update → 16 ≤ t → s.wNewQ = sched m t
  late : q = .offer ∨ q = .await → 16 ≤ t ∧ s.schedReqO = schedRequest m t
  valid : s.schedReqValidO = (q == .offer)

/-- The registers and the logs. -/
structure At (m : Words 16) (h : Words 8) (t : Nat) (q : Stage) (w : Watched) : Prop where
  regs : RegsAt m h t q w.core
  job : w.job = some (m, h)
  pending : w.pending = if q = .await then [schedRequest m t] else []
  issued : w.issued = schedRequests m (if q = .launch ∨ q = .offer then t else t + 1)

section Registers

variable {m : Words 16} {h : Words 8} {t : Nat} {q : Stage} {s : InterleavedCore} {i : InterleavedIn}

theorem schedRequest_response (ht : 16 ≤ t) : (schedRequest m t).response = ⟨sched m t, 0, BitVec.ofNat 6 t⟩ := by
  rw [SchedReq.response, schedRequest, Sha256.sched_later m ht]

theorem schedRequests_succ (ht : 16 ≤ t) : schedRequests m (t + 1) = schedRequests m t ++ [schedRequest m t] := by
  rw [schedRequests, schedRequests, show t + 1 - 16 = t - 16 + 1 by omega, List.range'_1_concat, List.map_append,
    show 16 + (t - 16) = t by omega]
  rfl

theorem schedRequests_early (ht : t ≤ 16) : schedRequests m t = [] := by
  rw [schedRequests, show t - 16 = 0 by omega]
  rfl

/-- What the launch phase computes in every round. -/
def InterleavedCore.launched (i : InterleavedIn) (s : InterleavedCore) : InterleavedCore :=
  { s with
    doneO := false, schedReqValidO := s.schedReqValidO && !i.schedReqReady
    t1AQ := s.vQ.h + bigSigma1 s.vQ.e
    t1BQ := ch s.vQ.e s.vQ.f s.vQ.g + k s.roundQ
    t2Q := bigSigma0 s.vQ.a + maj s.vQ.a s.vQ.b s.vQ.c }

theorem RegsAt.t1b_launched (hs : RegsAt m h t .launch s) (ht : t < 64) (i : InterleavedIn) :
    (s.launched i).t1BQ = Sha256.ch s.vQ.e s.vQ.f s.vQ.g + Sw.roundConst t := by
  show ch _ _ _ + k s.roundQ = _
  rw [hs.round, k_eq ht]
  rfl

/-- A slot of the ring behind the current one. -/
theorem RegsAt.wMem_back (hs : RegsAt m h t q s) (ht : 16 ≤ t) {d : Nat} (hd : d ≤ 16) (hd1 : 1 ≤ d) :
    s.wMem (s.wi - BitVec.ofNat 4 d) = sched m (t - d) := by
  rw [InterleavedCore.wi, hs.round]
  exact ring_back hs.ring ht hd hd1

/-- The first phase of an early round takes the word of the block. -/
theorem RegsAt.step_early (hs : RegsAt m h t .launch s) (ht : t < 16) : RegsAt m h t .calculate (s.step i) := by
  have hlt : s.roundQ < 16#7 := by rw [hs.round]; exact (ofNat_lt_sixteen (by omega)).2 ht
  have hstep : s.step i = { s.launched i with t1CQ := s.wMem s.wi, phaseQ := 2 } := by
    simp [InterleavedCore.step, InterleavedCore.launched, hs.busy, hs.phase, Stage.phase, hlt]
  have hword : s.wMem s.wi = sched m t := by
    rw [InterleavedCore.wi, hs.round, setWidth_ofNat]
    exact hs.ring t (by omega) (by omega)
  rw [hstep]
  refine { hs with
    done := rfl, phase := rfl, t2 := fun _ => rfl, t1a := fun _ _ => rfl
    t1b := fun _ _ => hs.t1b_launched (by omega) i
    t1c := fun _ => hword, t1 := fun hq => by cases hq
    new := fun _ h16 => by omega
    late := fun hq => by simp at hq
    valid := ?_ }
  show (s.schedReqValidO && _) = _
  rw [hs.valid]
  rfl

/-- The first phase of a later round offers the request. -/
theorem RegsAt.step_late (hs : RegsAt m h t .launch s) (ht : 16 ≤ t) (ht64 : t < 64) :
    RegsAt m h t .offer (s.step i) := by
  have hge : ¬ s.roundQ < 16#7 := by rw [hs.round]; exact mt (ofNat_lt_sixteen ht64).1 (by omega)
  have hstep : s.step i = { s.launched i with
      schedReqO := ⟨smallSigma1 (s.wMem (s.wi - 2)), s.wMem (s.wi - 7), smallSigma0 (s.wMem (s.wi - 15)), s.wMem s.wi, 0,
        s.roundQ.setWidth 6⟩
      schedReqValidO := true, phaseQ := 1 } := by
    simp [InterleavedCore.step, InterleavedCore.launched, hs.busy, hs.phase, Stage.phase, hge]
  have hreq : (⟨smallSigma1 (s.wMem (s.wi - 2)), s.wMem (s.wi - 7), smallSigma0 (s.wMem (s.wi - 15)), s.wMem s.wi, 0,
      s.roundQ.setWidth 6⟩ : SchedReq 5 6) = schedRequest m t := by
    have h2 : s.wMem (s.wi - 2) = _ := hs.wMem_back ht (d := 2) (by omega) (by omega)
    have h7 : s.wMem (s.wi - 7) = _ := hs.wMem_back ht (d := 7) (by omega) (by omega)
    have h15 : s.wMem (s.wi - 15) = _ := hs.wMem_back ht (d := 15) (by omega) (by omega)
    have h16 := hs.wMem_back ht (d := 16) (by omega) (by omega)
    rw [show BitVec.ofNat 4 16 = 0#4 from rfl, BitVec.sub_zero] at h16
    have htag : s.roundQ.setWidth 6 = BitVec.ofNat 6 t := by
      rw [hs.round]
      apply BitVec.eq_of_toNat_eq
      simp only [BitVec.toNat_setWidth, BitVec.toNat_ofNat]
      omega
    rw [h2, h7, h15, h16, htag]
    rfl
  rw [hstep]
  exact { hs with
    done := rfl, phase := rfl, t2 := fun _ => rfl, t1a := fun _ _ => rfl
    t1b := fun _ _ => hs.t1b_launched ht64 i
    t1c := fun hq => by cases hq
    t1 := fun hq => by cases hq
    new := fun hq => by simp at hq
    late := fun _ => ⟨ht, hreq⟩, valid := rfl }

/-- The test of the tags, while the core waits. -/
theorem RegsAt.rspMatches_iff (hs : RegsAt m h t q s) (hq : q = .offer ∨ q = .await) (ht : t < 64) :
    s.rspMatches i = true ↔
      i.schedRspValid = true ∧ i.schedRsp.engine = s.schedReqO.engine ∧ i.schedRsp.round = s.schedReqO.round := by
  have hphase : s.phaseQ = 1 := by rw [hs.phase]; rcases hq with rfl | rfl <;> rfl
  have hround : i.schedRsp.round.setWidth 7 = s.roundQ ↔ i.schedRsp.round = BitVec.ofNat 6 t := by
    rw [hs.round]
    constructor
    · intro h7
      apply BitVec.eq_of_toNat_eq
      have := congrArg BitVec.toNat h7
      simp only [BitVec.toNat_setWidth, BitVec.toNat_ofNat] at this ⊢
      omega
    · intro h6
      rw [h6]
      apply BitVec.eq_of_toNat_eq
      simp only [BitVec.toNat_setWidth, BitVec.toNat_ofNat]
      omega
  rw [(hs.late hq).2]
  simp only [InterleavedCore.rspMatches, InterleavedCore.schedRspReadyO, hs.busy, hphase, Bool.and_eq_true, beq_iff_eq,
    hround, and_true, beq_self_eq_true, and_assoc]
  rfl

/-- Without a matching response the core waits on; the request goes when it is accepted. -/
theorem RegsAt.step_foreign (hs : RegsAt m h t q s) (hq : q = .offer ∨ q = .await) (hm : s.rspMatches i = false) :
    RegsAt m h t (if q = .offer ∧ i.schedReqReady = false then .offer else .await) (s.step i) := by
  have hphase : s.phaseQ = 1 := by rw [hs.phase]; rcases hq with rfl | rfl <;> rfl
  have hstep : s.step i = { s with doneO := false, schedReqValidO := s.schedReqValidO && !i.schedReqReady } := by
    simp [InterleavedCore.step, hs.busy, hphase, hm]
  have hvalid : (s.schedReqValidO && !i.schedReqReady) =
      ((if q = .offer ∧ i.schedReqReady = false then Stage.offer else .await) == .offer) := by
    rw [hs.valid]
    rcases hq with rfl | rfl <;> cases i.schedReqReady <;> rfl
  have hlate := hs.late hq
  rw [hstep]
  by_cases hoff : q = .offer ∧ i.schedReqReady = false
  · rw [if_pos hoff] at hvalid ⊢
    obtain ⟨rfl, -⟩ := hoff
    exact { hs with done := rfl, valid := hvalid }
  · rw [if_neg hoff] at hvalid ⊢
    have hne : q ≠ .launch ∧ q ≠ .update := by rcases hq with rfl | rfl <;> decide
    exact { hs with
      done := rfl, phase := hphase, t2 := fun _ => hs.t2 hne.1, t1a := fun _ _ => hs.t1a hne.1 hne.2
      t1b := fun _ _ => hs.t1b hne.1 hne.2
      t1c := fun hq => by cases hq
      t1 := fun hq => by cases hq
      new := fun hq => by simp at hq
      late := fun _ => hlate, valid := hvalid }

/-- The response brings the schedule word. -/
theorem RegsAt.step_matches (hs : RegsAt m h t q s) (hq : q = .offer ∨ q = .await) (hm : s.rspMatches i = true)
    (hword : i.schedRsp.wNew = sched m t) (hacc : q = .offer → i.schedReqReady = true) :
    RegsAt m h t .calculate (s.step i) := by
  have hphase : s.phaseQ = 1 := by rw [hs.phase]; rcases hq with rfl | rfl <;> rfl
  have hstep : s.step i = { s with
      doneO := false, schedReqValidO := s.schedReqValidO && !i.schedReqReady
      wNewQ := i.schedRsp.wNew, t1CQ := i.schedRsp.wNew, phaseQ := 2 } := by
    simp [InterleavedCore.step, hs.busy, hphase, hm]
  have hne : q ≠ .launch ∧ q ≠ .update := by rcases hq with rfl | rfl <;> decide
  rw [hstep]
  refine { hs with
    done := rfl, phase := rfl, t2 := fun _ => hs.t2 hne.1, t1a := fun _ _ => hs.t1a hne.1 hne.2
    t1b := fun _ _ => hs.t1b hne.1 hne.2, t1c := fun _ => hword
    t1 := fun hq => by cases hq
    new := fun _ _ => hword
    late := fun hq => by simp at hq
    valid := ?_ }
  show (s.schedReqValidO && !i.schedReqReady) = false
  rw [hs.valid]
  rcases hq with rfl | rfl
  · rw [hacc rfl]
    rfl
  · rfl

theorem RegsAt.step_calc (hs : RegsAt m h t .calculate s) : RegsAt m h t .update (s.step i) := by
  have hstep : s.step i = { s with
      doneO := false, schedReqValidO := s.schedReqValidO && !i.schedReqReady
      t1Q := s.t1AQ + s.t1BQ + s.t1CQ, phaseQ := 3 } := by
    simp [InterleavedCore.step, hs.busy, hs.phase, Stage.phase]
  have ht1 : s.t1AQ + s.t1BQ + s.t1CQ = temp1 s.vQ (Sw.roundConst t) (sched m t) := by
    rw [hs.t1a (by decide) (by decide), hs.t1b (by decide) (by decide), hs.t1c rfl, temp1]
    ac_rfl
  rw [hstep]
  refine { hs with
    done := rfl, phase := rfl, t2 := fun _ => hs.t2 (by decide), t1 := fun _ => ht1
    t1a := fun _ hq => absurd rfl hq
    t1b := fun _ hq => absurd rfl hq
    t1c := fun hq => by cases hq
    new := fun _ => hs.new (.inl rfl)
    late := fun hq => by simp at hq
    valid := ?_ }
  show (s.schedReqValidO && _) = _
  rw [hs.valid]
  rfl

/-- The working variables that the last phase of a round stores. -/
theorem RegsAt.vars_next (hs : RegsAt m h t .update s) :
    (⟨s.aNext, s.vQ.a, s.vQ.b, s.vQ.c, s.eNext, s.vQ.e, s.vQ.f, s.vQ.g⟩ : Vars) = vars Sw.roundConst m h (t + 1) := by
  rw [InterleavedCore.aNext, InterleavedCore.eNext, hs.t2 (by decide), hs.t1 rfl, hs.var]
  rfl

/-- What the last phase of a round stores. -/
def InterleavedCore.updated (i : InterleavedIn) (s : InterleavedCore) : InterleavedCore :=
  { s with
    doneO := false, schedReqValidO := s.schedReqValidO && !i.schedReqReady
    wMem := if 16 ≤ s.roundQ then Function.update s.wMem s.wi s.wNewQ else s.wMem
    vQ := ⟨s.aNext, s.vQ.a, s.vQ.b, s.vQ.c, s.eNext, s.vQ.e, s.vQ.f, s.vQ.g⟩ }

/-- The last phase of a round leads to the next round. -/
theorem RegsAt.step_round (hs : RegsAt m h t .update s) (ht : t < 63) : RegsAt m h (t + 1) .launch (s.step i) := by
  have hlast : ¬ s.roundQ = 63#7 := by rw [hs.round]; exact mt (ofNat_eq_last (by omega)).1 (by omega)
  have hstep : s.step i = { s.updated i with roundQ := s.roundQ + 1, phaseQ := 0 } := by
    simp [InterleavedCore.step, InterleavedCore.updated, hs.busy, hs.phase, Stage.phase, hlast]
  rw [hstep]
  refine {
    busy := hs.busy, done := rfl, round := ?_, phase := rfl, chain := hs.chain, var := hs.vars_next
    ring := fun j hj hj' => ?_
    t2 := fun hq => absurd rfl hq
    t1a := fun hq => absurd rfl hq
    t1b := fun hq => absurd rfl hq
    t1c := fun hq => by cases hq
    t1 := fun hq => by cases hq
    new := fun hq => by simp at hq
    late := fun hq => by simp at hq
    valid := ?_ }
  · show s.roundQ + 1 = _
    rw [hs.round]
    exact (BitVec.ofNat_add t 1).symm
  · show (if 16 ≤ s.roundQ then Function.update s.wMem s.wi s.wNewQ else s.wMem) _ = _
    rw [InterleavedCore.wi, hs.round]
    exact ring_advance hs.ring (by omega) (hs.new (.inr rfl)) hj hj'
  · show (s.schedReqValidO && _) = _
    rw [hs.valid]
    rfl

/-- The core has just finished with digest `d`, and no request is on its way. -/
structure InterleavedDone (d : Words 8) (s : InterleavedCore) : Prop where
  busy : s.busyQ = false
  done : s.doneO = true
  valid : s.schedReqValidO = false
  digest : s.digestO = d

/-- The last phase of the last round leads to the digest. -/
theorem RegsAt.step_last (hs : RegsAt m h 63 .update s) :
    InterleavedDone (Sha256.compress Sw.roundConst h m) (s.step i) := by
  have hlast : s.roundQ = 63#7 := hs.round
  have hv := hs.vars_next
  have hstep : s.step i = { s.updated i with
      digestO := ![s.hQ 0 + s.aNext, s.hQ 1 + s.vQ.a, s.hQ 2 + s.vQ.b, s.hQ 3 + s.vQ.c,
        s.hQ 4 + s.eNext, s.hQ 5 + s.vQ.e, s.hQ 6 + s.vQ.f, s.hQ 7 + s.vQ.g]
      busyQ := false, doneO := true, phaseQ := 0 } := by
    simp [InterleavedCore.step, InterleavedCore.updated, hs.busy, hs.phase, Stage.phase, hlast]
  rw [hstep]
  refine ⟨rfl, rfl, ?_, funext fun j => ?_⟩
  · show (s.schedReqValidO && _) = _
    rw [hs.valid]
    rfl
  · rw [Sha256.compress, ← hv, ← hs.chain]
    fin_cases j <;> rfl

end Registers

/-! ## The logs -/

section Logs

variable {m : Words 16} {h : Words 8} {t : Nat} {q : Stage} {w : Watched} {i : InterleavedIn}

/-- A busy core does not start. -/
theorem At.not_starts (hw : At m h t q w) : w.starts i = false := by
  rw [Watched.starts, hw.regs.busy]
  simp

theorem At.job_step (hw : At m h t q w) (i : InterleavedIn) : (w.step i).job = some (m, h) := by
  show (if w.starts i then _ else w.job) = _
  rw [hw.not_starts, hw.job]
  rfl

theorem At.issued_step (hw : At m h t q w) (i : InterleavedIn) :
    (w.step i).issued = w.issued ++ (w.core.accepted i).toList := by
  show (if w.starts i then _ else _) = _
  rw [hw.not_starts]
  rfl

/-- A request is accepted when it is offered. -/
theorem At.accepted (hw : At m h t q w) (i : InterleavedIn) :
    w.core.accepted i = if q = .offer ∧ i.schedReqReady = true then some (schedRequest m t) else none := by
  rw [InterleavedCore.accepted, hw.regs.valid]
  by_cases hq : q = .offer
  · subst hq
    rw [(hw.regs.late (.inl rfl)).2]
    cases i.schedReqReady <;> rfl
  · have hne : (q == Stage.offer) = false := by simpa using hq
    simp [hne, hq]

/-- A response is taken while one is awaited. -/
theorem At.taken (hw : At m h t q w) (i : InterleavedIn) : w.core.taken i =
    if (q = .offer ∨ q = .await) ∧ i.schedRspValid = true then some i.schedRsp else none := by
  have hready : w.core.schedRspReadyO = (q == .offer || q == .await) := by
    rw [InterleavedCore.schedRspReadyO, hw.regs.busy, hw.regs.phase]
    cases q <;> rfl
  rw [InterleavedCore.taken, hready]
  cases q <;> cases i.schedRspValid <;> rfl

/-- Without a request on its way the logs stay as they are. -/
theorem At.logs (hw : At m h t q w) (hq : q ≠ .offer) (hq' : q ≠ .await) (i : InterleavedIn) :
    (w.step i).pending = [] ∧ (w.step i).issued = w.issued := by
  have hacc : w.core.accepted i = none := by rw [hw.accepted, if_neg fun hc => hq hc.1]
  have htaken : w.core.taken i = none := by rw [hw.taken, if_neg fun hc => hc.1.elim hq hq']
  refine ⟨?_, ?_⟩
  · simp only [Watched.step, htaken, Watched.owed, hacc, hw.pending, if_neg hq']
    rfl
  · rw [hw.issued_step, hacc]
    exact List.append_nil _

/-- What the service owes while a response is awaited. -/
theorem At.owed (hw : At m h t q w) (hq : q = .offer ∨ q = .await) (i : InterleavedIn) :
    w.owed i = if q = .offer ∧ i.schedReqReady = false then [] else [schedRequest m t] := by
  rw [Watched.owed, hw.pending, hw.accepted]
  rcases hq with rfl | rfl <;> cases i.schedReqReady <;> rfl

/-- A response that matches is the one that is owed. -/
theorem At.matches (hw : At m h t q w) (hq : q = .offer ∨ q = .await) (ht : t < 64) (ha : w.Answers i)
    (hm : w.core.rspMatches i = true) :
    i.schedRsp = (schedRequest m t).response ∧ w.owed i = [schedRequest m t] ∧ (q = .offer → i.schedReqReady = true) := by
  obtain ⟨hvalid, hengine, hround⟩ := (hw.regs.rspMatches_iff hq ht).1 hm
  have howed := hw.owed hq i
  obtain ⟨r, hr, hrsp⟩ | hf | hf := ha i.schedRsp (by rw [hw.taken, if_pos ⟨hq, hvalid⟩])
  · rw [howed] at hr ⊢
    by_cases hoff : q = .offer ∧ i.schedReqReady = false
    · rw [if_pos hoff] at hr
      cases hr
    · rw [if_neg hoff] at hr ⊢
      obtain rfl := List.mem_singleton.1 hr
      exact ⟨hrsp.symm, rfl, fun h => eq_true_of_ne_false fun hn => hoff ⟨h, hn⟩⟩
  · exact absurd hengine hf
  · exact absurd hround hf

/-- A response that does not match answers nothing. -/
theorem At.foreign (hw : At m h t q w) (hq : q = .offer ∨ q = .await) (ht : t < 64)
    (hm : w.core.rspMatches i = false) : (w.step i).pending = w.owed i := by
  have hne : i.schedRspValid = true → (schedRequest m t).response ≠ i.schedRsp := by
    intro hvalid heq
    have hmatch := (hw.regs.rspMatches_iff hq ht).2 ⟨hvalid, by rw [← heq, (hw.regs.late hq).2]; rfl,
      by rw [← heq, (hw.regs.late hq).2]; rfl⟩
    rw [hm] at hmatch
    cases hmatch
  show (match w.core.taken i with | none => w.owed i | some rsp => _) = _
  rw [hw.taken]
  by_cases hv : i.schedRspValid = true
  · rw [if_pos ⟨hq, hv⟩]
    refine List.eraseP_of_forall_not fun r hr => ?_
    rw [hw.owed hq] at hr
    split at hr
    · cases hr
    · obtain rfl := List.mem_singleton.1 hr
      simpa using hne hv
  · rw [if_neg fun hc => hv hc.2]

/-! ## Steps -/

theorem At.step_launch (hw : At m h t .launch w) (ht : t < 64) (i : InterleavedIn) :
    At m h t (if t < 16 then .calculate else .offer) (w.step i) := by
  obtain ⟨hpend, hissued⟩ := hw.logs (by decide) (by decide) i
  rw [hw.issued] at hissued
  by_cases h16 : t < 16
  · rw [if_pos h16]
    refine ⟨hw.regs.step_early h16, hw.job_step i, hpend, hissued.trans ?_⟩
    rw [schedRequests_early (by simp; omega), schedRequests_early (by simp; omega)]
  · rw [if_neg h16]
    exact ⟨hw.regs.step_late (by omega) ht, hw.job_step i, hpend, hissued⟩

/-- **While a response is awaited**, delays and foreign responses change nothing. -/
theorem At.step_wait (hw : At m h t q w) (hq : q = .offer ∨ q = .await) (ht : t < 64) (ha : w.Answers i) :
    At m h t (if w.core.rspMatches i then .calculate else if q = .offer ∧ i.schedReqReady = false then .offer else .await)
      (w.step i) := by
  have h16 : 16 ≤ t := (hw.regs.late hq).1
  have hissued : (w.step i).issued =
      schedRequests m (if q = .offer ∧ i.schedReqReady = false then t else t + 1) := by
    rw [hw.issued_step, hw.issued, hw.accepted]
    rcases hq with rfl | rfl <;> cases i.schedReqReady <;> simp [schedRequests_succ h16]
  cases hm : w.core.rspMatches i with
  | true =>
    obtain ⟨hrsp, howed, hready⟩ := hw.matches hq ht ha hm
    have hword : i.schedRsp.wNew = sched m t := by rw [hrsp, schedRequest_response h16]
    have hoff : ¬ (q = .offer ∧ i.schedReqReady = false) := fun hc => by
      rw [hready hc.1] at hc
      cases hc.2
    have hvalid := ((hw.regs.rspMatches_iff hq ht).1 hm).1
    rw [if_neg hoff] at hissued
    refine ⟨hw.regs.step_matches hq hm hword hready, hw.job_step i, ?_, hissued⟩
    show (match w.core.taken i with | none => w.owed i | some rsp => _) = _
    rw [hw.taken, if_pos ⟨hq, hvalid⟩, howed]
    simp [hrsp]
  | false =>
    have hpend := hw.foreign hq ht hm
    rw [hw.owed hq] at hpend
    refine ⟨hw.regs.step_foreign hq hm, hw.job_step i, hpend.trans ?_, hissued.trans ?_⟩
    · by_cases hoff : q = .offer ∧ i.schedReqReady = false
      · simp [hoff]
      · simp [hoff]
    · by_cases hoff : q = .offer ∧ i.schedReqReady = false
      · simp [hoff]
      · simp [hoff]

theorem At.step_calc (hw : At m h t .calculate w) (i : InterleavedIn) : At m h t .update (w.step i) := by
  obtain ⟨hpend, hissued⟩ := hw.logs (by decide) (by decide) i
  exact ⟨hw.regs.step_calc, hw.job_step i, hpend, hissued.trans hw.issued⟩

theorem At.step_round (hw : At m h t .update w) (ht : t < 63) (i : InterleavedIn) :
    At m h (t + 1) .launch (w.step i) := by
  obtain ⟨hpend, hissued⟩ := hw.logs (by decide) (by decide) i
  exact ⟨hw.regs.step_round ht, hw.job_step i, hpend, hissued.trans hw.issued⟩

/-- The compression of `m` from `h` has ended. -/
structure Finished (m : Words 16) (h : Words 8) (w : Watched) : Prop where
  core : InterleavedDone (Sha256.compress Sw.roundConst h m) w.core
  job : w.job = some (m, h)
  pending : w.pending = []
  issued : w.issued = schedRequests m 64

theorem At.step_last (hw : At m h 63 .update w) (i : InterleavedIn) : Finished m h (w.step i) := by
  obtain ⟨hpend, hissued⟩ := hw.logs (by decide) (by decide) i
  exact ⟨hw.regs.step_last, hw.job_step i, hpend, hissued.trans hw.issued⟩

end Logs

end Vek280Miner.Rtl
