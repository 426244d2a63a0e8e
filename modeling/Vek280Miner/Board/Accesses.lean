import Vek280Miner.Board.MinerTask

/-!
# What an access changes

An access of the worker leads from one place to another, with what it has found (`Leads`), and changes the variables of
the service in a few places only (`serve`). Together these say all that `Board.advance` does; what holds of the worker
and what stays as it is follow from them, group by group. The actions of the board are told apart in `Acts`.
-/

namespace Vek280Miner

open Rtl Sw

variable {α : Type} {host : HostCfg} {cfg : MinerCfg}

/-- The writes of a loop of `miner_task` that programs and starts a job. -/
def JobRequest.writes {K : Nat} (request : JobRequest) : List (RegWrite K) :=
  minerProgramJob request.job.midstate request.job.headerTail request.job.target ++
    minerStartRange request.job.nonceStart request.job.nonceCount

namespace Pc

variable {K : Nat}

/-- The places where a request, the active job or an event moves. -/
def movesMessage : Pc α K → Bool
  | .receive | .takeJob _ | .program _ [] | .sendEvent _ _ => true
  | _ => false

/-- The places where a range is started or finished. -/
def movesRange : Pc α K → Bool
  | .finishRequest _ _ | .program _ [] | .finishIdle _ => true
  | _ => false

/-- The places where the worker clears the flag of the handler, or enables the interrupt. -/
def movesFlag : Pc α K → Bool
  | .init [] | .clear [] | .unmask _ _ => true
  | _ => false

end Pc

namespace Board

variable {s : Board α host cfg} {view : α → Word} {now : Word}

/-! ## Where it leads -/

/-- From one place to the next, with what the access has found. -/
inductive Leads (view : α → Word) (s : Board α host cfg) : Pc α host.instances → Pc α host.instances → Prop
  | initDone : Leads view s (.init []) (.unmask true 0)
  | initWrite (w : RegWrite host.instances) (l : List (RegWrite host.instances)) :
      Leads view s (.init (w :: l)) (.init l)
  | unmaskRead (boot : Bool) (inst : Fin host.instances) :
      Leads view s (.unmask boot inst) (.unmaskWrite boot inst (s.read view inst minerRegIrqControl))
  | unmaskDone (boot : Bool) (inst : Nat) : host.instances ≤ inst → Leads view s (.unmask boot inst) .receive
  | unmaskWrite (boot : Bool) (inst : Fin host.instances) (control : Word) :
      Leads view s (.unmaskWrite boot inst control) (.unmask boot (inst + 1))
  | preempt (request : JobRequest) : s.gJobQueue = some request → s.gRangeActive = true →
      Leads view s .receive (.finishRequest request .preempted)
  | ask (request : JobRequest) : s.gJobQueue = some request → s.gRangeActive = true →
      Leads view s .receive (.requestStatus request 0 .init)
  | take (request : JobRequest) : s.gJobQueue = some request → s.gRangeActive = false →
      Leads view s .receive (.takeJob request)
  | poll : s.gJobQueue = none → Leads view s .receive (.idleStatus 0 .init)
  | wait : s.gJobQueue = none → Leads view s .receive .takeSem
  | requestRead (request : JobRequest) (inst : Fin host.instances) (acc : StatusAcc) :
      Leads view s (.requestStatus request inst acc)
        (.requestStatus request (inst + 1) (acc.next (s.read view inst minerRegStatus)))
  | requestRuns (request : JobRequest) (inst : Nat) (acc : StatusAcc) :
      Leads view s (.requestStatus request inst acc) (.finishRequest request .preempted)
  | requestIdle (request : JobRequest) (inst : Nat) (acc : StatusAcc) : host.instances ≤ inst →
      acc.result &&& minerStatusRunning = 0 → Leads view s (.requestStatus request inst acc) (.finishRequest request .complete)
  | finishRequest (request : JobRequest) (reason : RangeReason) :
      Leads view s (.finishRequest request reason) (.takeJob request)
  | takeJob (request : JobRequest) : Leads view s (.takeJob request) (.program request request.writes)
  | programDone (request : JobRequest) : Leads view s (.program request []) .takeSem
  | programWrite (request : JobRequest) (w : RegWrite host.instances) (l : List (RegWrite host.instances)) :
      Leads view s (.program request (w :: l)) (.program request l)
  | idleRead (inst : Fin host.instances) (acc : StatusAcc) :
      Leads view s (.idleStatus inst acc) (.idleStatus (inst + 1) (acc.next (s.read view inst minerRegStatus)))
  | idleDone (inst : Nat) (acc : StatusAcc) : Leads view s (.idleStatus inst acc) .idleReason
  | idleRuns (inst : Nat) (acc : StatusAcc) : Leads view s (.idleStatus inst acc) .takeSem
  | idleReason : Leads view s .idleReason (.finishIdle (if s.gStopRequested then .stopped else .complete))
  | finishIdle (reason : RangeReason) : Leads view s (.finishIdle reason) .takeSem
  | semTaken : s.gIrqSem = true → Leads view s .takeSem (.resultStatus 0)
  | semTimeout : Leads view s .takeSem .receive
  | noResult (inst : Fin host.instances) : Leads view s (.resultStatus inst) (.resultStatus (inst + 1))
  | result (inst : Fin host.instances) : s.read view inst minerRegResultStatus &&& minerResultStatusResult ≠ 0 →
      Leads view s (.resultStatus inst) (.resultNonce inst (s.read view inst minerRegResultStatus))
  | drained (inst : Nat) : Leads view s (.resultStatus inst) .testMasked
  | resultNonce (inst : Fin host.instances) (status : Word) :
      Leads view s (.resultNonce inst status)
        (.resultEngine inst status (s.read view inst minerRegResultNonce) (s.hw inst).resultNonceQ)
  | resultEngine (inst : Fin host.instances) (status nonce : Word) (tag : α) :
      Leads view s (.resultEngine inst status nonce tag)
        (.resultClear inst ⟨nonce, s.read view inst minerRegResultEngine + BitVec.ofNat 32 inst * host.enginesPerInstance,
          status⟩ tag)
  | resultClear (inst : Fin host.instances) (result : MinerResult) (tag : α) :
      Leads view s (.resultClear inst result tag) (.sendEvent result tag)
  | sendEvent (result : MinerResult) (tag : α) : Leads view s (.sendEvent result tag) (.resultStatus 0)
  | masked : Leads view s .testMasked (.clear minerClear)
  | unmasked : s.gIrqMasked = false → Leads view s .testMasked .receive
  | clearDone : Leads view s (.clear []) (.unmask false 0)
  | clearWrite (w : RegWrite host.instances) (l : List (RegWrite host.instances)) :
      Leads view s (.clear (w :: l)) (.clear l)

/-- **Where an access leads.** -/
theorem leads_advance (s : Board α host cfg) (view : α → Word) (now : Word) :
    s.Leads view s.pc (s.advance view now).pc := by
  cases hpc : s.pc with
  | init l =>
    simp only [advance, hpc]
    cases l with
    | nil => exact .initDone
    | cons w l => exact .initWrite w l
  | unmask boot inst =>
    simp only [advance, hpc]
    split
    · rename_i h
      exact .unmaskRead boot ⟨inst, h⟩
    · exact .unmaskDone boot inst (Nat.le_of_not_lt ‹_›)
  | unmaskWrite boot inst control =>
    simp only [advance, hpc]
    exact .unmaskWrite boot inst control
  | receive =>
    cases hq : s.gJobQueue with
    | none =>
      simp only [advance, hpc, hq]
      split
      · exact .poll hq
      · exact .wait hq
    | some request =>
      simp only [advance, hpc, hq]
      cases ha : s.gRangeActive with
      | true =>
        rw [if_pos rfl]
        split
        · exact .preempt request hq ha
        · exact .ask request hq ha
      | false =>
        rw [if_neg Bool.false_ne_true]
        exact .take request hq ha
  | requestStatus request inst acc =>
    simp only [advance, hpc]
    split
    · rename_i h
      exact .requestRead request ⟨inst, h⟩ acc
    · rename_i h
      by_cases hrun : acc.result &&& minerStatusRunning = 0
      · rw [if_neg (not_not.2 hrun)]
        exact .requestIdle request inst acc (Nat.le_of_not_lt h) hrun
      · rw [if_pos hrun]
        exact .requestRuns request inst acc
  | finishRequest request reason =>
    simp only [advance, hpc]
    exact .finishRequest request reason
  | takeJob request =>
    simp only [advance, hpc]
    exact .takeJob request
  | program request l =>
    simp only [advance, hpc]
    cases l with
    | nil => exact .programDone request
    | cons w l => exact .programWrite request w l
  | idleStatus inst acc =>
    simp only [advance, hpc]
    split
    · rename_i h
      exact .idleRead ⟨inst, h⟩ acc
    · split
      · exact .idleDone inst acc
      · exact .idleRuns inst acc
  | idleReason =>
    simp only [advance, hpc]
    exact .idleReason
  | finishIdle reason =>
    simp only [advance, hpc]
    exact .finishIdle reason
  | takeSem =>
    simp only [advance, hpc]
    split
    · exact .semTaken ‹_›
    · exact .semTimeout
  | resultStatus inst =>
    simp only [advance, hpc]
    split
    · rename_i h
      split
      · exact .noResult ⟨inst, h⟩
      · exact .result ⟨inst, h⟩ ‹_›
    · exact .drained inst
  | resultNonce inst status =>
    simp only [advance, hpc]
    exact .resultNonce inst status
  | resultEngine inst status nonce tag =>
    simp only [advance, hpc]
    exact .resultEngine inst status nonce tag
  | resultClear inst result tag =>
    simp only [advance, hpc]
    exact .resultClear inst result tag
  | sendEvent result tag =>
    simp only [advance, hpc]
    exact .sendEvent result tag
  | testMasked =>
    simp only [advance, hpc]
    split
    · exact .masked
    · exact .unmasked (eq_false_of_ne_true ‹_›)
  | clear l =>
    simp only [advance, hpc]
    cases l with
    | nil => exact .clearDone
    | cons w l => exact .clearWrite w l

/-! ## What it changes -/

/-- The variables after the access; the worker stays where it is. -/
def serve (now : Word) (s : Board α host cfg) : Board α host cfg :=
  match s.pc with
  | .init [] | .clear [] => { s with gIrqMasked := false }
  | .unmask boot inst => if inst < host.instances then s else { s with irqEnabled := s.irqEnabled || boot }
  | .receive => { s with gJobQueue := none }
  | .finishRequest request reason => (s.finishRange now reason).countCleanJob request reason
  | .takeJob request => { s with gActiveJob := request.job, gHaveActiveJob := true }
  | .program request [] => s.rangeStarted now request.job
  | .finishIdle reason => s.finishRange now reason
  | .takeSem => { s with gIrqSem := false }
  | .sendEvent result tag => s.sendResult now result tag
  | _ => s

/-- **What an access changes.** -/
theorem advance_eq (s : Board α host cfg) (view : α → Word) (now : Word) :
    s.advance view now = { s.serve now with pc := (s.advance view now).pc } := by
  cases hpc : s.pc with
  | init l | program _ l | clear l => cases l <;> simp only [advance, serve, hpc]
  | unmask boot inst =>
    simp only [advance, serve, hpc]
    split <;> rfl
  | receive =>
    cases hq : s.gJobQueue <;> simp only [advance, serve, hpc, hq] <;> repeat' split
    all_goals rfl
  | takeSem =>
    cases hsem : s.gIrqSem <;> simp only [advance, serve, hpc, hsem] <;> rfl
  | requestStatus | idleStatus | resultStatus | testMasked =>
    simp only [advance, serve, hpc]
    repeat' split
    all_goals rfl
  | _ => simp only [advance, serve, hpc]

/-- Neither the instances nor the handler. -/
theorem frame_advance (s : Board α host cfg) (view : α → Word) (now : Word) :
    (s.advance view now).hw = s.hw ∧ (s.advance view now).isr = s.isr := by
  rw [advance_eq]
  unfold serve finishRange countCleanJob rangeStarted sendResult
  dsimp only
  repeat' split
  all_goals exact ⟨rfl, rfl⟩

/-- The statistics of the messages. -/
def counters (s : Board α host cfg) : Nat × Nat × Nat × Nat :=
  (s.gStats.jobsQueued, s.gStats.jobsStarted, s.gStats.resultCount, s.gStats.resultQueueDrops)

/-- The statistics of the ranges. -/
def rangeStats (s : Board α host cfg) : (Nat × Nat × Nat × Nat × Nat) × Nat × Nat × Word :=
  ((s.gStats.jobsStarted, s.gStats.rangesCompleted, s.gStats.rangesPreempted, s.gStats.rangesPreemptedCleanJob,
    s.gStats.rangesStopped), s.gStats.nonceCandidatesIssued, s.gStats.nonceCandidatesCompletedEstimate,
    s.gStats.activeNonceCount)

/-- The mailbox, the active job, the events and their statistics are the same. -/
structure SameMessages (s s' : Board α host cfg) : Prop where
  mailbox : s'.gJobQueue = s.gJobQueue
  active : s'.gActiveJob = s.gActiveJob ∧ s'.gHaveActiveJob = s.gHaveActiveJob
  events : s'.gResultQueue = s.gResultQueue ∧ s'.sent = s.sent
  counters : s'.counters = s.counters

theorem SameMessages.refl (s : Board α host cfg) : SameMessages s s := ⟨rfl, ⟨rfl, rfl⟩, ⟨rfl, rfl⟩, rfl⟩

theorem messages_advance (s : Board α host cfg) (view : α → Word) (now : Word) (h : s.pc.movesMessage = false) :
    SameMessages s (s.advance view now) := by
  rw [advance_eq]
  unfold serve finishRange countCleanJob
  dsimp only
  repeat' split
  all_goals first
    | exact ⟨rfl, ⟨rfl, rfl⟩, ⟨rfl, rfl⟩, rfl⟩
    | simp [Pc.movesMessage, *] at h

theorem ranges_advance (s : Board α host cfg) (view : α → Word) (now : Word) (h : s.pc.movesRange = false) :
    (s.advance view now).gRangeActive = s.gRangeActive ∧ (s.advance view now).gStopRequested = s.gStopRequested ∧
      (s.advance view now).rangeStats = s.rangeStats := by
  rw [advance_eq]
  unfold serve sendResult
  dsimp only
  repeat' split
  all_goals first
    | exact ⟨rfl, rfl, rfl⟩
    | simp [Pc.movesRange, *] at h

theorem flags_advance (s : Board α host cfg) (view : α → Word) (now : Word) (h : s.pc.movesFlag = false) :
    (s.advance view now).gIrqMasked = s.gIrqMasked ∧ (s.advance view now).irqEnabled = s.irqEnabled := by
  rw [advance_eq]
  unfold serve finishRange countCleanJob rangeStarted sendResult
  dsimp only
  repeat' split
  all_goals first
    | exact ⟨rfl, rfl⟩
    | simp [Pc.movesFlag, *] at h

theorem sem_advance (s : Board α host cfg) (view : α → Word) (now : Word) (h : s.pc ≠ .takeSem) :
    (s.advance view now).gIrqSem = s.gIrqSem := by
  rw [advance_eq]
  unfold serve finishRange countCleanJob rangeStarted sendResult
  dsimp only
  repeat' split
  all_goals first
    | rfl
    | exact absurd ‹_› h

/-- The handler counts the interrupts. -/
theorem irqCount_advance (s : Board α host cfg) (view : α → Word) (now : Word) :
    (s.advance view now).gStats.irqCount = s.gStats.irqCount := by
  rw [advance_eq]
  unfold serve finishRange countCleanJob rangeStarted sendResult
  dsimp only
  repeat' split
  all_goals rfl

/-! ## The actions -/

/-- What the handler does beside its writes. -/
theorem frame_handle (s : Board α host cfg) (view : α → Word) (i : IsrPc host.instances) :
    (s.handle view i).hw = s.hw ∧ (s.handle view i).pc = s.pc ∧ SameMessages s (s.handle view i) ∧
      (s.handle view i).gRangeActive = s.gRangeActive ∧ (s.handle view i).gStopRequested = s.gStopRequested ∧
      (s.handle view i).rangeStats = s.rangeStats := by
  unfold handle
  repeat' split
  all_goals exact ⟨rfl, rfl, ⟨rfl, ⟨rfl, rfl⟩, ⟨rfl, rfl⟩, rfl⟩, rfl, rfl, rfl⟩

variable [Inhabited α]

/-- A write concerns the instances only. -/
theorem apply_eq (s : Board α host cfg) (obs : Engine → α) (w : Option (RegWrite host.instances)) :
    s.apply obs w = { s with hw := (s.apply obs w).hw } := by
  cases w <;> rfl

theorem frame_apply (s : Board α host cfg) (obs : Engine → α) (w : Option (RegWrite host.instances)) :
    (s.apply obs w).pc = s.pc ∧ (s.apply obs w).isr = s.isr := by
  rw [apply_eq]
  exact ⟨rfl, rfl⟩

/-- What an action does; the last one is one that is not possible. -/
inductive Acts (obs : Engine → α) (view : α → Word) (s : Board α host cfg) :
    Action host.instances → Board α host cfg → Prop
  | edge : Acts obs view s .edge (s.clockEdge obs none)
  | worker (now : Word) : s.isr = none → Acts obs view s (.worker now) ((s.advance view now).apply obs s.pc.write)
  | interrupt : s.isr = none → s.irqEnabled = true → s.irqLine = true →
      Acts obs view s .interrupt { s with isr := some .enter }
  | handler (i : IsrPc host.instances) : s.isr = some i → Acts obs view s .handler ((s.handle view i).apply obs i.write)
  | submitJob (job : MinerJob) (cleanJob : Bool) : s.isr = none → Acts obs view s (.submitJob job cleanJob)
      { s with gJobQueue := some ⟨job, cleanJob⟩, gStats := { s.gStats with jobsQueued := s.gStats.jobsQueued + 1 } }
  | takeResult : s.isr = none → Acts obs view s .takeResult { s with gResultQueue := s.gResultQueue.tail }
  | requestStop : s.isr = none → Acts obs view s .requestStop { s with gStopRequested := true }
  | service (inst : Fin host.instances) (w : ServiceWrite) : s.isr = none →
      Acts obs view s (.service inst w) (s.apply obs (some (w.regWrite inst)))
  | none (a : Action host.instances) : a = .interrupt ∨ a = .handler ∨ s.isr ≠ none → Acts obs view s a s

theorem acts_step (s : Board α host cfg) (obs : Engine → α) (view : α → Word) (a : Action host.instances) :
    Acts obs view s a (s.step obs view a) := by
  unfold step
  split
  · exact .edge
  · rename_i hisr
    split
    · rename_i h
      rw [Bool.and_eq_true] at h
      exact .interrupt hisr h.1 h.2
    · exact .none _ (.inl rfl)
  · exact .handler _ ‹_›
  · exact .worker _ ‹_›
  · exact .submitJob _ _ ‹_›
  · exact .takeResult ‹_›
  · exact .requestStop ‹_›
  · exact .service _ _ ‹_›
  · rename_i a _ _ hedge _ _ hworker hsubmit htake hstop hservice
    refine .none a ?_
    by_contra hnot
    simp only [not_or, not_not] at hnot
    obtain ⟨hinterrupt, hhandler, hisr⟩ := hnot
    cases a with
    | edge => exact hedge rfl
    | worker now => exact hworker now rfl hisr
    | interrupt => exact hinterrupt rfl
    | handler => exact hhandler rfl
    | submitJob job cleanJob => exact hsubmit job cleanJob rfl hisr
    | takeResult => exact htake rfl hisr
    | requestStop => exact hstop rfl hisr
    | service inst w => exact hservice inst w rfl hisr

end Board

end Vek280Miner
