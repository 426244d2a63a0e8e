import Vek280Miner.Software.MinerRegs

/-!
# The worker task and the miner instances (`miner_service.c`)

The board is the miner instances together with `miner_task`, its interrupt handler, and what the other tasks do to
them: they submit jobs, take results, and stop or clear the instances. An action of the board is one clock edge, or one
access of a task to a register or to a variable that another party uses. Register writes complete before the next access
is made, so each of them is applied at an edge of its own, with any number of edges between two accesses. The handler
runs to its end before a task goes on.

What travels with a result from the engine to the event is a type parameter `α`, as in the result path: `obs` is what
is recorded of the engine that reports and `view` the nonce in it.

`g_last_result`, its lock and the LEDs are left out: nothing here reads them.
-/

namespace Vek280Miner

open Rtl Sw

/-! ## Data -/

structure MinerResult where
  nonce : Word
  engine : Word
  status : Word
deriving DecidableEq

/-- `miner_result_event_t`; `tag` is what the result path carried. -/
structure ResultEvent (α : Type) where
  result : MinerResult
  job : MinerJob
  tag : α

structure JobRequest where
  job : MinerJob
  cleanJob : Bool
deriving DecidableEq

inductive RangeReason where
  | complete
  | preempted
  | stopped
deriving DecidableEq

/-- `miner_service_stats_t`. Its counters wrap, at 2^64 those of the candidates and at 2^32 the others; here they are
unbounded, and those of the source are their remainders. -/
structure MinerServiceStats where
  jobsQueued : Nat
  jobsStarted : Nat
  irqCount : Nat
  resultCount : Nat
  resultQueueDrops : Nat
  nonceCandidatesIssued : Nat
  activeJobTick : Word
  lastResultTick : Word
  activeNonceStart : Word
  activeNonceCount : Word
  rangesCompleted : Nat
  rangesPreempted : Nat
  rangesPreemptedCleanJob : Nat
  rangesStopped : Nat
  nonceCandidatesCompletedEstimate : Nat
  lastRangeElapsedTicks : Word
  lastRangeReason : Option RangeReason

/-- The job with every byte zero. -/
def zeroJob : MinerJob := ⟨0, 0, 0, 0, 0, ⟨[], by decide⟩, ⟨[], by decide⟩, ⟨[], by decide⟩⟩

/-- Where `miner_task` stands. A loop over the instances stands at the next one, past the last one when it is over. -/
inductive Pc (α : Type) (K : Nat) where
  /-- `miner_init`. -/
  | init (l : List (RegWrite K))
  /-- `miner_irq_unmask_all`, before the main loop or in it. -/
  | unmask (boot : Bool) (inst : Nat)
  | unmaskWrite (boot : Bool) (inst : Fin K) (control : Word)
  /-- The head of the main loop. -/
  | receive
  | requestStatus (request : JobRequest) (inst : Nat) (acc : StatusAcc)
  | finishRequest (request : JobRequest) (reason : RangeReason)
  | takeJob (request : JobRequest)
  /-- `miner_program_job` and `miner_start_range`. -/
  | program (request : JobRequest) (l : List (RegWrite K))
  | idleStatus (inst : Nat) (acc : StatusAcc)
  | idleReason
  | finishIdle (reason : RangeReason)
  | takeSem
  /-- `miner_read_result`. -/
  | resultStatus (inst : Nat)
  | resultNonce (inst : Fin K) (status : Word)
  | resultEngine (inst : Fin K) (status nonce : Word) (tag : α)
  | resultClear (inst : Fin K) (result : MinerResult) (tag : α)
  | sendEvent (result : MinerResult) (tag : α)
  | testMasked
  /-- `miner_clear`. -/
  | clear (l : List (RegWrite K))
deriving DecidableEq

/-- Where `miner_irq_handler` stands. -/
inductive IsrPc (K : Nat) where
  | enter
  | mask (inst : Nat)
  | maskWrite (inst : Fin K) (control : Word)
  | give
deriving DecidableEq

/-- The instances, the variables of the service, and the two program counters. -/
structure Board (α : Type) (host : HostCfg) (cfg : MinerCfg) where
  hw : Fin host.instances → MinerCore α cfg
  gJobQueue : Option JobRequest
  gResultQueue : List (ResultEvent α)
  gIrqSem : Bool
  gActiveJob : MinerJob
  gHaveActiveJob : Bool
  gStats : MinerServiceStats
  gRangeActive : Bool
  gStopRequested : Bool
  gIrqMasked : Bool
  irqEnabled : Bool
  pc : Pc α host.instances
  isr : Option (IsrPc host.instances)
  /-- All events put on `g_result_queue` so far. -/
  sent : List (ResultEvent α)

/-- A register write of another task. -/
inductive ServiceWrite where
  | stop
  | clear
  | clearStatus

/-- What can happen next; `now` is the tick count a task would read. -/
inductive Action (K : Nat) where
  | edge
  | worker (now : Word)
  | interrupt
  | handler
  | submitJob (job : MinerJob) (cleanJob : Bool)
  | takeResult
  | requestStop
  | service (inst : Fin K) (w : ServiceWrite)

/-- The writes of `miner_stop` and `miner_clear`, as `miner_service_stop_scan` and `miner_service_clear` make them. -/
def ServiceWrite.regWrite {K : Nat} (inst : Fin K) : ServiceWrite → RegWrite K
  | .stop => ⟨inst, minerRegControl, minerControlStop⟩
  | .clear => ⟨inst, minerRegControl, minerControlClear⟩
  | .clearStatus => ⟨inst, minerRegResultStatus, minerResultStatusResult ||| minerResultStatusOverflow⟩

/-- The register write that an access makes. -/
def Pc.write {α : Type} {K : Nat} : Pc α K → Option (RegWrite K)
  | .init l | .program _ l | .clear l => l.head?
  | .unmaskWrite _ inst control => some ⟨inst, minerRegIrqControl, control &&& ~~~minerIrqControlMask⟩
  | .resultClear inst _ _ => some ⟨inst, minerRegResultStatus, minerResultStatusResult⟩
  | _ => none

def IsrPc.write {K : Nat} : IsrPc K → Option (RegWrite K)
  | .maskWrite inst control => some ⟨inst, minerRegIrqControl, control ||| minerIrqControlMask⟩
  | _ => none

namespace Board

variable {α : Type} [Inhabited α] {host : HostCfg} {cfg : MinerCfg}

/-! ## Hardware -/

/-- One clock edge of all instances, with the write applied at it. -/
def clockEdge (obs : Engine → α) (w : Option (RegWrite host.instances)) (s : Board α host cfg) : Board α host cfg :=
  { s with hw := fun k => (s.hw k).step obs ((w.filter (·.inst = k)).map RegWrite.write) }

/-- `miner_read_reg_instance`. -/
def read (view : α → Word) (s : Board α host cfg) (inst : Fin host.instances) (offset : BitVec 12) : Word :=
  readReg view (s.hw inst) offset

/-- The interrupt line, the instances' outputs joined. -/
def irqLine (s : Board α host cfg) : Bool := decide (∃ k, (s.hw k).irqO = true)

/-! ## `miner_task` -/

/-- `miner_finish_range`. -/
def finishRange (now : Word) (reason : RangeReason) (s : Board α host cfg) : Board α host cfg :=
  if !s.gRangeActive then s
  else
    let elapsedTicks := now - s.gStats.activeJobTick
    let estimated := elapsedTicks.toNat * host.hashrateHs % 2 ^ 64 / host.tickRateHz
    let estimated := if estimated > s.gStats.activeNonceCount.toNat then s.gStats.activeNonceCount.toNat else estimated
    let estimated := if reason = .complete then s.gStats.activeNonceCount.toNat else estimated
    { s with
      gStats := { s.gStats with
        rangesCompleted := s.gStats.rangesCompleted + if reason = .complete then 1 else 0
        rangesPreempted := s.gStats.rangesPreempted + if reason = .preempted then 1 else 0
        rangesStopped := s.gStats.rangesStopped + if reason = .stopped then 1 else 0
        nonceCandidatesCompletedEstimate := s.gStats.nonceCandidatesCompletedEstimate + estimated
        lastRangeElapsedTicks := elapsedTicks
        lastRangeReason := some reason }
      gRangeActive := false
      gStopRequested := false }

/-- The counter of ranges that a clean job preempted. -/
def countCleanJob (request : JobRequest) (reason : RangeReason) (s : Board α host cfg) : Board α host cfg :=
  if reason = .preempted ∧ request.cleanJob then
    { s with gStats := { s.gStats with rangesPreemptedCleanJob := s.gStats.rangesPreemptedCleanJob + 1 } }
  else s

/-- The statements behind `miner_start_range`. -/
def rangeStarted (now : Word) (job : MinerJob) (s : Board α host cfg) : Board α host cfg :=
  { s with
    gStats := { s.gStats with
      jobsStarted := s.gStats.jobsStarted + 1
      nonceCandidatesIssued := s.gStats.nonceCandidatesIssued + job.nonceCount.toNat
      activeNonceStart := job.nonceStart
      activeNonceCount := job.nonceCount
      activeJobTick := now }
    gRangeActive := true
    gStopRequested := false }

/-- The event for a result, sent unless the queue of eight is full. -/
def sendResult (now : Word) (result : MinerResult) (tag : α) (s : Board α host cfg) : Board α host cfg :=
  let event : ResultEvent α := ⟨result, if s.gHaveActiveJob then s.gActiveJob else zeroJob, tag⟩
  let s := { s with gStats := { s.gStats with resultCount := s.gStats.resultCount + 1, lastResultTick := now } }
  if s.gResultQueue.length < 8 then { s with gResultQueue := s.gResultQueue ++ [event], sent := s.sent ++ [event] }
  else { s with gStats := { s.gStats with resultQueueDrops := s.gStats.resultQueueDrops + 1 } }

/-- What an access changes in the service; the write it makes is applied beside it. A call that may wait takes place
when what it waits for is there, or times out. -/
def advance (view : α → Word) (now : Word) (s : Board α host cfg) : Board α host cfg :=
  match s.pc with
  | .init [] => { s with gIrqMasked := false, pc := .unmask true 0 }
  | .init (_ :: l) => { s with pc := .init l }
  | .unmask boot inst =>
    if h : inst < host.instances then
      { s with pc := .unmaskWrite boot ⟨inst, h⟩ (s.read view ⟨inst, h⟩ minerRegIrqControl) }
    else { s with irqEnabled := s.irqEnabled || boot, pc := .receive }
  | .unmaskWrite boot inst _ => { s with pc := .unmask boot (inst + 1) }
  | .receive =>
    match s.gJobQueue with
    | some request =>
      let s := { s with gJobQueue := none }
      if s.gRangeActive then
        if request.cleanJob then { s with pc := .finishRequest request .preempted }
        else { s with pc := .requestStatus request 0 .init }
      else { s with pc := .takeJob request }
    | none => if s.gRangeActive then { s with pc := .idleStatus 0 .init } else { s with pc := .takeSem }
  | .requestStatus request inst acc =>
    if h : inst < host.instances then
      { s with pc := .requestStatus request (inst + 1) (acc.next (s.read view ⟨inst, h⟩ minerRegStatus)) }
    else
      let reason := if acc.result &&& minerStatusRunning ≠ 0 then .preempted else .complete
      { s with pc := .finishRequest request reason }
  | .finishRequest request reason =>
    { (s.finishRange now reason).countCleanJob request reason with pc := .takeJob request }
  | .takeJob request =>
    { s with
      gActiveJob := request.job
      gHaveActiveJob := true
      pc := .program request
        (minerProgramJob request.job.midstate request.job.headerTail request.job.target ++
          minerStartRange request.job.nonceStart request.job.nonceCount) }
  | .program request [] => { s.rangeStarted now request.job with pc := .takeSem }
  | .program request (_ :: l) => { s with pc := .program request l }
  | .idleStatus inst acc =>
    if h : inst < host.instances then
      { s with pc := .idleStatus (inst + 1) (acc.next (s.read view ⟨inst, h⟩ minerRegStatus)) }
    else if acc.result &&& minerStatusRunning = 0 then { s with pc := .idleReason }
    else { s with pc := .takeSem }
  | .idleReason => { s with pc := .finishIdle (if s.gStopRequested then .stopped else .complete) }
  | .finishIdle reason => { s.finishRange now reason with pc := .takeSem }
  | .takeSem => if s.gIrqSem then { s with gIrqSem := false, pc := .resultStatus 0 } else { s with pc := .receive }
  | .resultStatus inst =>
    if h : inst < host.instances then
      let status := s.read view ⟨inst, h⟩ minerRegResultStatus
      if status &&& minerResultStatusResult = 0 then { s with pc := .resultStatus (inst + 1) }
      else { s with pc := .resultNonce ⟨inst, h⟩ status }
    else { s with pc := .testMasked }
  | .resultNonce inst status =>
    { s with pc := .resultEngine inst status (s.read view inst minerRegResultNonce) (s.hw inst).resultNonceQ }
  | .resultEngine inst status nonce tag =>
    let engine := s.read view inst minerRegResultEngine + BitVec.ofNat 32 inst * host.enginesPerInstance
    { s with pc := .resultClear inst ⟨nonce, engine, status⟩ tag }
  | .resultClear _ result tag => { s with pc := .sendEvent result tag }
  | .sendEvent result tag => { s.sendResult now result tag with pc := .resultStatus 0 }
  | .testMasked => if s.gIrqMasked then { s with pc := .clear minerClear } else { s with pc := .receive }
  | .clear [] => { s with gIrqMasked := false, pc := .unmask false 0 }
  | .clear (_ :: l) => { s with pc := .clear l }

/-! ## `miner_irq_handler` -/

/-- One access of the handler. -/
def handle (view : α → Word) (s : Board α host cfg) : IsrPc host.instances → Board α host cfg
  | .enter =>
    if s.gIrqMasked then { s with isr := some .give } else { s with gIrqMasked := true, isr := some (.mask 0) }
  | .mask inst =>
    if h : inst < host.instances then
      { s with isr := some (.maskWrite ⟨inst, h⟩ (s.read view ⟨inst, h⟩ minerRegIrqControl)) }
    else { s with isr := some .give }
  | .maskWrite inst _ => { s with isr := some (.mask (inst + 1)) }
  | .give => { s with gStats := { s.gStats with irqCount := s.gStats.irqCount + 1 }, gIrqSem := true, isr := none }

/-! ## The board -/

/-- The edge at which a write is applied, if one is made. -/
def apply (obs : Engine → α) (w : Option (RegWrite host.instances)) (s : Board α host cfg) : Board α host cfg :=
  match w with
  | some w => s.clockEdge obs (some w)
  | none => s

/-- One action; one that is not possible changes nothing. -/
def step (obs : Engine → α) (view : α → Word) (a : Action host.instances) (s : Board α host cfg) : Board α host cfg :=
  match a, s.isr with
  | .edge, _ => s.clockEdge obs none
  | .interrupt, none => if s.irqEnabled && s.irqLine then { s with isr := some .enter } else s
  | .handler, some i => (s.handle view i).apply obs i.write
  | .worker now, none => (s.advance view now).apply obs s.pc.write
  | .submitJob job cleanJob, none =>
    { s with gJobQueue := some ⟨job, cleanJob⟩, gStats := { s.gStats with jobsQueued := s.gStats.jobsQueued + 1 } }
  | .takeResult, none => { s with gResultQueue := s.gResultQueue.tail }
  | .requestStop, none => { s with gStopRequested := true }
  | .service inst w, none => s.apply obs (some (w.regWrite inst))
  | _, _ => s

/-- The board when `miner_task` starts, its instances at reset. -/
def reset (engines : Fin host.instances → Fin cfg.numEngines → Engine) : Board α host cfg where
  hw := fun k => MinerCore.reset (engines k)
  gJobQueue := none
  gResultQueue := []
  gIrqSem := false
  gActiveJob := zeroJob
  gHaveActiveJob := false
  gStats := ⟨0, 0, 0, 0, 0, 0, 0, 0, 0, 0, 0, 0, 0, 0, 0, 0, none⟩
  gRangeActive := false
  gStopRequested := false
  gIrqMasked := false
  irqEnabled := false
  pc := .init minerInit
  isr := none
  sent := []

end Board

end Vek280Miner
