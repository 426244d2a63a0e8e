import Vek280Miner.Rtl.ClusterFifo
import Vek280Miner.Rtl.HashEngine

/-!
# The register file, loader and engines of `bitcoin_miner_axi.sv`

Everything of the miner but its bus interface: the registers that a write reaches, the loader that hands the nonce range
to the engines one after the other, the engines, the cluster FIFOs, and the collection of results. An edge takes the
decoded write of the second bus stage when that write is applied at the edge.

The source assigns many registers several times in one clocked block, and the last assignment counts. `step` gives each
register its value as the chain of those assignments, last one first.

The loader's index registers count engines from `0` and are compared with the last engine before they are incremented,
so they are indices of engines here.
-/

namespace Vek280Miner.Rtl

/-! ## Parameters -/

/-- The parameters of `bitcoin_miner_axi`. -/
structure MinerCfg where
  numEngines : Nat
  clusterSize : Nat
  clusterFifoDepth : Nat
  explicitDspSchedule : Bool
  numEngines_pos : 0 < numEngines
  numEngines_lt : numEngines < 2 ^ 32
  clusterSize_pos : 0 < clusterSize
  clusterFifoDepth_pos : 0 < clusterFifoDepth

namespace MinerCfg

variable (cfg : MinerCfg)

def numClusters : Nat := (cfg.numEngines + cfg.clusterSize - 1) / cfg.clusterSize

/-- The parameters of `u_engine`. -/
def engine : EngineCfg := ⟨BitVec.ofNat 32 cfg.numEngines, cfg.explicitDspSchedule⟩

/-- The parameters of the `u_result_fifo` of cluster `c`. -/
def fifo (c : Fin cfg.numClusters) : FifoCfg := ⟨c, cfg.clusterSize, cfg.clusterFifoDepth⟩

/-- The first engine. -/
def firstEngine : Fin cfg.numEngines := ⟨0, cfg.numEngines_pos⟩

end MinerCfg

/-! ## Writes -/

/-- The register that a write in the second bus stage enables, if any. -/
inductive WriteSel where
  | midstate (i : Fin 8)
  | tail (i : Fin 4)
  | target (i : Fin 8)
  | control
  | nonceStart
  | nonceCount
  | resultStatus
  | irqControl
  | unmapped
deriving DecidableEq, Inhabited

structure Write where
  sel : WriteSel
  data : Word
  strb : BitVec 4
deriving DecidableEq, Inhabited

/-- `apply_wstrb`. -/
def applyWstrb (old new : Word) (strobe : BitVec 4) : Word :=
  let pick := fun i => if strobe.getLsbD i then byteAt new (i * 8) else byteAt old (i * 8)
  ofBe (pick 3) (pick 2) (pick 1) (pick 0)

/-- A bus with one word written. -/
def writeWord {n : Nat} (old : Words n) (i : Fin n) (w : Write) : Words n :=
  Function.update old i (applyWstrb (old i) w.data w.strb)

/-- `CONTROL.start`. -/
def Write.start (w : Write) : Bool := w.sel == .control && w.data.getLsbD 0

/-- `CONTROL.stop`. -/
def Write.stop (w : Write) : Bool := w.sel == .control && w.data.getLsbD 1

/-- `CONTROL.clear_results`. -/
def Write.clearResults (w : Write) : Bool := w.sel == .control && w.data.getLsbD 2

def Write.clearValid (w : Write) : Bool := w.sel == .resultStatus && w.data.getLsbD 0

def Write.clearOverflow (w : Write) : Bool := w.sel == .resultStatus && w.data.getLsbD 1

/-- The job registers after a write. -/
def Latched.write (j : Latched) (w : Write) : Latched :=
  match w.sel with
  | .midstate i => { j with midstate := writeWord j.midstate i w }
  | .tail i => { j with headerTail := writeWord j.headerTail i w }
  | .target i => { j with target := writeWord j.target i w }
  | _ => j

/-! ## Registers -/

/-- The states `LOAD_IDLE` to `LOAD_START`. -/
inductive LoadState where
  | idle
  | prep
  | decode
  | start
deriving DecidableEq, Inhabited

/-- The registers; `job` are `midstate_q`, `header_tail_q` and `target_q`. -/
@[ext] structure MinerCore (α : Type) (cfg : MinerCfg) where
  job : Latched
  nonceStartQ : Word
  nonceCountQ : Word
  runningQ : Bool
  nonceDoneQ : Bool
  overflowQ : Bool
  resultValidQ : Bool
  irqMaskQ : Bool
  irqForceQ : Bool
  resultNonceQ : α
  resultEngineQ : Word
  startPulseQ : Bool
  stopPulseQ : Bool
  clearResultsQ : Bool
  engineStartQ : Fin cfg.numEngines → Bool
  engineStopQ : Fin cfg.numEngines → Bool
  engineNonceStartQ : Fin cfg.numEngines → Word
  engineNonceCountQ : Fin cfg.numEngines → Word
  loadStateQ : LoadState
  loadEngineIdxQ : Fin cfg.numEngines
  loadStartIdxQ : Fin cfg.numEngines
  loadStartCountQ : Word
  loadStartLastQ : Bool
  loadStartOnehotQ : Fin cfg.numEngines → Bool
  clusterPopQ : Fin cfg.numClusters → Bool
  engines : Fin cfg.numEngines → Engine
  fifos : (c : Fin cfg.numClusters) → ClusterFifo α (cfg.fifo c)

/-- `engine_work_count`. -/
def engineWorkCount (cfg : MinerCfg) (count engineIndex : Word) : Word :=
  if engineIndex < count then (count - 1 - engineIndex) / BitVec.ofNat 32 cfg.numEngines + 1 else 0

/-- `engine_onehot`. -/
def engineOnehot {cfg : MinerCfg} (i : Fin cfg.numEngines) (e : Fin cfg.numEngines) : Bool := e == i

namespace MinerCore

variable {α : Type} {cfg : MinerCfg}

/-- `irq_o`. -/
def irqO (s : MinerCore α cfg) : Bool :=
  !s.irqMaskQ && (s.irqForceQ || s.resultValidQ || s.overflowQ || s.nonceDoneQ)

/-- The ports of engine `e`. -/
def engineIn (s : MinerCore α cfg) (e : Fin cfg.numEngines) : EngineIn :=
  ⟨s.engineStartQ e, s.engineStopQ e, s.job, s.engineNonceStartQ e, s.engineNonceCountQ e⟩

/-- The engine at port `l` of cluster `c`; the last cluster may have ports without an engine. -/
def engineAt (s : MinerCore α cfg) (c : Fin cfg.numClusters) (l : Fin cfg.clusterSize) : Option Engine :=
  if h : c * cfg.clusterSize + l < cfg.numEngines then some (s.engines ⟨c * cfg.clusterSize + l, h⟩) else none

/-- The ports of the FIFO of cluster `c`, where `obs` is what is recorded of an engine that reports. -/
def fifoIn [Inhabited α] (obs : Engine → α) (s : MinerCore α cfg) (c : Fin cfg.numClusters) : FifoIn α cfg.clusterSize where
  clear := s.stopPulseQ || s.startPulseQ || s.clearResultsQ
  pop := s.clusterPopQ c
  engineValid := fun l => (s.engineAt c l).elim false Engine.resultValidO
  engineNonce := fun l => (s.engineAt c l).elim default obs

/-- `cluster_hit_idx_next`. -/
def clusterHit (s : MinerCore α cfg) : Option (Fin cfg.numClusters) := hitIdx fun c => (s.fifos c).validO

/-- The collected result of the edge, if there is one. -/
def capture (s : MinerCore α cfg) : Option (Fin cfg.numClusters) := if s.resultValidQ then none else s.clusterHit

/-- The last clause of the clocked block: the scan is over. -/
def completes (s : MinerCore α cfg) : Bool :=
  s.runningQ && s.loadStateQ == .idle &&
    (decide (∀ e, (s.engines e).busyO = false) || decide (∀ e, (s.engines e).doneO = true)) && !s.startPulseQ

/-- The work of the engine at the loader's index. -/
def loadCount (s : MinerCore α cfg) : Word :=
  engineWorkCount cfg s.nonceCountQ (BitVec.ofNat 32 s.loadEngineIdxQ)

/-- The index after the loader's, which is not the last. -/
def nextEngineIdx (s : MinerCore α cfg) : Fin cfg.numEngines :=
  if h : s.loadEngineIdxQ.val + 1 < cfg.numEngines then ⟨s.loadEngineIdxQ.val + 1, h⟩ else cfg.firstEngine

/-- A write that starts the loader. -/
def startsLoad (s : MinerCore α cfg) (w : Option Write) : Bool := w.any (·.start) && s.loadStateQ == .idle

/-- One clock edge out of reset; `w` is the write applied at the edge. -/
def step [Inhabited α] (obs : Engine → α) (w : Option Write) (s : MinerCore α cfg) : MinerCore α cfg where
  job := w.elim s.job s.job.write
  nonceStartQ := match w with
    | some ⟨.nonceStart, d, b⟩ => applyWstrb s.nonceStartQ d b
    | _ => s.nonceStartQ
  nonceCountQ := match w with
    | some ⟨.nonceCount, d, b⟩ => applyWstrb s.nonceCountQ d b
    | _ => s.nonceCountQ
  runningQ :=
    if s.completes then false
    else if w.any (·.stop) then false
    else if s.startsLoad w then true
    else s.runningQ
  nonceDoneQ :=
    if s.completes then true
    else if w.any (·.clearResults) then false
    else if w.any (·.stop) then true
    else if s.startsLoad w then false
    else s.nonceDoneQ
  overflowQ :=
    if decide (∃ c, (s.fifos c).overflowO = true) then true
    else if w.any (·.clearOverflow) || w.any (·.clearResults) || s.startsLoad w then false
    else s.overflowQ
  resultValidQ :=
    if s.capture.isSome then true
    else if w.any (·.clearValid) || w.any (·.clearResults) || s.startsLoad w then false
    else s.resultValidQ
  irqMaskQ := match w with
    | some ⟨.irqControl, d, b⟩ => if b.getLsbD 0 then d.getLsbD 0 else s.irqMaskQ
    | _ => s.irqMaskQ
  irqForceQ := match w with
    | some ⟨.irqControl, d, b⟩ => if b.getLsbD 0 then d.getLsbD 1 else s.irqForceQ
    | _ => s.irqForceQ
  resultNonceQ := s.capture.elim s.resultNonceQ fun c => (s.fifos c).nonceO
  resultEngineQ := s.capture.elim s.resultEngineQ fun c => (s.fifos c).engineIdO
  startPulseQ := s.startsLoad w
  stopPulseQ := w.any (·.stop)
  clearResultsQ := w.any (·.clearResults)
  engineStartQ := if s.loadStateQ = .start then s.loadStartOnehotQ else fun _ => false
  engineStopQ := fun _ => w.any (·.stop)
  engineNonceStartQ :=
    if s.loadStateQ = .prep then
      Function.update s.engineNonceStartQ s.loadEngineIdxQ (s.nonceStartQ + BitVec.ofNat 32 s.loadEngineIdxQ)
    else s.engineNonceStartQ
  engineNonceCountQ :=
    if s.loadStateQ = .prep then Function.update s.engineNonceCountQ s.loadEngineIdxQ s.loadCount
    else s.engineNonceCountQ
  loadStateQ := match s.loadStateQ with
    | .idle => if w.any (·.stop) then .idle else if s.startsLoad w then .prep else .idle
    | .prep => .decode
    | .decode => .start
    | .start => if s.loadStartLastQ then .idle else .prep
  loadEngineIdxQ :=
    if s.loadStateQ = .start ∧ s.loadStartLastQ = false then s.nextEngineIdx
    else if s.startsLoad w then cfg.firstEngine
    else s.loadEngineIdxQ
  loadStartIdxQ := if s.loadStateQ = .prep then s.loadEngineIdxQ else s.loadStartIdxQ
  loadStartCountQ := if s.loadStateQ = .prep then s.loadCount else s.loadStartCountQ
  loadStartLastQ :=
    if s.loadStateQ = .prep then decide (s.loadEngineIdxQ.val = cfg.numEngines - 1) else s.loadStartLastQ
  loadStartOnehotQ :=
    if s.loadStateQ = .decode then
      if s.loadStartCountQ ≠ 0 then engineOnehot s.loadStartIdxQ else fun _ => false
    else s.loadStartOnehotQ
  clusterPopQ := fun c => s.capture == some c
  engines := fun e => (s.engines e).step cfg.engine (s.engineIn e)
  fifos := fun c => (s.fifos c).step (s.fifoIn obs c)

/-- The registers at reset; each engine keeps its core's datapath. -/
def reset [Inhabited α] (engines : Fin cfg.numEngines → Engine) : MinerCore α cfg where
  job := ⟨0, 0, fun _ => 0xffffffff⟩
  nonceStartQ := 0
  nonceCountQ := 0
  runningQ := false
  nonceDoneQ := false
  overflowQ := false
  resultValidQ := false
  irqMaskQ := false
  irqForceQ := false
  resultNonceQ := default
  resultEngineQ := 0
  startPulseQ := false
  stopPulseQ := false
  clearResultsQ := false
  engineStartQ := fun _ => false
  engineStopQ := fun _ => false
  engineNonceStartQ := fun _ => 0
  engineNonceCountQ := fun _ => 0
  loadStateQ := .idle
  loadEngineIdxQ := cfg.firstEngine
  loadStartIdxQ := cfg.firstEngine
  loadStartCountQ := 0
  loadStartLastQ := false
  loadStartOnehotQ := fun _ => false
  clusterPopQ := fun _ => false
  engines := fun e => (engines e).reset
  fifos := fun _ => ClusterFifo.reset cfg.clusterFifoDepth_pos

end MinerCore

end Vek280Miner.Rtl
