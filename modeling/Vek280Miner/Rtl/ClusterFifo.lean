import Vek280Miner.Lib.Ring
import Vek280Miner.Lib.Word

/-!
# The result FIFO of a cluster (`bitcoin_result_cluster_fifo.sv`)

The engines of a cluster share a FIFO behind two pipeline stages; of several results in one cycle the first is kept and
the overflow flag is raised. What the FIFO carries beside the engine id is a type parameter `α`: the nonce in the
hardware, the nonce and where it comes from when results are traced.
-/

namespace Vek280Miner.Rtl

/-- The parameters of `bitcoin_result_cluster_fifo`. -/
structure FifoCfg where
  clusterIndex : Nat
  clusterSize : Nat
  fifoDepth : Nat

/-- The inputs sampled at an edge. -/
structure FifoIn (α : Type) (size : Nat) where
  clear : Bool
  pop : Bool
  engineValid : Fin size → Bool
  engineNonce : Fin size → α

/-- The registers; `ring` are the two memories, the pointers and `count_q`. -/
@[ext] structure ClusterFifo (α : Type) (cfg : FifoCfg) where
  ring : Ring (Word × α) cfg.fifoDepth
  clearQ : Bool
  stage1ValidQ : Fin cfg.clusterSize → Bool
  stage1NonceQ : Fin cfg.clusterSize → α
  stage1OverflowQ : Bool
  stage2ValidQ : Bool
  stage2EngineIdQ : Word
  stage2NonceQ : α
  stage2OverflowQ : Bool
  overflowO : Bool

/-- The first index that is set. -/
def hitIdx {n : Nat} (v : Fin n → Bool) : Option (Fin n) := (List.finRange n).find? v

/-- The number of indices that are set. -/
def validCount {n : Nat} (v : Fin n → Bool) : Nat := (List.finRange n).countP v

namespace ClusterFifo

variable {α : Type} [Inhabited α] {cfg : FifoCfg}

def validO (s : ClusterFifo α cfg) : Bool := s.ring.count != 0

def engineIdO (s : ClusterFifo α cfg) : Word := s.ring.head.1

def nonceO (s : ClusterFifo α cfg) : α := s.ring.head.2

/-- The entry in the second stage. -/
def stage2 (s : ClusterFifo α cfg) : Option (Word × α) :=
  if s.stage2ValidQ then some (s.stage2EngineIdQ, s.stage2NonceQ) else none

/-- `CLUSTER_BASE_ID + hit_idx`. -/
def engineId (cfg : FifoCfg) (i : Fin cfg.clusterSize) : Word :=
  BitVec.ofNat 32 (cfg.clusterIndex * cfg.clusterSize) + BitVec.ofNat 32 i

/-- One clock edge out of reset. -/
def step (i : FifoIn α cfg.clusterSize) (s : ClusterFifo α cfg) : ClusterFifo α cfg :=
  if s.clearQ then
    { s with
      clearQ := i.clear
      ring := s.ring.clear
      overflowO := false
      stage1ValidQ := fun _ => false
      stage1OverflowQ := false
      stage2ValidQ := false
      stage2OverflowQ := false }
  else
    { clearQ := i.clear
      stage1ValidQ := i.engineValid
      stage1NonceQ := i.engineNonce
      stage1OverflowQ := decide (1 < validCount i.engineValid)
      stage2ValidQ := (hitIdx s.stage1ValidQ).isSome
      stage2EngineIdQ := (hitIdx s.stage1ValidQ).elim 0 (engineId cfg)
      stage2NonceQ := (hitIdx s.stage1ValidQ).elim default s.stage1NonceQ
      stage2OverflowQ := s.stage1OverflowQ || decide (1 < validCount s.stage1ValidQ)
      overflowO := s.overflowO || (s.stage2ValidQ && !s.ring.doPush s.stage2 i.pop) || s.stage2OverflowQ
      ring := s.ring.update s.stage2 i.pop }

/-- Reset. -/
def reset (h : 0 < cfg.fifoDepth) : ClusterFifo α cfg where
  ring :=
    { mem := fun _ => (0, default), rdPtr := ⟨0, h⟩, wrPtr := ⟨0, h⟩, count := 0
      count_le := Nat.zero_le _, wr_eq := (Nat.zero_mod _).symm }
  clearQ := false
  stage1ValidQ := fun _ => false
  stage1NonceQ := fun _ => default
  stage1OverflowQ := false
  stage2ValidQ := false
  stage2EngineIdQ := 0
  stage2NonceQ := default
  stage2OverflowQ := false
  overflowO := false

end ClusterFifo

end Vek280Miner.Rtl
