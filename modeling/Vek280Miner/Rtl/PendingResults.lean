import Vek280Miner.Rtl.ResultConservation

/-!
# What the host can still read

The results that the host can still read from an instance are the one in the result register and those in the rings. The
books of an edge (`pending_balance`): what is pending after it and what is lost at it is what was pending before it and
what has reached a ring. A write loses the result in the register; a FIFO that is cleared loses what is not captured at
that edge.
-/

namespace Vek280Miner.Rtl

variable {α : Type}

namespace MinerCore

variable {cfg : MinerCfg} {s : MinerCore α cfg}

/-- The result in the register. -/
def held (s : MinerCore α cfg) : Multiset (Word × α) := if s.resultValidQ then {s.resultPair} else 0

/-- The results that the host can still read. -/
def pending (s : MinerCore α cfg) : Multiset (Word × α) :=
  s.held + ∑ c, ((s.fifos c).queue (s.clusterPopQ c) : Multiset (Word × α))

/-- The results that reach a ring at the next edge. -/
def arriving (s : MinerCore α cfg) : Multiset (Word × α) :=
  ∑ c, ((s.fifos c).pushed (s.clusterPopQ c) : Multiset (Word × α))

/-- The write empties the result register. -/
def empties (s : MinerCore α cfg) (w : Option Write) : Bool :=
  w.any (·.clearValid) || w.any (·.clearResults) || s.startsLoad w

/-- The results that the next edge clears from the rings. -/
def cleared (s : MinerCore α cfg) : Multiset (Word × α) :=
  ∑ c, ((s.fifos c).cleared (s.clusterPopQ c) (s.capture == some c) : Multiset (Word × α))

/-- The books of the result register. -/
theorem held_balance [Inhabited α] {obs : Engine → α} {w : Option Write} :
    (s.step obs w).held + (if s.empties w then s.held else 0) = s.held + s.captured := by
  cases hv : s.resultValidQ with
  | true =>
    have hc : s.capture = none := by simp [capture, hv]
    have hpair : (s.step obs w).resultPair = s.resultPair := (resultPair_step hv).1
    have hvalid : (s.step obs w).resultValidQ = !s.empties w := by
      cases he : s.empties w with
      | true => simp only [empties] at he; simp [step, hc, he]
      | false => simp only [empties, Bool.or_eq_false_iff] at he; simp [step, hc, he, hv]
    simp only [held, hv, hvalid, hpair, captured, hc]
    cases s.empties w <;> simp
  | false =>
    cases hc : s.capture with
    | none =>
      have hvalid : (s.step obs w).resultValidQ = false := by simp [step, hc, hv]
      simp [held, hv, hvalid, captured, hc]
    | some c =>
      have hvalid : (s.step obs w).resultValidQ = true := by simp [step, hc]
      have hpair : (s.step obs w).resultPair = ((s.fifos c).engineIdO, (s.fifos c).nonceO) := by
        simp [resultPair, step, hc]
      simp [held, hv, hvalid, hpair, captured, hc]

/-- **The books of an edge.** -/
theorem pending_balance [Inhabited α] {obs : Engine → α} {w : Option Write} (hp : PopHeld s) :
    (s.step obs w).pending + ((if s.empties w then s.held else 0) + s.cleared) = s.pending + s.arriving := by
  have hring : (∑ c, (((s.step obs w).fifos c).queue ((s.step obs w).clusterPopQ c) : Multiset (Word × α))) +
      s.captured + s.cleared = (∑ c, ((s.fifos c).queue (s.clusterPopQ c) : Multiset (Word × α))) + s.arriving := by
    rw [← sum_captured]
    unfold cleared arriving
    rw [← Finset.sum_add_distrib, ← Finset.sum_add_distrib, ← Finset.sum_add_distrib]
    refine Finset.sum_congr rfl fun c _ => ?_
    exact ClusterFifo.queue_balance (s := s.fifos c) (i := s.fifoIn obs c) (p := s.capture == some c)
      fun hpop => hp.capture (by simpa using hpop)
  have hheld := @held_balance _ _ s _ obs w
  unfold pending
  calc _ = ((s.step obs w).held + (if s.empties w then s.held else 0)) +
          ((∑ c, (((s.step obs w).fifos c).queue ((s.step obs w).clusterPopQ c) : Multiset (Word × α))) + s.cleared) := by abel
    _ = s.held + ((∑ c, (((s.step obs w).fifos c).queue ((s.step obs w).clusterPopQ c) : Multiset (Word × α))) +
          s.captured + s.cleared) := by rw [hheld]; abel
    _ = _ := by rw [hring]; abel

end MinerCore

end Vek280Miner.Rtl
