import Vek280Miner.Rtl.DiscardResults
import Vek280Miner.Software.ProgramJob

/-!
# The two writes of `miner_clear`

A clear alone leaves behind what the FIFOs present before they are cleared, two edges after the write, and what is taken
from them then stays in the result register (`Rtl.discards_iff`). The driver writes `RESULT_STATUS` after it. The bus
applies that write only when the FIFOs have been cleared (`Rtl.Spaced`), so it finds nothing that could raise the flags
again.
-/

namespace Vek280Miner.Rtl

section Core

variable {α : Type} [Inhabited α] {cfg : MinerCfg} {obs : Engine → α} {s : MinerCore α cfg}

/-- With clear FIFOs the write to `RESULT_STATUS` lowers the flags for good. -/
theorem drained_of_fifosClear {w : Write} (h : FifosClear s) (hs : Silent s) (hv : w.clearValid = true)
    (ho : w.clearOverflow = true) : Drained (s.step obs (some w)) := by
  have hnext : FifosClear (s.step obs (some w)) := fifosClear_step h hs
  have hcap := capture_of_empty h.results
  have hlow : ∀ c, (s.fifos c).overflowO = false := fun c => overflowO_of_overflowing (h.overflow c)
  refine ⟨⟨?_, ?_, hnext.results⟩, hnext.overflow⟩
  · simp [MinerCore.step, hcap, hv]
  · simp [MinerCore.step, hlow, ho]

end Core

/-! ## The time between two writes -/

variable {cfg : MinerCfg} {s : MinerAxi cfg} {inp : Nat → AxiIn} {v w : Write}

/-- No write is applied before the clear has reached the FIFOs. -/
theorem spaced_after_clear (hr : s.Reachable) (hv : s.applied = some v) (hclear : v.clearResults = true) {t : Nat}
    (ht : 0 < t) (hw : MinerAxi.appliedAt inp s t = some w) (c : Fin cfg.numClusters) : 3 ≤ t := by
  obtain ⟨h1, h2⟩ := @clear_reaches_fifos _ s inp v hv hclear
  have hno := (reachable_spaced (hr.run inp t)).noClear hw
  by_contra hlt
  obtain rfl | rfl : t = 1 ∨ t = 2 := by omega
  · rw [hno.clear] at h1
    cases h1
  · have hc := h2 c
    rw [hno.fifos c] at hc
    cases hc

/-- A clear and then a write of both bits to `RESULT_STATUS`, with any traffic between them. -/
theorem drained_after_clear (hr : s.Reachable) (hv : s.applied = some v) (hclear : v.clearResults = true) {t : Nat}
    (ht : 0 < t) (hw : MinerAxi.appliedAt inp s t = some w) (hvalid : w.clearValid = true)
    (hover : w.clearOverflow = true) (hs : ∀ u ≤ t, Silent (Clocked.run MinerAxi.step inp s u).core) :
    Drained (Clocked.run MinerAxi.step inp s (t + 1)).core := by
  have hfifos : FifosClear (Clocked.run MinerAxi.step inp s t).core := by
    have h := fun c => fifosClear_after hv hclear (spaced_after_clear hr hv hclear ht hw c) fun u hu => hs u (by omega)
    exact ⟨fun c => (h c).results c, fun c => (h c).overflow c⟩
  have hstep : (Clocked.run MinerAxi.step inp s (t + 1)).core =
      (Clocked.run MinerAxi.step inp s t).core.step Engine.resultNonceO (some w) := by
    rw [← hw]
    rfl
  rw [hstep]
  exact drained_of_fifosClear hfifos (hs t le_rfl) hvalid hover

end Vek280Miner.Rtl

namespace Vek280Miner.Sw

open Rtl

/-! ## The driver's writes -/

/-- What `miner_clear` writes to one instance. -/
theorem writesTo_minerClear {K : Nat} (inst : Fin K) :
    writesTo inst minerClear = [⟨.control, 4, 0xf⟩, ⟨.resultStatus, 3, 0xf⟩] := by
  rw [minerClear, writesTo_flatMap _ inst (List.nodup_finRange K)]
  · simp only [List.mem_finRange, if_true]
    rfl
  · intro i w hw
    simp only [List.mem_cons, List.not_mem_nil, or_false] at hw
    rcases hw with rfl | rfl <;> rfl

/-- **Clear.** In every reachable state and under any traffic on the bus, when no engine reports from the first to the
second write of `miner_clear` to an instance, then nothing is pending after the second until an engine reports. -/
theorem minerClear_complete {cfg : MinerCfg} (s : MinerAxi cfg) (hr : s.Reachable) (inp : Nat → AxiIn) (K : Nat)
    (inst : Fin K) (v w : Write) (hwrites : writesTo inst minerClear = [v, w]) (hv : s.applied = some v) (t : Nat)
    (ht : 0 < t) (hw : MinerAxi.appliedAt inp s t = some w)
    (hs : ∀ u ≤ t, Silent (Clocked.run MinerAxi.step inp s u).core) :
    ∀ n, t < n → (∀ u, t < u → u < n → Silent (Clocked.run MinerAxi.step inp s u).core) →
      NothingPending (Clocked.run MinerAxi.step inp s n).core := by
  rw [writesTo_minerClear] at hwrites
  obtain ⟨rfl, rfl⟩ : _ = v ∧ _ = w := by simpa using hwrites
  have hdrained : ∀ n, t < n → (∀ u, t < u → u < n → Silent (Clocked.run MinerAxi.step inp s u).core) →
      Drained (Clocked.run MinerAxi.step inp s n).core := by
    intro n hn
    induction n, Nat.succ_le_of_lt hn using Nat.le_induction with
    | base => exact fun _ => drained_after_clear hr hv (by decide) ht hw (by decide) (by decide) hs
    | succ n hn' ih =>
      intro hsil
      exact drained_step (ih hn' fun u hu hu' => hsil u hu (by omega)) (hsil n hn' (by omega))
  exact fun n hn hsil => (hdrained n hn hsil).toNothingPending

/-- The driver's second write behind a clear that finds a result at the head of a FIFO. -/
def clearTraffic : Nat → AxiIn := nextWrite (minerRegResultStatus, minerResultStatusResult ||| minerResultStatusOverflow)

/-- The result gets into the register at the edge of the clear, and is gone after the second write. -/
theorem clear_behind_report_complete : clearedBehindReport.core.capture ≠ none ∧
    (∀ t, 1 ≤ t → t ≤ 5 → (Clocked.run MinerAxi.step clearTraffic clearedBehindReport t).core.resultValidQ = true) ∧
      NothingPending (Clocked.run MinerAxi.step clearTraffic clearedBehindReport 6).core := by
  obtain ⟨-, hv, h1⟩ := clearedBehindReport_eq
  obtain ⟨hr, hrest, hcap⟩ := clearedBehindReport_waits
  obtain ⟨hno, hw, -⟩ := nextWrite_applied hv h1
    (minerRegResultStatus, minerResultStatusResult ||| minerResultStatusOverflow)
  have hheld := fun t (ht : t ≤ 5) => result_survives_clear hv hrest hcap hno ht
  exact ⟨hcap, fun t ht ht5 => (hheld t ht5).2 ht,
    minerClear_complete clearedBehindReport hr clearTraffic 1 0 _ _ (writesTo_minerClear 0) hv 5 (by decide) hw
      (fun u hu => (hheld u hu).1.2) 6 (by decide) fun u hu hu' => by omega⟩

end Vek280Miner.Sw
