import Mathlib.Algebra.Order.BigOperators.Group.Finset
import Mathlib.Data.Multiset.OrderedMonoid
import Vek280Miner.Rtl.ResultConservation
import Vek280Miner.Rtl.ResultOrigin
import Vek280Miner.Rtl.RunningStatus
import Vek280Miner.Rtl.StartWrite

/-!
# `CONTROL.start` and `CONTROL.clear` discard results

A start or a clear lowers the flags of the result register at the edge of the write, but it reaches the FIFOs two edges
later. Until then the FIFOs go on to present results and overflow flags, and the clauses that take them come after the
clear in the same clocked block. So what is in flight at the write comes back: with no further report, the result path
is empty three edges later exactly when it was empty at the write (`discards_iff`).
-/

namespace Vek280Miner.Rtl

variable {α : Type} {cfg : MinerCfg}

/-! ## Nothing in flight -/

/-- No engine reports a result. -/
def Silent (s : MinerCore α cfg) : Prop := ∀ e, (s.engines e).resultValidO = false

/-- Nothing is in flight to the result register, and no overflow is indicated or about to be. -/
structure PathClear (s : MinerCore α cfg) : Prop where
  results : s.inFlight = 0
  overflow : ∀ c, (s.fifos c).overflowing = false

/-- No result, no overflow and nothing on its way. -/
structure NothingPending (s : MinerCore α cfg) : Prop where
  valid : s.resultValidQ = false
  overflow : s.overflowQ = false
  results : AllResults (fun _ => False) s

/-- The write empties the result path: it clears, or it starts the loader. -/
def MinerCore.discards (s : MinerCore α cfg) (w : Write) : Bool := w.clearResults || s.startsLoad (some w)

namespace ClusterFifo

variable {c : FifoCfg} {s : ClusterFifo α c}

theorem inFlight_eq_zero {pop : Bool} : s.inFlight pop = 0 ↔ s.stage1 = [] ∧ s.stage2 = none ∧ s.queue pop = [] := by
  rw [inFlight, Multiset.coe_eq_zero, List.append_eq_nil_iff, List.append_eq_nil_iff, Option.toList_eq_nil_iff, and_assoc]

theorem all_false_iff : (s.All fun _ => False) ↔ s.inFlight false = 0 := by
  have h1 : s.stage1 = [] ↔ ∀ l, s.stage1ValidQ l = false := by
    simp [stage1, entries, List.filter_eq_nil_iff]
  have h2 : s.stage2 = none ↔ s.stage2ValidQ = false := by
    unfold stage2
    cases s.stage2ValidQ <;> simp
  rw [inFlight_eq_zero, empty_iff, h1, h2, ← Ring.toList_eq_nil_iff]
  rfl

theorem entries_eq_nil {valid : Fin c.clusterSize → Bool} {nonce : Fin c.clusterSize → α}
    (h : ∀ l, valid l = false) : entries c valid nonce = [] := by
  simp [entries, List.filter_eq_nil_iff, h]

section Step

variable [Inhabited α] {i j : FifoIn α c.clusterSize}

/-- Without reports an indication is raised only by what is indicated or dropped already. -/
theorem overflowing_step_false (hi : ∀ l, i.engineValid l = false) (h : s.overflowing = false)
    (h1 : s.stage1 = []) (h2 : s.stage2 = none) : (s.step i).overflowing = false := by
  have hv1 : validCount s.stage1ValidQ = 0 := by
    have hlen := congrArg List.length h1
    rw [stage1, entries, List.length_map, ← List.countP_eq_length_filter] at hlen
    exact hlen
  have hvi : validCount i.engineValid = 0 := by simp [validCount, hi]
  have hv2 : s.stage2ValidQ = false := by
    cases hv : s.stage2ValidQ with
    | false => rfl
    | true => simp [stage2, hv] at h2
  simp only [overflowing, Bool.or_eq_false_iff] at h
  cases hc : s.clearQ with
  | true => simp [overflowing, step, hc]
  | false => simp [overflowing, step, hc, h, hv1, hvi, hv2]

/-- What is indicated or dropped is at the output two edges later. -/
theorem overflowO_after (h : s.clearQ = false) (h' : (s.step i).clearQ = false)
    (ho : s.overflowing = true ∨ s.dropped i.pop ≠ 0) : ((s.step i).step j).overflowO = true := by
  have hnext : (s.step i).overflowO = true ∨ (s.step i).stage2OverflowQ = true := by
    rcases ho with ho | hd
    · simp only [overflowing, Bool.or_eq_true] at ho
      rcases ho with (ho | ho) | ho <;> simp [step, h, ho]
    · exact overflow_of_dropped h hd
  rw [step, h']
  rcases hnext with hn | hn <;> simp [hn]

/-- What is in stage 2 is in an empty ring an edge later. -/
theorem stage2_eq_none_of_ring (h : s.clearQ = false) (hr : s.ring.toList = []) (hr' : (s.step i).ring.toList = []) :
    s.stage2 = none := by
  have hcount := (Ring.toList_eq_nil_iff _).1 hr
  have hD : 0 < c.fifoDepth := Nat.zero_lt_of_lt s.ring.rdPtr.isLt
  rw [ring_step i h, Ring.toList_update, List.append_eq_nil_iff] at hr'
  cases h2 : s.stage2 with
  | none => rfl
  | some x => simp [h2, Ring.doPush, hcount, hD] at hr'

end Step

end ClusterFifo

/-! ## The result path at a discarding write -/

theorem Silent.engineValid [Inhabited α] {obs : Engine → α} {s : MinerCore α cfg} (h : Silent s) (c : Fin cfg.numClusters)
    (l : Fin cfg.clusterSize) : (s.fifoIn obs c).engineValid l = false := by
  simp only [MinerCore.fifoIn, MinerCore.engineAt]
  split
  · exact h _
  · rfl

theorem Silent.reports [Inhabited α] {obs : Engine → α} {s : MinerCore α cfg} (h : Silent s) (c : Fin cfg.numClusters) :
    s.reports obs c = 0 :=
  congrArg _ (ClusterFifo.entries_eq_nil (h.engineValid c))

theorem inFlight_eq_zero_iff {s : MinerCore α cfg} :
    s.inFlight = 0 ↔ ∀ c, (s.fifos c).inFlight (s.clusterPopQ c) = 0 := by
  simp [MinerCore.inFlight, Finset.sum_eq_zero_iff]

theorem overflowO_of_overflowing {c : FifoCfg} {f : ClusterFifo α c} (h : f.overflowing = false) : f.overflowO = false := by
  simp only [ClusterFifo.overflowing, Bool.or_eq_false_iff] at h
  exact h.1.1

/-- An empty path has nothing in flight. -/
theorem inFlight_of_empty {s : MinerCore α cfg} (hp : s.PopHeld)
    (hpath : AllResults (fun _ => False) s) (hv : s.resultValidQ = false) : s.inFlight = 0 := by
  refine inFlight_eq_zero_iff.2 fun c => ?_
  have hpop : s.clusterPopQ c = false := by
    rw [← Bool.not_eq_true]
    intro hpop
    rw [hp c hpop] at hv
    cases hv
  rw [hpop]
  exact ClusterFifo.all_false_iff.1 (hpath c)

/-- A clear path is not captured from. -/
theorem PathClear.capture {s : MinerCore α cfg} (h : PathClear s) (hp : s.PopHeld) : s.capture = none := by
  cases hc : s.capture with
  | none => rfl
  | some c =>
    obtain ⟨hpop, hv⟩ := hp.capture hc
    have hz := inFlight_eq_zero_iff.1 h.results c
    rw [hpop] at hz
    have hring : (s.fifos c).ring.toList = [] := (ClusterFifo.inFlight_eq_zero.1 hz).2.2
    simp [ClusterFifo.validO, (Ring.toList_eq_nil_iff _).1 hring] at hv

/-- With the result register free, a path that is not captured from has empty rings. -/
theorem rings_of_capture {s : MinerCore α cfg} (hv : s.resultValidQ = false) (h : s.capture = none) (c : Fin cfg.numClusters) :
    (s.fifos c).ring.toList = [] := by
  simp only [MinerCore.capture, hv, Bool.false_eq_true, if_false, MinerCore.clusterHit, hitIdx, List.find?_eq_none] at h
  have hc := h c (List.mem_finRange c)
  exact (Ring.toList_eq_nil_iff _).2 (by simpa [ClusterFifo.validO] using hc)

/-- Nothing is pending and no overflow is about to be. -/
structure Drained (s : MinerCore α cfg) : Prop extends NothingPending s where
  overflowing : ∀ c, (s.fifos c).overflowing = false

section Core

variable [Inhabited α] {obs : Engine → α} {w : Option Write} {s : MinerCore α cfg}

/-- Without reports an empty path stays empty and the result register free, whatever is written. -/
theorem empty_step (hs : Silent s) (hp : AllResults (fun _ => False) s) (hv : s.resultValidQ = false) :
    AllResults (fun _ => False) (s.step obs w) ∧ (s.step obs w).resultValidQ = false := by
  refine ⟨allResults_step (fun e he => ?_) hp, ?_⟩
  · rw [hs e] at he
    cases he
  · simp [MinerCore.step, capture_of_empty hp, hv]

theorem drained_step (h : Drained s) (hs : Silent s) : Drained (s.step obs w) := by
  obtain ⟨hpath, hv⟩ := @empty_step _ _ _ obs w _ hs h.results h.valid
  refine ⟨⟨hv, ?_, hpath⟩, fun c => ?_⟩
  · simp [MinerCore.step, fun c => overflowO_of_overflowing (h.overflowing c), h.overflow]
  · have hempty := ClusterFifo.inFlight_eq_zero.1 (ClusterFifo.all_false_iff.1 (h.results c))
    exact ClusterFifo.overflowing_step_false (hs.engineValid c) (h.overflowing c) hempty.1 hempty.2.1

/-- What is not in flight is gone after an edge without a capture. -/
theorem allResults_of_inFlight (hp : s.PopHeld) (hc : ∀ c, (s.fifos c).clearQ = false) (hs : Silent s)
    (hz : s.inFlight = 0) (hcap : s.capture = none) : AllResults (fun _ => False) (s.step obs w) := by
  intro c
  have hbal := @MinerCore.cluster_balance _ _ _ obs w _ hp _ (hc c)
  rw [inFlight_eq_zero_iff.1 hz c, hs.reports c, add_zero] at hbal
  have hpop : (s.step obs w).clusterPopQ c = false := by simp [MinerCore.step, hcap]
  rw [hpop] at hbal
  exact ClusterFifo.all_false_iff.2 (add_eq_zero.1 hbal).1

/-- A discarding write to a clear path drains it. -/
theorem drained_of_pathClear {v : Write} (h : PathClear s) (hp : s.PopHeld) (hc : ∀ c, (s.fifos c).clearQ = false)
    (hs : Silent s) (hd : s.discards v = false → s.resultValidQ = false ∧ s.overflowQ = false) :
    Drained (s.step obs (some v)) := by
  have hcap := h.capture hp
  have hO : ∀ c, (s.fifos c).overflowO = false := fun c => overflowO_of_overflowing (h.overflow c)
  have hflags : (s.step obs (some v)).resultValidQ = false ∧ (s.step obs (some v)).overflowQ = false := by
    cases hdv : s.discards v with
    | true =>
      simp only [MinerCore.discards, Bool.or_eq_true] at hdv
      rcases hdv with hdv | hdv <;> simp [MinerCore.step, hcap, hO, hdv]
    | false =>
      obtain ⟨hv, ho⟩ := hd hdv
      simp [MinerCore.step, hcap, hO, hv, ho]
  refine ⟨⟨hflags.1, hflags.2, allResults_of_inFlight hp hc hs h.results hcap⟩, fun c => ?_⟩
  · obtain ⟨h1, h2, -⟩ := ClusterFifo.inFlight_eq_zero.1 (inFlight_eq_zero_iff.1 h.results c)
    exact ClusterFifo.overflowing_step_false (hs.engineValid c) (h.overflow c) h1 h2

/-- What the flags after an edge say about the path before it. -/
theorem capture_of_valid_step (h : (s.step obs w).resultValidQ = false) : s.capture = none := by
  cases hc : s.capture with
  | none => rfl
  | some c => simp [MinerCore.step, hc] at h

theorem overflowO_of_step (h : (s.step obs w).overflowQ = false) (c : Fin cfg.numClusters) :
    (s.fifos c).overflowO = false := by
  rw [← Bool.not_eq_true]
  intro ho
  have hex : ∃ c, (s.fifos c).overflowO = true := ⟨c, ho⟩
  simp [MinerCore.step, hex] at h

/-- When the flags are low at the three edges after it, a state without reports had a clear path. -/
theorem pathClear_of_flags {w0 w1 w2 : Option Write} (hp : s.PopHeld) (hno : NoClear s) (hs : Silent s)
    (h1 : (s.step obs w0).resultValidQ = false) (h2 : ((s.step obs w0).step obs w1).resultValidQ = false)
    (h3 : (((s.step obs w0).step obs w1).step obs w2).resultValidQ = false)
    (ho : (((s.step obs w0).step obs w1).step obs w2).overflowQ = false) : PathClear s := by
  have hclear : ∀ c, ((s.step obs w0).fifos c).clearQ = false := fun c =>
    (ClusterFifo.clearQ_step _).trans (by simp [MinerCore.fifoIn, hno.start, hno.stop, hno.clear])
  have hring1 := rings_of_capture h1 (capture_of_valid_step h2)
  have hring2 := rings_of_capture h2 (capture_of_valid_step h3)
  -- no overflow is indicated and nothing is dropped, or it would have shown by now
  have hquiet : ∀ c, (s.fifos c).overflowing = false ∧ (s.fifos c).dropped (s.clusterPopQ c) = 0 := by
    intro c
    by_contra hn
    have hraised : (s.fifos c).overflowing = true ∨ (s.fifos c).dropped (s.clusterPopQ c) ≠ 0 := by
      by_cases hO : (s.fifos c).overflowing = true
      · exact .inl hO
      · exact .inr fun hD => hn ⟨by simpa using hO, hD⟩
    have hout := ClusterFifo.overflowO_after (s := s.fifos c) (i := s.fifoIn obs c)
      (j := (s.step obs w0).fifoIn obs c) (hno.fifos c)
      (hclear c) hraised
    have hlow : (((s.step obs w0).step obs w1).fifos c).overflowO = false := overflowO_of_step ho c
    exact Bool.false_ne_true (hlow.symm.trans hout)
  refine ⟨inFlight_eq_zero_iff.2 fun c => ?_, fun c => (hquiet c).1⟩
  have hcap := capture_of_valid_step h1
  have hempty : ((s.step obs w0).fifos c).inFlight false = 0 := by
    refine ClusterFifo.inFlight_eq_zero.2 ⟨?_, ?_, hring1 c⟩
    · exact (ClusterFifo.stage1_step (hno.fifos c)).trans (ClusterFifo.entries_eq_nil (hs.engineValid c))
    · exact ClusterFifo.stage2_eq_none_of_ring (hclear c) (hring1 c) (hring2 c)
  have hbal := @MinerCore.cluster_balance _ _ _ obs w0 _ hp _ (hno.fifos c)
  have hpop : (s.step obs w0).clusterPopQ c = false := by simp [MinerCore.step, hcap]
  rw [hpop, hempty, hcap, (hquiet c).2, hs.reports c] at hbal
  simpa using hbal.symm

end Core

/-! ## Cleared FIFOs -/

/-- The FIFOs hold nothing, and no overflow is indicated or about to be. -/
structure FifosClear {α : Type} {cfg : MinerCfg} (s : MinerCore α cfg) : Prop where
  results : AllResults (fun _ => False) s
  overflow : ∀ c, (s.fifos c).overflowing = false

namespace ClusterFifo

variable [Inhabited α] {c : FifoCfg} {s : ClusterFifo α c} {i : FifoIn α c.clusterSize}

/-- A clear takes all that is in the FIFO at once. -/
theorem cleared_step (h : s.clearQ = true) : ((s.step i).All fun _ => False) ∧ (s.step i).overflowing = false := by
  constructor
  · refine empty_iff.2 ⟨fun l => ?_, ?_, ?_⟩ <;> simp [step, h, Ring.clear]
  · simp [overflowing, step, h]

end ClusterFifo

section Core

variable [Inhabited α] {obs : Engine → α} {s : MinerCore α cfg}

/-- Clear FIFOs stay clear without reports, whatever the result register holds. -/
theorem fifosClear_step {w : Option Write} (h : FifosClear s) (hs : Silent s) : FifosClear (s.step obs w) := by
  constructor
  · refine allResults_step (fun e he => ?_) h.results
    rw [hs e] at he
    cases he
  · intro c
    obtain ⟨h1, h2, -⟩ := ClusterFifo.inFlight_eq_zero.1 (ClusterFifo.all_false_iff.1 (h.results c))
    exact ClusterFifo.overflowing_step_false (hs.engineValid c) (h.overflow c) h1 h2

omit [Inhabited α] in
/-- Nothing is in flight when the FIFOs are clear. -/
theorem FifosClear.pathClear (h : FifosClear s) : PathClear s := by
  refine ⟨inFlight_eq_zero_iff.2 fun c => ?_, h.overflow⟩
  obtain ⟨h1, h2, hring⟩ := ClusterFifo.inFlight_eq_zero.1 (ClusterFifo.all_false_iff.1 (h.results c))
  have hempty : (s.fifos c).ring.toList = [] := hring
  refine ClusterFifo.inFlight_eq_zero.2 ⟨h1, h2, ?_⟩
  simp [ClusterFifo.queue, hempty]

end Core

section Bus

variable {s : MinerAxi cfg} {inp : Nat → AxiIn} {v : Write}

/-- The clear passes through the register at the first edge and through those of the FIFOs at the second. -/
theorem clear_reaches_fifos (hv : s.applied = some v) (hclear : v.clearResults = true) :
    (Clocked.run MinerAxi.step inp s 1).core.clearResultsQ = true ∧
      ∀ c, ((Clocked.run MinerAxi.step inp s 2).core.fifos c).clearQ = true := by
  have h1 : (Clocked.run MinerAxi.step inp s 1).core.clearResultsQ = true := by
    show s.applied.any (·.clearResults) = true
    rw [hv]
    exact hclear
  refine ⟨h1, fun c => ?_⟩
  exact (ClusterFifo.clearQ_step _).trans (by simp [MinerCore.fifoIn, h1])

/-- From the third edge after a clear on the FIFOs are clear, as long as nothing is reported. -/
theorem fifosClear_after (hv : s.applied = some v) (hclear : v.clearResults = true) {n : Nat} (hn : 3 ≤ n)
    (hs : ∀ u < n, Silent (Clocked.run MinerAxi.step inp s u).core) :
    FifosClear (Clocked.run MinerAxi.step inp s n).core := by
  induction n, hn using Nat.le_induction with
  | base =>
    have h2 := (@clear_reaches_fifos _ s inp v hv hclear).2
    exact ⟨fun c => (ClusterFifo.cleared_step (h2 c)).1, fun c => (ClusterFifo.cleared_step (h2 c)).2⟩
  | succ n hn ih => exact fifosClear_step (ih fun u hu => hs u (by omega)) (hs n (by omega))

end Bus

/-! ## Spacing of writes on the bus -/

/-- A write follows the one before it so late that the FIFOs have been cleared by then. -/
structure Spaced (s : MinerAxi cfg) : Prop where
  single : s.wrStage2ValidQ = true → s.wrStage1ValidQ = false
  pulse : (s.core.stopPulseQ || s.core.startPulseQ || s.core.clearResultsQ) = true →
    s.bvalid = true ∧ s.wrStage1ValidQ = false ∧ s.wrStage2ValidQ = false
  clear : ∀ c, (s.core.fifos c).clearQ = true → s.wrStage1ValidQ = false ∧ s.wrStage2ValidQ = false

theorem spaced_reset (engines : Fin cfg.numEngines → Engine) : Spaced (MinerAxi.reset engines) :=
  ⟨fun _ => rfl, fun h => by simp [MinerAxi.reset, MinerCore.reset] at h, fun _ _ => ⟨rfl, rfl⟩⟩

theorem spaced_step {s : MinerAxi cfg} (i : AxiIn) (h : Spaced s) : Spaced (s.step i) := by
  refine ⟨fun h2 => ?_, fun hp => ?_, fun c hc => ?_⟩
  · -- a write that stays in the second stage, or moves there, leaves nothing behind it
    cases hd : s.writeDecode with
    | true => simp [MinerAxi.step, hd]
    | false =>
      cases ha : s.writeApply with
      | true => simp [MinerAxi.step, ha] at h2
      | false =>
        have hv2 : s.wrStage2ValidQ = true := by simpa [MinerAxi.step, ha, hd] using h2
        have hf : s.writeFire i = false := by simp [MinerAxi.writeFire, hv2]
        simpa [MinerAxi.step, hd, hf] using h.single hv2
  · have ha : s.writeApply = true := by
      cases ha : s.writeApply with
      | true => rfl
      | false => simp [MinerAxi.step, MinerCore.step, MinerAxi.applied, ha, MinerCore.startsLoad] at hp
    have hv2 : s.wrStage2ValidQ = true := by
      simp only [MinerAxi.writeApply, Bool.and_eq_true] at ha
      exact ha.1
    have hd : s.writeDecode = false := by simp [MinerAxi.writeDecode, hv2]
    have hf : s.writeFire i = false := by simp [MinerAxi.writeFire, hv2]
    refine ⟨by simp [MinerAxi.step, ha], ?_, by simp [MinerAxi.step, ha]⟩
    simpa [MinerAxi.step, hd, hf] using h.single hv2
  · have hpulse : (s.core.stopPulseQ || s.core.startPulseQ || s.core.clearResultsQ) = true :=
      (ClusterFifo.clearQ_step _).symm.trans hc
    obtain ⟨hb, h1, h2⟩ := h.pulse hpulse
    have hd : s.writeDecode = false := by simp [MinerAxi.writeDecode, h1]
    have hf : s.writeFire i = false := by simp [MinerAxi.writeFire, hb]
    simp [MinerAxi.step, hd, hf, h1, h2]

theorem reachable_spaced {s : MinerAxi cfg} (h : s.Reachable) : Spaced s := by
  refine Clocked.Reachable.invariant (P := Spaced) ?_ (fun i s hs => spaced_step i hs) h
  rintro s ⟨engines, rfl⟩
  exact spaced_reset engines

/-- A write is applied while no FIFO is being cleared. -/
theorem Spaced.noClear {s : MinerAxi cfg} (h : Spaced s) {w : Write} (hw : s.applied = some w) : NoClear s.core := by
  have hv2 : s.wrStage2ValidQ = true := by
    cases hv : s.wrStage2ValidQ with
    | true => rfl
    | false => simp [MinerAxi.applied, MinerAxi.writeApply, hv] at hw
  have hpulse : (s.core.stopPulseQ || s.core.startPulseQ || s.core.clearResultsQ) = false := by
    rw [← Bool.not_eq_true]
    intro hp
    rw [(h.pulse hp).2.2] at hv2
    cases hv2
  simp only [Bool.or_eq_false_iff] at hpulse
  refine ⟨hpulse.1.2, hpulse.1.1, hpulse.2, fun c => ?_⟩
  rw [← Bool.not_eq_true]
  intro hc
  rw [(h.clear c hc).2] at hv2
  cases hv2

/-- The write pipeline is empty and the last response has been taken. -/
structure BusIdle (s : MinerAxi cfg) : Prop where
  stage1 : s.wrStage1ValidQ = false
  stage2 : s.wrStage2ValidQ = false
  response : s.bvalid = false

theorem busIdle_step {s : MinerAxi cfg} (h : BusIdle s) {i : AxiIn} (hi : i.awvalid = false) : BusIdle (s.step i) := by
  constructor <;>
    simp [MinerAxi.step, MinerAxi.writeFire, MinerAxi.writeApply, MinerAxi.writeDecode, h.stage1, h.stage2, h.response, hi]

/-- A write on an idle bus is applied at the third edge, and the bus holds no other write then. -/
theorem applied_of_fire {s : MinerAxi cfg} (h : BusIdle s) {i j : AxiIn} (hi : i.awvalid = true) (hv : i.wvalid = true)
    (hj : j.awvalid = false) :
    ((s.step i).step j).applied = some ⟨writeSel (wordAddr i.awaddr), i.wdata, i.wstrb⟩ ∧
      ((s.step i).step j).wrStage1ValidQ = false ∧
      ((s.step i).step j).core = (s.core.step Engine.resultNonceO none).step Engine.resultNonceO none := by
  refine ⟨?_, ?_, ?_⟩ <;>
    simp [MinerAxi.step, MinerAxi.applied, MinerAxi.writeFire, MinerAxi.writeApply, MinerAxi.writeDecode, h.stage1, h.stage2,
      h.response, hi, hv, hj]

/-- Behind a write with nothing following it the bus is idle two edges later. -/
theorem busIdle_after {s : MinerAxi cfg} {w : Write} (hw : s.applied = some w) (h1 : s.wrStage1ValidQ = false) {i j : AxiIn}
    (hi : i.awvalid = false) (hj : j.awvalid = false) (hb : j.bready = true) :
    (s.step i).applied = none ∧ BusIdle ((s.step i).step j) := by
  have happly : s.writeApply = true := by
    by_contra hn
    simp [MinerAxi.applied, hn] at hw
  have hnext : (s.step i).wrStage1ValidQ = false ∧ (s.step i).wrStage2ValidQ = false ∧ (s.step i).bvalid = true := by
    simp [MinerAxi.step, MinerAxi.writeFire, MinerAxi.writeDecode, hi, h1, happly]
  generalize s.step i = s1 at hnext ⊢
  obtain ⟨hn1, hn2, hnb⟩ := hnext
  refine ⟨by simp [MinerAxi.applied, MinerAxi.writeApply, hn2], ?_, ?_, ?_⟩ <;>
    simp [MinerAxi.step, MinerAxi.writeFire, MinerAxi.writeApply, MinerAxi.writeDecode, hn1, hn2, hnb, hj, hb]

theorem BusIdle.applied {s : MinerAxi cfg} (h : BusIdle s) : s.applied = none := by
  simp [MinerAxi.applied, MinerAxi.writeApply, h.stage2]

theorem BusIdle.applied_step {s : MinerAxi cfg} (h : BusIdle s) (i : AxiIn) : (s.step i).applied = none := by
  simp [MinerAxi.applied, MinerAxi.step, MinerAxi.writeApply, MinerAxi.writeDecode, h.stage1, h.stage2]

/-- The next write that a bus master has for the miner, once the response to the last one has been taken. -/
def nextWrite (x : BitVec 12 × Word) (t : Nat) : AxiIn := if t = 3 then busWrites [x] 0 else busWrites [] t

/-- It is applied five edges after the last one, and none between them. -/
theorem nextWrite_applied {s : MinerAxi cfg} {w : Write} (hw : s.applied = some w) (h1 : s.wrStage1ValidQ = false)
    (x : BitVec 12 × Word) : (∀ t, 1 ≤ t → t < 5 → MinerAxi.appliedAt (nextWrite x) s t = none) ∧
      MinerAxi.appliedAt (nextWrite x) s 5 = some ⟨writeSel (wordAddr x.1), x.2, 0xf⟩ ∧
        (Clocked.run MinerAxi.step (nextWrite x) s 5).wrStage1ValidQ = false := by
  have hquiet : ∀ t, t ≠ 3 → (nextWrite x t).awvalid = false ∧ (nextWrite x t).bready = true := by
    intro t ht
    rw [nextWrite, if_neg ht]
    simp [busWrites]
  obtain ⟨hnone, hidle⟩ := busIdle_after hw h1 (hquiet 0 (by decide)).1 (hquiet 1 (by decide)).1 (hquiet 1 (by decide)).2
  have hidle3 : BusIdle (Clocked.run MinerAxi.step (nextWrite x) s 3) := busIdle_step hidle (hquiet 2 (by decide)).1
  obtain ⟨happ, hstage, -⟩ := applied_of_fire hidle3 (i := nextWrite x 3) (j := nextWrite x 4) rfl rfl
    (hquiet 4 (by decide)).1
  refine ⟨fun t ht ht5 => ?_, happ, hstage⟩
  obtain rfl | rfl | rfl | rfl : t = 1 ∨ t = 2 ∨ t = 3 ∨ t = 4 := by omega
  · exact hnone
  · exact hidle.applied
  · exact hidle3.applied
  · exact hidle3.applied_step _

/-! ## Discarding -/

/-- What a start or a clear applied at the first edge is to achieve as long as no engine reports: the flags are low from
the next edge on, and three edges later nothing is left in the FIFOs. -/
structure Discards (inp : Nat → AxiIn) (s : MinerAxi cfg) : Prop where
  low : ∀ t, 1 ≤ t → (∀ u < t, Silent (Clocked.run MinerAxi.step inp s u).core) →
    (Clocked.run MinerAxi.step inp s t).core.resultValidQ = false ∧
      (Clocked.run MinerAxi.step inp s t).core.overflowQ = false
  empty : ∀ t, 3 ≤ t → (∀ u < t, Silent (Clocked.run MinerAxi.step inp s u).core) →
    NothingPending (Clocked.run MinerAxi.step inp s t).core

/-- **Discarding.** In every reachable state, a start or a clear discards what was pending exactly when nothing was in
flight to the result register; a start that finds the loader at work also has to find the flags low. -/
theorem discards_iff (s : MinerAxi cfg) (hr : s.Reachable) (inp : Nat → AxiIn) (w : Write) (hw : s.applied = some w)
    (hsel : w.start = true ∨ w.clearResults = true)
    (hs : ∀ t < 3, Silent (Clocked.run MinerAxi.step inp s t).core) :
    Discards inp s ↔
      PathClear s.core ∧ (s.core.discards w = false → s.core.resultValidQ = false ∧ s.core.overflowQ = false) := by
  have hno := (reachable_spaced hr).noClear hw
  have hp := reachable_popHeld hr
  have h1 : (Clocked.run MinerAxi.step inp s 1).core = s.core.step Engine.resultNonceO (some w) := by rw [← hw]; rfl
  constructor
  · intro h
    have hl := fun t (ht : 1 ≤ t) (ht3 : t ≤ 3) => h.low t ht fun u hu => hs u (by omega)
    have hclear : PathClear s.core :=
      pathClear_of_flags hp hno (hs 0 (by omega)) (hl 1 le_rfl (by omega)).1 (hl 2 (by omega) (by omega)).1
        (hl 3 (by omega) le_rfl).1 (hl 3 (by omega) le_rfl).2
    refine ⟨hclear, fun hd => ?_⟩
    have hflags := hl 1 le_rfl (by omega)
    rw [h1] at hflags
    have hsel' : w.sel = .control := by
      rcases hsel with hsel | hsel <;> simp only [Write.start, Write.clearResults, Bool.and_eq_true, beq_iff_eq] at hsel
      · exact hsel.1
      · exact hsel.1
    simp only [MinerCore.discards, Bool.or_eq_false_iff] at hd
    have hO : ∀ c, (s.core.fifos c).overflowO = false := fun c => overflowO_of_overflowing (hclear.overflow c)
    simpa [MinerCore.step, hclear.capture hp, hO, hd, Write.clearValid, Write.clearOverflow, hsel'] using hflags
  · rintro ⟨hclear, hd⟩
    have hdrained : ∀ t, 1 ≤ t → (∀ u < t, Silent (Clocked.run MinerAxi.step inp s u).core) →
        Drained (Clocked.run MinerAxi.step inp s t).core := by
      intro t ht
      induction t, ht using Nat.le_induction with
      | base =>
        intro hsil
        rw [h1]
        exact drained_of_pathClear hclear hp hno.fifos (hsil 0 Nat.one_pos) hd
      | succ t ht ih => exact fun hsil => drained_step (ih fun u hu => hsil u (by omega)) (hsil t (by omega))
    refine ⟨fun t ht hsil => ?_, fun t ht hsil => (hdrained t (by omega) hsil).toNothingPending⟩
    exact ⟨(hdrained t ht hsil).valid, (hdrained t ht hsil).overflow⟩

/-! ## A result that comes back -/

section Report

variable [Inhabited α] {obs : Engine → α} {m : MinerCore α cfg}

/-- A result that is reported on an empty path waits in the ring of its cluster three edges later. -/
theorem report_queued (hno : NoClear m) (hpath : AllResults (fun _ => False) m) (hv : m.resultValidQ = false)
    (hrep : ¬ Silent m) :
    let m3 := ((m.step obs none).step obs none).step obs none
    m3.resultValidQ = false ∧ m3.capture ≠ none := by
  intro m3
  have hno1 : NoClear (m.step obs none) := noClear_step hno (by simp)
  have hno2 : NoClear ((m.step obs none).step obs none) := noClear_step hno1 (by simp)
  have hempty := fun c => ClusterFifo.inFlight_eq_zero.1 (ClusterFifo.all_false_iff.1 (hpath c))
  have hring1 : ∀ c, ((m.step obs none).fifos c).ring.toList = [] := by
    intro c
    have hq : (m.fifos c).ring.toList = [] := (hempty c).2.2
    refine (ClusterFifo.ring_toList_step (hno.fifos c)).trans ?_
    simp [ClusterFifo.queue, hq, (hempty c).2.1]
  have hstage1 : ∀ c, ((m.step obs none).fifos c).stage2 = none := by
    intro c
    refine (ClusterFifo.stage2_step (hno.fifos c)).trans ?_
    rw [(hempty c).1, List.head?_nil]
  have hring2 : ∀ c, (((m.step obs none).step obs none).fifos c).ring.toList = [] := by
    intro c
    refine (ClusterFifo.ring_toList_step (hno1.fifos c)).trans ?_
    simp [ClusterFifo.queue, hring1 c, hstage1 c]
  have hv1 := (resultValid_step_of_capture obs (capture_of_empty hpath)).trans hv
  have hv2 := (resultValid_step_of_capture obs (capture_of_rings hring1)).trans hv1
  have hv3 := (resultValid_step_of_capture obs (capture_of_rings hring2)).trans hv2
  refine ⟨hv3, fun hcap => hrep ?_⟩
  -- with nothing to capture no cluster has got a report
  have hnone : ∀ c, m.reports obs c = 0 := by
    intro c
    have hs2 := ClusterFifo.stage2_eq_none_of_ring (s := ((m.step obs none).step obs none).fifos c)
      (i := ((m.step obs none).step obs none).fifoIn obs c) (hno2.fifos c) (hring2 c) (rings_of_capture hv3 hcap c)
    have hs1 : ((m.step obs none).fifos c).stage1 = [] :=
      List.head?_eq_none_iff.1 ((ClusterFifo.stage2_step (hno1.fifos c)).symm.trans hs2)
    have hentries := (ClusterFifo.stage1_step (s := m.fifos c) (i := m.fifoIn obs c) (hno.fifos c)).symm.trans hs1
    exact congrArg _ hentries
  have hraised : m.raised obs = 0 := by rw [← MinerCore.sum_reports, Finset.sum_eq_zero fun c _ => hnone c]
  intro e
  rw [← Bool.not_eq_true]
  intro he
  have hz := Finset.sum_eq_zero_iff.1 hraised e (Finset.mem_univ e)
  simp [he] at hz

end Report

/-- The miner when a start for one nonce is applied out of reset; every digest meets the target. -/
def startOneNonce : MinerAxi twoEngines :=
  Clocked.run MinerAxi.step (busWrites [(0x084, 1), (0x000, 1)]) (MinerAxi.reset fun _ => default) 6

theorem startOneNonce_reachable : startOneNonce.Reachable := Clocked.Reachable.run (.init ⟨_, rfl⟩) _ _

/-- What the start finds. -/
theorem startOneNonce_state :
    (startOneNonce.applied = some ⟨.control, 1, 0xf⟩ ∧ startOneNonce.wrStage1ValidQ = false) ∧
    (startOneNonce.core.loadStateQ = .idle ∧ startOneNonce.core.completes = false ∧
      startOneNonce.core.nonceCountQ.toNat = 1 ∧ startOneNonce.core.job.target = fun _ => 0xffffffff) ∧
    (∀ c, (startOneNonce.core.fifos c).All fun _ => False) ∧ startOneNonce.core.resultValidQ = false := by
  decide +kernel

theorem startOneNonce_count : startOneNonce.core.nonceCountQ.toNat = 1 := startOneNonce_state.2.1.2.2.1

/-- The cycle after the start in which the nonce is reported. -/
def reportCycle : Nat := 5 + (14 + 2 * coreCycles twoEngines.engine.core)

/-- A clear that reaches the registers three cycles after the report. -/
def clearBehindReport (t : Nat) : AxiIn := if t = reportCycle + 1 then busWrites [(0x000, 4)] 0 else busWrites [] t

section Comeback

theorem startOneNonce_startWrite :
    StartWrite (MinerAxi.appliedAt (busWrites []) startOneNonce) ⟨.control, 1, 0xf⟩ startOneNonce.core := by
  obtain ⟨⟨happlied, hstage⟩, ⟨hidle, -⟩, -⟩ := startOneNonce_state
  refine ⟨happlied, by decide, by decide, hidle, fun t ht => ?_⟩
  exact MinerAxi.applied_none_after (fun u => by simp [busWrites]) happlied hstage ht

/-- The miner that is left alone after the start. -/
def oneNonceAt (t : Nat) : MinerCore Word twoEngines := (Clocked.run MinerAxi.step (busWrites []) startOneNonce t).core

theorem oneNonceAt_succ {t : Nat} (ht : 1 ≤ t) :
    oneNonceAt (t + 1) = (oneNonceAt t).step Engine.resultNonceO none := by
  have h := startOneNonce_startWrite.succ Engine.resultNonceO ht
  rwa [← MinerAxi.core_run, ← MinerAxi.core_run] at h

/-- The first cycles: no engine has got its start yet, or it has just begun, and the bus is idle. -/
theorem oneNonce_begins :
    (∀ e : Fin twoEngines.numEngines, ((oneNonceAt (4 + 3 * e)).engines e).stateQ = .idle ∧
      ((oneNonceAt (4 + 3 * e)).engines e).coreFree twoEngines.engine = true) ∧
    (∀ e, startOneNonce.core.nonceCountQ.toNat ≤ e.val →
      ((oneNonceAt (3 * twoEngines.numEngines + 1)).engines e).stateQ = .idle) ∧
    (∀ e, ((oneNonceAt 1).engines e).stateQ = .idle) ∧
    (∀ t < 5, ∀ e, ((oneNonceAt t).engines e).resultValidO = false) ∧
    ((Clocked.run MinerAxi.step (busWrites []) startOneNonce 2).wrStage1ValidQ = false ∧
      (Clocked.run MinerAxi.step (busWrites []) startOneNonce 2).wrStage2ValidQ = false ∧
      (Clocked.run MinerAxi.step (busWrites []) startOneNonce 2).bvalid = false) := by
  decide +kernel

theorem oneNonce_findsFree : FindsFree (busWrites []) startOneNonce ⟨.control, 1, 0xf⟩ := by
  refine ⟨.inr ⟨by decide, startOneNonce_state.2.1.2.1⟩, by decide, fun t e ht hp => ?_, oneNonce_begins.2.1⟩
  rw [MinerAxi.core_run, startOneNonce_startWrite.engineStart_iff _ ht] at hp
  rw [hp.1]
  exact oneNonce_begins.1 e

/-- The second engine has nothing to do. -/
theorem oneNonce_second_idle {t : Nat} (ht : 1 ≤ t) {e : Fin twoEngines.numEngines} (he : e ≠ twoEngines.firstEngine) :
    ((oneNonceAt t).engines e).stateQ = .idle := by
  have hpos : 0 < e.val := Nat.pos_of_ne_zero fun h0 => he (Fin.ext h0)
  have hshare : share twoEngines startOneNonce.core.nonceCountQ e = 0 :=
    (share_eq_zero_iff _ _).2 (by rw [startOneNonce_count]; exact hpos)
  have hidle := oneNonce_begins.2.2.1 e
  unfold oneNonceAt at hidle ⊢
  rw [MinerAxi.core_run] at hidle ⊢
  refine engine_stays_idle Engine.resultNonceO (fun u hu => ?_) hidle ht
  rw [← Bool.not_eq_true, startOneNonce_startWrite.engineStart_iff _ hu]
  exact fun hu' => hu'.2 hshare

/-- The first engine evaluates its nonce. -/
theorem oneNonce_evalAt {a : Nat} (ha : a < evalCycles twoEngines.engine) : ∃ (L : Latched) (n r : Word) (d : Words 8),
    L.target = (fun _ => 0xffffffff) ∧ r ≤ 1 ∧
      EvalAt twoEngines.engine L n r d a ((oneNonceAt (5 + a)).engines twoEngines.firstEngine) := by
  have hcount : startOneNonce.core.nonceCountQ = 1 := BitVec.eq_of_toNat_eq startOneNonce_count
  have hone : (share twoEngines startOneNonce.core.nonceCountQ twoEngines.firstEngine).toNat = 1 := by
    rw [hcount]
    decide
  have hscan := oneNonce_findsFree.scans startOneNonce_reachable startOneNonce_startWrite
    (e := twoEngines.firstEngine) (a := 0 * evalCycles twoEngines.engine + a) (fun h0 => by rw [h0] at hone; cases hone)
    (by rw [hone]; omega)
  rw [scanAt_iff ha, show 5 + 3 * twoEngines.firstEngine.val + (0 * evalCycles twoEngines.engine + a) = 5 + a by
    show 5 + 3 * 0 + _ = _; omega] at hscan
  refine ⟨_, _, _, _, startOneNonce_state.2.1.2.2.2, ?_, hscan⟩
  rw [hcount]
  decide

/-- No engine reports before the report. -/
theorem oneNonce_silent {t : Nat} (ht : t < reportCycle) : Silent (oneNonceAt t) := by
  intro e
  rcases Nat.lt_or_ge t 5 with h5 | h5
  · exact oneNonce_begins.2.2.2.1 t h5 e
  · rw [← Bool.not_eq_true]
    intro hv
    have hb : ReportsBusy (oneNonceAt t) := by
      obtain ⟨u, rfl⟩ : ∃ u, t = u + 1 := ⟨t - 1, by omega⟩
      exact reportsBusy_step _
    by_cases he : e = twoEngines.firstEngine
    · subst he
      obtain ⟨L, n, r, d, -, -, heval⟩ := oneNonce_evalAt (a := t - 5) (by unfold evalCycles; unfold reportCycle at ht; omega)
      rw [show 5 + (t - 5) = t by omega] at heval
      have hage := (heval.valid_iff.1 hv).1
      unfold reportCycle at ht
      omega
    · exact hb e hv (oneNonce_second_idle (by omega) he)

/-- The report. -/
theorem oneNonce_reported : ((oneNonceAt reportCycle).engines twoEngines.firstEngine).resultValidO = true := by
  obtain ⟨L, n, r, d, hL, -, heval⟩ :=
    oneNonce_evalAt (a := 14 + 2 * coreCycles twoEngines.engine.core) (by unfold evalCycles; omega)
  rw [show 5 + (14 + 2 * coreCycles twoEngines.engine.core) = reportCycle from rfl] at heval
  refine heval.valid_iff.2 ⟨rfl, ?_⟩
  rw [hL]
  exact beValue_le_ones _

/-- Until the report the path is empty and the result register free. -/
theorem oneNonce_path {t : Nat} (ht : t ≤ reportCycle) :
    AllResults (fun _ => False) (oneNonceAt t) ∧ (oneNonceAt t).resultValidQ = false := by
  induction t with
  | zero => exact startOneNonce_state.2.2
  | succ t ih =>
    obtain ⟨hpath, hv⟩ := ih (by omega)
    exact empty_step (oneNonce_silent (by omega)) hpath hv

/-- Three edges after the report the result is waiting, and the result register is free. -/
theorem oneNonce_queued : (oneNonceAt (reportCycle + 3)).resultValidQ = false ∧
    (oneNonceAt (reportCycle + 3)).capture ≠ none := by
  obtain ⟨hpath, hv⟩ := oneNonce_path le_rfl
  have hrep : ¬ Silent (oneNonceAt reportCycle) := by
    intro hs
    have hlow := hs twoEngines.firstEngine
    rw [oneNonce_reported] at hlow
    cases hlow
  have hR : 3 ≤ reportCycle := by unfold reportCycle; omega
  generalize reportCycle = R at hpath hv hrep hR ⊢
  have hno : NoClear (oneNonceAt R) := by
    obtain ⟨u, rfl⟩ : ∃ u, R = u + 2 := ⟨R - 2, by omega⟩
    rw [oneNonceAt_succ (by omega), oneNonceAt_succ (by omega)]
    exact ⟨rfl, rfl, rfl, fun c => ClusterFifo.clearQ_step _⟩
  rw [oneNonceAt_succ (by omega), oneNonceAt_succ (by omega), oneNonceAt_succ (by omega)]
  exact report_queued hno hpath hv hrep

/-- From the edge after the report on the engines are idle and nothing is loaded. -/
theorem oneNonce_rested : Rested (oneNonceAt (reportCycle + 1)) := by
  have hR : 5 + (14 + 2 * coreCycles twoEngines.engine.core) = reportCycle := rfl
  have hN : twoEngines.numEngines = 2 := rfl
  refine ⟨⟨?_, fun e => ?_⟩, fun e => ?_⟩
  · unfold oneNonceAt
    rw [MinerAxi.core_run]
    exact startOneNonce_startWrite.loaded _ (by omega)
  · unfold oneNonceAt
    rw [MinerAxi.core_run, ← Bool.not_eq_true, startOneNonce_startWrite.engineStart_iff _ (by omega)]
    have he := e.isLt
    omega
  · by_cases he : e = twoEngines.firstEngine
    · subst he
      obtain ⟨L, n, r, d, -, hr, heval⟩ := oneNonce_evalAt (a := 14 + 2 * coreCycles twoEngines.engine.core)
        (by unfold evalCycles; omega)
      have hstop : ∀ t, 1 ≤ t → (oneNonceAt t).engineStopQ twoEngines.firstEngine = false := by
        intro t ht
        unfold oneNonceAt
        rw [MinerAxi.core_run]
        exact startOneNonce_startWrite.stop_low Engine.resultNonceO ht twoEngines.firstEngine
      have hlow := hstop reportCycle (by omega)
      rw [hR] at heval
      rw [oneNonceAt_succ (by omega)]
      generalize oneNonceAt reportCycle = m at heval hlow ⊢
      exact (evalAt_finish heval hlow hr).1
    · exact oneNonce_second_idle (by omega) he

theorem oneNonce_busIdle {t : Nat} (ht : 2 ≤ t) : BusIdle (Clocked.run MinerAxi.step (busWrites []) startOneNonce t) := by
  induction t, ht using Nat.le_induction with
  | base =>
    obtain ⟨h1, h2, hb⟩ := oneNonce_begins.2.2.2.2
    exact ⟨h1, h2, hb⟩
  | succ t _ ih => exact busIdle_step ih (by simp [busWrites])

/-- The miner when the clear is applied. -/
def clearedBehindReport : MinerAxi twoEngines := Clocked.run MinerAxi.step clearBehindReport startOneNonce (reportCycle + 3)

theorem clearedBehindReport_eq : clearedBehindReport.core = oneNonceAt (reportCycle + 3) ∧
    clearedBehindReport.applied = some ⟨.control, 4, 0xf⟩ ∧ clearedBehindReport.wrStage1ValidQ = false := by
  have hsame : Clocked.run MinerAxi.step clearBehindReport startOneNonce (reportCycle + 1) =
      Clocked.run MinerAxi.step (busWrites []) startOneNonce (reportCycle + 1) :=
    Clocked.run_congr fun t ht => if_neg (by omega)
  have hR : 3 ≤ reportCycle := by unfold reportCycle; omega
  have hbus := oneNonce_busIdle (t := reportCycle + 1) (by omega)
  have hfire : clearBehindReport (reportCycle + 1) = busWrites [(0x000, 4)] 0 := if_pos rfl
  have hidle : (clearBehindReport (reportCycle + 2)).awvalid = false := by
    rw [clearBehindReport, if_neg (by omega)]
    simp [busWrites]
  obtain ⟨happ, h1, hcore⟩ := applied_of_fire hbus (i := clearBehindReport (reportCycle + 1)) (by rw [hfire]; rfl)
    (by rw [hfire]; rfl) hidle
  have hrun : clearedBehindReport = ((Clocked.run MinerAxi.step (busWrites []) startOneNonce (reportCycle + 1)).step
      (clearBehindReport (reportCycle + 1))).step (clearBehindReport (reportCycle + 2)) := by
    rw [← hsame]
    rfl
  rw [hrun]
  refine ⟨?_, happ.trans (by rw [hfire]; rfl), h1⟩
  rw [oneNonceAt_succ (by omega), oneNonceAt_succ (by omega)]
  exact hcore

/-- At rest nothing is reported. -/
theorem Rested.silent_step [Inhabited α] {obs : Engine → α} {w : Option Write} {s : MinerCore α cfg} (h : Rested s)
    (hw : ∀ v, w = some v → v.start = false) : Rested (s.step obs w) ∧ Silent (s.step obs w) := by
  refine ⟨rested_step h.quiet.load h.quiet.pulse h.engines ?_, fun e => ?_⟩
  · cases w with
    | none => rfl
    | some v => simp [MinerCore.startsLoad, hw v rfl]
  · exact (engine_idle_step (h.quiet.pulse e) (h.engines e)).2

/-- Without a start a miner at rest reports nothing. -/
theorem rested_run {s : MinerAxi cfg} {inp : Nat → AxiIn} (hrest : Rested s.core ∧ Silent s.core) {n : Nat}
    (hw : ∀ t < n, ∀ v, MinerAxi.appliedAt inp s t = some v → v.start = false) {t : Nat} (ht : t ≤ n) :
    Rested (Clocked.run MinerAxi.step inp s t).core ∧ Silent (Clocked.run MinerAxi.step inp s t).core := by
  induction t with
  | zero => exact hrest
  | succ t ih => exact (ih (by omega)).1.silent_step (hw t (by omega))

/-- A result that waits when a clear is applied to a miner at rest is captured at that very edge, and stays until the next
write. -/
theorem result_survives_clear {s : MinerAxi cfg} {inp : Nat → AxiIn} (hw : s.applied = some ⟨.control, 4, 0xf⟩)
    (hrest : Rested s.core ∧ Silent s.core) (hcap : s.core.capture ≠ none) {n : Nat}
    (hno : ∀ t, 1 ≤ t → t < n → MinerAxi.appliedAt inp s t = none) {t : Nat} (ht : t ≤ n) :
    (Rested (Clocked.run MinerAxi.step inp s t).core ∧ Silent (Clocked.run MinerAxi.step inp s t).core) ∧
      (1 ≤ t → (Clocked.run MinerAxi.step inp s t).core.resultValidQ = true) := by
  have hstart : ∀ t < n, ∀ v, MinerAxi.appliedAt inp s t = some v → v.start = false := by
    intro t htn v hv
    rcases Nat.eq_zero_or_pos t with rfl | ht
    · obtain rfl := Option.some.inj (hw.symm.trans hv)
      rfl
    · rw [hno t ht htn] at hv
      cases hv
  refine ⟨rested_run hrest hstart ht, fun h1 => ?_⟩
  induction t, h1 using Nat.le_induction with
  | base =>
    obtain ⟨c, hc⟩ := Option.ne_none_iff_exists'.1 hcap
    exact (step_of_capture Engine.resultNonceO _ hc).1
  | succ t h1 ih =>
    refine (result_step_of_valid Engine.resultNonceO (ih (by omega)) fun v hv => ?_).1
    have hnone := hno t h1 (by omega)
    rw [MinerAxi.appliedAt, hv] at hnone
    cases hnone

/-- What that clear finds: a miner at rest, and the result at the head of a FIFO. -/
theorem clearedBehindReport_waits : clearedBehindReport.Reachable ∧
    (Rested clearedBehindReport.core ∧ Silent clearedBehindReport.core) ∧ clearedBehindReport.core.capture ≠ none := by
  rw [clearedBehindReport_eq.1]
  refine ⟨startOneNonce_reachable.run _ _, ?_, oneNonce_queued.2⟩
  rw [oneNonceAt_succ (by omega), oneNonceAt_succ (by omega)]
  exact (oneNonce_rested.silent_step (by simp)).1.silent_step (by simp)

/-- The clear that follows the report does not discard the result. -/
theorem cleared_result_comes_back : ¬ ∀ (cfg : MinerCfg) (s : MinerAxi cfg) (inp : Nat → AxiIn) (w : Write), s.Reachable →
    s.applied = some w → w.start = true ∨ w.clearResults = true →
    (∀ t, Silent (Clocked.run MinerAxi.step inp s t).core) →
    ∃ k, ∀ t, k ≤ t → NothingPending (Clocked.run MinerAxi.step inp s t).core := by
  intro h
  obtain ⟨-, hw, h1⟩ := clearedBehindReport_eq
  obtain ⟨hr, hrest, hcap⟩ := clearedBehindReport_waits
  have hno : ∀ n u, 1 ≤ u → u < n → MinerAxi.appliedAt (busWrites []) clearedBehindReport u = none := fun _ _ hu _ =>
    MinerAxi.applied_none_after (fun u => by simp [busWrites]) hw h1 hu
  have hstays := fun n t (ht : t ≤ n) => result_survives_clear hw hrest hcap (hno n) ht
  obtain ⟨k, hk⟩ := h twoEngines clearedBehindReport (busWrites []) _ hr hw (.inr rfl) fun t => (hstays t t le_rfl).1.2
  have hlow := (hk (k + 1) (by omega)).valid
  rw [(hstays (k + 1) (k + 1) le_rfl).2 (by omega)] at hlow
  cases hlow

/-- The miner when a second clear is applied behind that one. -/
def secondClear : MinerAxi twoEngines := Clocked.run MinerAxi.step (nextWrite (0x000, 4)) clearedBehindReport 5

/-- The second clear finds the result in the register with nothing behind it, and discards it. -/
theorem second_clear_discards : secondClear.core.resultValidQ = true ∧ Discards (busWrites []) secondClear := by
  obtain ⟨-, hw, h1⟩ := clearedBehindReport_eq
  obtain ⟨hr, hrest, hcap⟩ := clearedBehindReport_waits
  obtain ⟨hno, hw', h1'⟩ := nextWrite_applied hw h1 (0x000, 4)
  have hheld := fun t (ht : t ≤ 5) => result_survives_clear hw hrest hcap hno ht
  refine ⟨(hheld 5 le_rfl).2 (by decide), ?_⟩
  have hfifos : FifosClear secondClear.core := fifosClear_after hw (by decide) (by decide) fun u hu => (hheld u (by omega)).1.2
  have hsilent : ∀ t < 3, Silent (Clocked.run MinerAxi.step (busWrites []) secondClear t).core := by
    intro t ht
    refine (rested_run (hheld 5 le_rfl).1 (n := 3) (fun u _ v hv => ?_) ht.le).2
    rcases Nat.eq_zero_or_pos u with rfl | hpos
    · obtain rfl := Option.some.inj (hw'.symm.trans hv)
      rfl
    · rw [MinerAxi.applied_none_after (fun u => by simp [busWrites]) hw' h1' hpos] at hv
      cases hv
  exact (discards_iff secondClear (hr.run _ _) _ _ hw' (.inr rfl) hsilent).2
    ⟨hfifos.pathClear, fun hd => by simp [MinerCore.discards, Write.clearResults, writeSel, wordAddr] at hd⟩

end Comeback

end Vek280Miner.Rtl
