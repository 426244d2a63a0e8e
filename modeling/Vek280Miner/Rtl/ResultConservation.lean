import Mathlib.Algebra.BigOperators.Fin
import Mathlib.Data.Multiset.Basic
import Mathlib.Tactic.Abel
import Vek280Miner.Lib.Balance
import Vek280Miner.Rtl.ResultPath
import Vek280Miner.Rtl.StopWrite

/-!
# Conservation of results

A result that an engine reports passes stage 1, stage 2 and the ring of its cluster and is then captured in the result
register; the ring is popped one edge after the capture. The books of the result path (`fifo_balance`, `core_balance`):
what is in flight before an edge and what the engines report at it is what is captured, what is in flight after it and
what is dropped. An entry whose pop is pending has been captured and is no longer in flight.
-/

namespace Vek280Miner.Rtl

variable {α : Type}

/-! ## One cluster -/

namespace ClusterFifo

variable {cfg : FifoCfg}

/-- The results that an array of ports presents, first port first. -/
def entries (cfg : FifoCfg) (valid : Fin cfg.clusterSize → Bool) (nonce : Fin cfg.clusterSize → α) : List (Word × α) :=
  ((List.finRange cfg.clusterSize).filter valid).map fun l => (engineId cfg l, nonce l)

/-- The results in stage 1. -/
def stage1 (s : ClusterFifo α cfg) : List (Word × α) := entries cfg s.stage1ValidQ s.stage1NonceQ

/-- The results in the ring that have not been captured, where `pop` says that a pop is pending. -/
def queue (pop : Bool) (s : ClusterFifo α cfg) : List (Word × α) := if pop then s.ring.toList.tail else s.ring.toList

/-- The results on their way through the FIFO. -/
def inFlight (pop : Bool) (s : ClusterFifo α cfg) : Multiset (Word × α) :=
  ↑(s.stage1 ++ s.stage2.toList ++ s.queue pop)

/-- The results that the next edge drops: all but the first of stage 1, and stage 2 when the ring does not take it. -/
def dropped (pop : Bool) (s : ClusterFifo α cfg) : Multiset (Word × α) :=
  ↑(s.stage1.tail ++ if s.ring.doPush s.stage2 pop then [] else s.stage2.toList)

/-- The result that reaches the ring at the next edge. -/
def pushed (pop : Bool) (s : ClusterFifo α cfg) : List (Word × α) :=
  if s.clearQ then [] else if s.ring.doPush s.stage2 pop then s.stage2.toList else []

/-- The results that the next edge clears from the ring, where `p` says that it captures the first of them. -/
def cleared (pop p : Bool) (s : ClusterFifo α cfg) : List (Word × α) :=
  if s.clearQ then (s.queue pop).drop (if p then 1 else 0) else []

/-- The overflow indication and the stages that lead to it. -/
def overflowing (s : ClusterFifo α cfg) : Bool := s.overflowO || s.stage2OverflowQ || s.stage1OverflowQ

section Step

variable [Inhabited α] {s : ClusterFifo α cfg} {i : FifoIn α cfg.clusterSize}

theorem stage1_step (h : s.clearQ = false) : (s.step i).stage1 = entries cfg i.engineValid i.engineNonce := by
  simp [step, h, stage1]

/-- Stage 2 takes the first result of stage 1. -/
theorem stage2_step (h : s.clearQ = false) : (s.step i).stage2 = s.stage1.head? := by
  have hhead : s.stage1.head? = (hitIdx s.stage1ValidQ).map fun l => (engineId cfg l, s.stage1NonceQ l) := by
    rw [stage1, entries, List.head?_map, List.head?_filter, hitIdx]
  rw [hhead]
  cases hj : hitIdx s.stage1ValidQ <;> simp [stage2, step, h, hj]

/-- The ring without the entry that is popped, and with the entry that is pushed. -/
theorem ring_toList_step (h : s.clearQ = false) : (s.step i).ring.toList =
    s.queue i.pop ++ if s.ring.doPush s.stage2 i.pop then s.stage2.toList else [] := by
  rw [ring_step i h, Ring.toList_update]
  congr 1
  unfold queue Ring.doPop
  cases hp : i.pop with
  | false => rfl
  | true =>
    by_cases hc : s.ring.count = 0
    · simp [hc, (Ring.toList_eq_nil_iff _).2 hc]
    · simp [hc]

/-- The books of one ring. -/
theorem queue_balance {p : Bool}
    (hpop : p = true → i.pop = false ∧ s.validO = true) :
    ((s.step i).queue p : Multiset (Word × α)) + (if p then {s.ring.head} else 0) + ↑(s.cleared i.pop p) =
      ↑(s.queue i.pop) + ↑(s.pushed i.pop) := by
  have hhead : p = true → ∃ tl, s.ring.toList = s.ring.head :: tl ∧ s.queue i.pop = s.ring.head :: tl := by
    intro hp
    obtain ⟨hi, hv⟩ := hpop hp
    have hne : s.ring.count ≠ 0 := by simpa [validO] using hv
    obtain ⟨tl, htl⟩ : ∃ tl, s.ring.toList = s.ring.head :: tl := List.head?_eq_some_iff.1 (s.ring.head_eq hne)
    exact ⟨tl, htl, by rw [queue, hi]; exact htl⟩
  cases hc : s.clearQ with
  | true =>
    have hring : (s.step i).ring.toList = [] := by simp [step, hc]
    have hq : (s.step i).queue p = [] := by
      unfold queue
      split <;> simp [hring]
    rw [hq]
    cases hp : p with
    | false => simp [cleared, pushed, hc]
    | true =>
      obtain ⟨tl, -, hqueue⟩ := hhead hp
      simp [cleared, pushed, hc, hqueue, ← Multiset.singleton_add, ← Multiset.cons_coe]
  | false =>
    have hstep := ring_toList_step (i := i) hc
    cases hp : p with
    | false => simp [cleared, pushed, hc, queue, hstep]
    | true =>
      obtain ⟨tl, htl, hqueue⟩ := hhead hp
      have hq : (s.step i).queue true = tl ++ if s.ring.doPush s.stage2 i.pop then s.stage2.toList else [] := by
        rw [queue, hstep, hqueue]
        rfl
      rw [hq, hqueue]
      simp only [cleared, pushed, hc, if_true, Bool.false_eq_true, if_false, ← Multiset.coe_add, ← Multiset.cons_coe,
        ← Multiset.singleton_add, Multiset.coe_nil, add_zero]
      abel

/-- The books of one cluster at an edge that does not clear it; `captured` is the head of the ring when it is captured.
-/
theorem fifo_balance (h : s.clearQ = false) {p : Bool} (hpop : p = true → i.pop = false ∧ s.validO = true) :
    (s.step i).inFlight p + (if p then {s.ring.head} else 0) + s.dropped i.pop =
      s.inFlight i.pop + ↑(entries cfg i.engineValid i.engineNonce) := by
  have h2 : (s.stage1 : Multiset (Word × α)) = ↑s.stage1.head?.toList + ↑s.stage1.tail := by cases s.stage1 <;> rfl
  have hq : ((s.step i).queue p : Multiset (Word × α)) + (if p then {s.ring.head} else 0) =
      ↑(s.queue i.pop) + ↑(if s.ring.doPush s.stage2 i.pop then s.stage2.toList else []) := by
    have hbal := queue_balance hpop
    simpa only [cleared, pushed, h, Bool.false_eq_true, if_false, Multiset.coe_nil, add_zero] using hbal
  have hpush : ((if s.ring.doPush s.stage2 i.pop then s.stage2.toList else [] : List (Word × α)) : Multiset (Word × α)) +
      ↑(if s.ring.doPush s.stage2 i.pop then [] else s.stage2.toList) = ↑s.stage2.toList := by
    split <;> simp
  simp only [inFlight, dropped, stage1_step h, stage2_step h, ← Multiset.coe_add]
  calc _ = (((s.step i).queue p : Multiset (Word × α)) + if p then {s.ring.head} else 0) +
          (↑s.stage1.head?.toList + ↑s.stage1.tail) + ↑(if s.ring.doPush s.stage2 i.pop then [] else s.stage2.toList) +
          ↑(entries cfg i.engineValid i.engineNonce) := by abel
    _ = ↑(s.queue i.pop) + ↑s.stage1 + ↑s.stage2.toList + ↑(entries cfg i.engineValid i.engineNonce) := by
        rw [hq, ← h2, ← hpush]
        abel
    _ = _ := by abel

/-- A loss is indicated at the output or in the stage before it. -/
theorem overflow_of_dropped (h : s.clearQ = false) (hd : s.dropped i.pop ≠ 0) :
    (s.step i).overflowO = true ∨ (s.step i).stage2OverflowQ = true := by
  have hne : s.stage1.tail ≠ [] ∨ (s.ring.doPush s.stage2 i.pop = false ∧ s.stage2.isSome = true) := by
    by_contra hn
    rw [not_or, not_not] at hn
    refine hd ?_
    rw [dropped, hn.1]
    cases hp : s.ring.doPush s.stage2 i.pop with
    | true => rfl
    | false =>
      cases h2 : s.stage2 with
      | none => rfl
      | some x => exact absurd ⟨hp, by rw [h2]; rfl⟩ hn.2
  rcases hne with ht | ⟨hp, h2⟩
  · have hcount : 1 < validCount s.stage1ValidQ := by
      have hlen := List.length_pos_iff.2 ht
      rw [List.length_tail, stage1, entries, List.length_map, ← List.countP_eq_length_filter] at hlen
      unfold validCount
      omega
    refine .inr ?_
    simp [step, h, hcount]
  · have hv : s.stage2ValidQ = true := by
      by_contra hn
      simp [stage2, hn] at h2
    refine .inl ?_
    simp [step, h, hp, hv]

theorem overflowing_of_dropped (h : s.clearQ = false) (hd : s.dropped i.pop ≠ 0) : (s.step i).overflowing = true := by
  rcases overflow_of_dropped h hd with ho | ho <;> simp [overflowing, ho]

/-- The indication stays up. -/
theorem overflowing_step (h : s.clearQ = false) (ho : s.overflowing = true) : (s.step i).overflowing = true := by
  simp only [overflowing, Bool.or_eq_true] at ho
  rcases ho with (ho | ho) | ho <;> simp [overflowing, step, h, ho]

end Step

end ClusterFifo

/-! ## All clusters -/

namespace MinerCore

variable {cfg : MinerCfg}

/-- The results that the engines report. -/
def raised (obs : Engine → α) (s : MinerCore α cfg) : Multiset (Word × α) :=
  ∑ e, if (s.engines e).resultValidO then {(BitVec.ofNat 32 e, obs (s.engines e))} else 0

/-- The results on their way to the result register. -/
def inFlight (s : MinerCore α cfg) : Multiset (Word × α) := ∑ c, (s.fifos c).inFlight (s.clusterPopQ c)

/-- The result that the next edge captures. -/
def captured (s : MinerCore α cfg) : Multiset (Word × α) :=
  s.capture.elim 0 fun c => {((s.fifos c).engineIdO, (s.fifos c).nonceO)}

/-- The results that the next edge drops. -/
def dropped (s : MinerCore α cfg) : Multiset (Word × α) := ∑ c, (s.fifos c).dropped (s.clusterPopQ c)

/-- A pop is pending only behind a capture. -/
def PopHeld (s : MinerCore α cfg) : Prop := ∀ c, s.clusterPopQ c = true → s.resultValidQ = true

theorem popHeld_reset [Inhabited α] (engines : Fin cfg.numEngines → Engine) :
    PopHeld (reset engines : MinerCore α cfg) := by
  intro c h
  simp [reset] at h

theorem popHeld_step [Inhabited α] {obs : Engine → α} {w : Option Write} (s : MinerCore α cfg) : PopHeld (s.step obs w) := by
  intro c h
  have hc : s.capture = some c := by simpa [step] using h
  simp [step, hc]

/-! ### Engines and ports -/

theorem coe_filter_map {β γ : Type} (v : β → Bool) (f : β → γ) : ∀ l : List β,
    (((l.filter v).map f : List γ) : Multiset γ) = (l.map fun x => if v x then ({f x} : Multiset γ) else 0).sum
  | [] => rfl
  | x :: l => by
    rw [List.map_cons, List.sum_cons, ← coe_filter_map v f l]
    by_cases hx : v x <;> simp [hx, Multiset.singleton_add]

theorem coe_entries {c : FifoCfg} (valid : Fin c.clusterSize → Bool) (nonce : Fin c.clusterSize → α) :
    (ClusterFifo.entries c valid nonce : Multiset (Word × α)) =
      ∑ l, if valid l then {(ClusterFifo.engineId c l, nonce l)} else 0 := by
  rw [ClusterFifo.entries, coe_filter_map, ← List.ofFn_eq_map, List.sum_ofFn]

theorem numEngines_le (cfg : MinerCfg) : cfg.numEngines ≤ cfg.numClusters * cfg.clusterSize := by
  have hpos := cfg.clusterSize_pos
  have hdm := Nat.div_add_mod (cfg.numEngines + cfg.clusterSize - 1) cfg.clusterSize
  have hmod := Nat.mod_lt (cfg.numEngines + cfg.clusterSize - 1) hpos
  rw [MinerCfg.numClusters, Nat.mul_comm]
  omega

/-- A sum over the ports of all clusters, of which the last may have ports without an engine. -/
theorem sum_ports (cfg : MinerCfg) {M : Type} [AddCommMonoid M] (f : Fin cfg.numEngines → M) :
    (∑ c : Fin cfg.numClusters, ∑ l : Fin cfg.clusterSize,
      if h : c.val * cfg.clusterSize + l.val < cfg.numEngines then f ⟨c.val * cfg.clusterSize + l.val, h⟩ else 0) =
      ∑ e, f e := by
  let g : Nat → M := fun k => if h : k < cfg.numEngines then f ⟨k, h⟩ else 0
  have hprod : (∑ c : Fin cfg.numClusters, ∑ l : Fin cfg.clusterSize, g (c.val * cfg.clusterSize + l.val)) =
      ∑ k : Fin (cfg.numClusters * cfg.clusterSize), g k := by
    rw [← Equiv.sum_comp finProdFinEquiv, Fintype.sum_prod_type]
    refine Finset.sum_congr rfl fun c _ => Finset.sum_congr rfl fun l _ => ?_
    rw [finProdFinEquiv_apply_val, Nat.add_comm, Nat.mul_comm]
  have hrange : (∑ k : Fin (cfg.numClusters * cfg.clusterSize), g k) = ∑ e : Fin cfg.numEngines, g e := by
    rw [Fin.sum_univ_eq_sum_range, Fin.sum_univ_eq_sum_range]
    symm
    refine Finset.sum_subset (Finset.range_mono (numEngines_le cfg)) fun k _ hk => ?_
    exact dif_neg (by simpa using hk)
  refine hprod.trans (hrange.trans (Finset.sum_congr rfl fun e _ => ?_))
  exact dif_pos e.isLt

/-- The results that the engines of a cluster report. -/
def reports [Inhabited α] (obs : Engine → α) (s : MinerCore α cfg) (c : Fin cfg.numClusters) : Multiset (Word × α) :=
  ↑(ClusterFifo.entries (cfg.fifo c) (s.fifoIn obs c).engineValid (s.fifoIn obs c).engineNonce)

/-- Every report is at the port of its engine, with the engine's index. -/
theorem sum_reports [Inhabited α] (obs : Engine → α) (s : MinerCore α cfg) : ∑ c, s.reports obs c = s.raised obs := by
  rw [raised, ← sum_ports]
  refine Finset.sum_congr rfl fun c _ => (coe_entries (c := cfg.fifo c) _ _).trans ?_
  refine Finset.sum_congr rfl fun (l : Fin cfg.clusterSize) _ => ?_
  simp only [fifoIn, engineAt]
  split
  · have hid : ClusterFifo.engineId (cfg.fifo c) l = BitVec.ofNat 32 (c.val * cfg.clusterSize + l.val) :=
      (BitVec.ofNat_add _ _).symm
    rw [hid]
    rfl
  · rfl

/-- The capture takes the head of one ring. -/
theorem sum_captured (s : MinerCore α cfg) :
    (∑ c, if s.capture == some c then ({(s.fifos c).ring.head} : Multiset (Word × α)) else 0) = s.captured := by
  unfold captured
  cases hc : s.capture with
  | none => simp
  | some c =>
    rw [Finset.sum_eq_single c]
    · simp [ClusterFifo.engineIdO, ClusterFifo.nonceO]
    · intro c' _ hne
      simp [Ne.symm hne]
    · simp

/-- A capture finds the result register free and takes an entry whose pop is not pending. -/
theorem PopHeld.capture {s : MinerCore α cfg} (hp : PopHeld s) {c : Fin cfg.numClusters} (hc : s.capture = some c) :
    s.clusterPopQ c = false ∧ (s.fifos c).validO = true := by
  have hfree : s.resultValidQ = false := by
    cases hv : s.resultValidQ with
    | false => rfl
    | true => simp [MinerCore.capture, hv] at hc
  rw [MinerCore.capture, hfree] at hc
  refine ⟨?_, hitIdx_some hc⟩
  cases hpop : s.clusterPopQ c with
  | false => rfl
  | true => rw [hp c hpop] at hfree; exact hfree

/-- The books of one cluster. -/
theorem cluster_balance [Inhabited α] {obs : Engine → α} {w : Option Write} {s : MinerCore α cfg} (hp : PopHeld s)
    {c : Fin cfg.numClusters} (hc : (s.fifos c).clearQ = false) :
    ((s.step obs w).fifos c).inFlight ((s.step obs w).clusterPopQ c) +
      ((if s.capture == some c then {(s.fifos c).ring.head} else 0) + (s.fifos c).dropped (s.clusterPopQ c)) =
      (s.fifos c).inFlight (s.clusterPopQ c) + s.reports obs c := by
  have h := ClusterFifo.fifo_balance (s := s.fifos c) (i := s.fifoIn obs c) hc (p := s.capture == some c)
    fun hpop => hp.capture (by simpa using hpop)
  rw [← add_assoc]
  exact h

/-- **The books at one edge.** -/
theorem core_balance [Inhabited α] {obs : Engine → α} {w : Option Write} {s : MinerCore α cfg} (hp : PopHeld s)
    (hc : ∀ c, (s.fifos c).clearQ = false) :
    (s.step obs w).inFlight + (s.captured + s.dropped) = s.inFlight + s.raised obs := by
  rw [← sum_reports, ← sum_captured]
  unfold inFlight dropped
  rw [← Finset.sum_add_distrib, ← Finset.sum_add_distrib, ← Finset.sum_add_distrib]
  exact Finset.sum_congr rfl fun c _ => cluster_balance hp (hc c)

end MinerCore

/-! ## Segments of a run -/

section Segment

variable {cfg : MinerCfg}

/-- A write that does not set a bit of `CONTROL`. -/
structure Write.LeavesControl (w : Write) : Prop where
  start : w.start = false
  stop : w.stop = false
  clear : w.clearResults = false

/-- No FIFO is being cleared and none is about to be. -/
structure NoClear (s : MinerCore α cfg) : Prop where
  start : s.startPulseQ = false
  stop : s.stopPulseQ = false
  clear : s.clearResultsQ = false
  fifos : ∀ c, (s.fifos c).clearQ = false

theorem noClear_step [Inhabited α] {obs : Engine → α} {w : Option Write} {s : MinerCore α cfg} (h : NoClear s)
    (hw : ∀ v, w = some v → v.LeavesControl) : NoClear (s.step obs w) := by
  refine ⟨?_, ?_, ?_, fun c => ?_⟩
  · cases w with
    | none => rfl
    | some v => simp [MinerCore.step, MinerCore.startsLoad, (hw v rfl).start]
  · cases w with
    | none => rfl
    | some v => exact (hw v rfl).stop
  · cases w with
    | none => rfl
    | some v => exact (hw v rfl).clear
  · exact (ClusterFifo.clearQ_step _).trans (by simp [MinerCore.fifoIn, h.start, h.stop, h.clear])

/-- The pair in the result register. -/
def MinerCore.resultPair (s : MinerCore α cfg) : Word × α := (s.resultEngineQ, s.resultNonceQ)

/-- A capture loads the pair into the result register. -/
theorem resultPair_of_captured [Inhabited α] {obs : Engine → α} {w : Option Write} {s : MinerCore α cfg} {x : Word × α}
    (hx : x ∈ s.captured) : (s.step obs w).resultPair = x := by
  unfold MinerCore.captured at hx
  cases hc : s.capture with
  | none => simp [hc] at hx
  | some c =>
    rw [hc] at hx
    rw [Multiset.mem_singleton.1 hx]
    simp [MinerCore.resultPair, MinerCore.step, hc]

/-- A pair in the result register stays there. -/
theorem resultPair_step [Inhabited α] {obs : Engine → α} {w : Option Write} {s : MinerCore α cfg}
    (hv : s.resultValidQ = true) : (s.step obs w).resultPair = s.resultPair ∧ s.captured = 0 := by
  have hc : s.capture = none := by simp [MinerCore.capture, hv]
  exact ⟨by simp [MinerCore.resultPair, MinerCore.step, hc], by simp [MinerCore.captured, hc]⟩

/-- From a state with a valid pair on, until a write with bit 0 to `RESULT_STATUS`. -/
theorem resultPair_run [Inhabited α] {obs : Engine → α} {ws : Nat → Option Write} {s : MinerCore α cfg} {a b : Nat}
    (hab : a ≤ b) (hv : (Clocked.run (MinerCore.step obs) ws s a).resultValidQ = true)
    (hw : ∀ t, a ≤ t → t < b → ∀ v, ws t = some v → v.LeavesControl ∧ v.clearValid = false) :
    (Clocked.run (MinerCore.step obs) ws s b).resultValidQ = true ∧
      (Clocked.run (MinerCore.step obs) ws s b).resultPair = (Clocked.run (MinerCore.step obs) ws s a).resultPair := by
  induction b, hab using Nat.le_induction with
  | base => exact ⟨hv, rfl⟩
  | succ b hab ih =>
    obtain ⟨ihv, ihp⟩ := ih fun t ht ht' => hw t ht (by omega)
    refine ⟨?_, (resultPair_step ihv).1.trans ihp⟩
    refine (result_step_of_valid obs ihv fun v hb => ?_).1
    obtain ⟨hl, hc⟩ := hw b hab (by omega) v hb
    exact ⟨hc, hl.clear, hl.start⟩

variable (st : Nat → MinerCore Word cfg)

/-- The results reported up to cycle `t`, and what was in flight at the beginning, are split into those that were
captured, those that are in flight and those that were dropped. -/
def Accounted (t : Nat) : Prop :=
  (st 0).inFlight + ∑ u ∈ Finset.range t, (st u).raised Engine.resultNonceO =
    (∑ u ∈ Finset.range t, (st u).captured) + (st t).inFlight + ∑ u ∈ Finset.range t, (st u).dropped

/-- The accesses of `miner_read_result` at `t0` to `t3` see one pair, and the write at `t3` discards no other. -/
def ReadsPair (t0 t1 t2 t3 : Nat) : Prop :=
  readReg id (st t1) 0x090 = (st t0).resultNonceQ ∧ readReg id (st t2) 0x094 = (st t0).resultEngineQ ∧
    (st t3).resultValidQ = true ∧ (st t3).resultPair = (st t0).resultPair ∧ (st t3).captured = 0

/-- What the result path promises for the first `n` cycles of a segment. -/
structure Conserves (clears : Nat → Prop) (n : Nat) : Prop where
  accounted : ∀ t ≤ n, Accounted st t
  loaded : ∀ t < n, ∀ x ∈ (st t).captured, (st (t + 1)).resultPair = x
  held : ∀ t < n, (st (t + 1)).resultPair ≠ (st t).resultPair → (st t).resultValidQ = false
  coherent : ∀ t0 t1 t2 t3, t0 ≤ t1 → t1 ≤ t2 → t2 ≤ t3 → t3 < n → readReg id (st t0) 0x098 &&& 1 ≠ 0 →
    (∀ t, t0 ≤ t → t < t3 → ¬ clears t) → ReadsPair st t0 t1 t2 t3
  indicated : ∀ t ≤ n, ∀ c, (∑ u ∈ Finset.range t, ((st u).fifos c).dropped ((st u).clusterPopQ c)) ≠ 0 →
    ((st t).fifos c).overflowing = true

theorem reachable_popHeld {s : MinerAxi cfg} (h : s.Reachable) : s.core.PopHeld := by
  refine Clocked.Reachable.invariant (P := fun s => s.core.PopHeld) ?_ ?_ h
  · rintro s ⟨engines, rfl⟩
    exact MinerCore.popHeld_reset engines
  · intro i s _
    exact MinerCore.popHeld_step s.core

/-- Bit 0 of `RESULT_STATUS`. -/
theorem readReg_resultStatus (view : α → Word) (s : MinerCore α cfg) :
    readReg view s 0x098 &&& 1 ≠ 0 ↔ s.resultValidQ = true := by
  have h : readReg view s 0x098 = flags [s.resultValidQ, s.overflowQ] := rfl
  rw [h]
  cases s.resultValidQ <;> cases s.overflowQ <;> decide

/-- **Conservation.** In every segment of a run in which `CONTROL` is left alone and no FIFO is being cleared, no result
is lost without being indicated and none is captured twice. -/
theorem results_conserved (s : MinerAxi cfg) (hr : s.Reachable) (inp : Nat → AxiIn) (n : Nat) (hclear : NoClear s.core)
    (hw : ∀ t < n, ∀ w, MinerAxi.appliedAt inp s t = some w → w.LeavesControl) :
    Conserves (fun t => (Clocked.run MinerAxi.step inp s t).core)
      (fun t => ∃ w, MinerAxi.appliedAt inp s t = some w ∧ w.clearValid = true) n := by
  have hno : ∀ t ≤ n, NoClear (Clocked.run MinerAxi.step inp s t).core := by
    intro t
    induction t with
    | zero => exact fun _ => hclear
    | succ t ih => exact fun ht => noClear_step (ih (by omega)) (hw t ht)
  have hpop : ∀ t, (Clocked.run MinerAxi.step inp s t).core.PopHeld := fun t => reachable_popHeld (hr.run inp t)
  refine ⟨fun t ht => ?_, fun t _ x hx => resultPair_of_captured hx, fun t _ hne => ?_,
    fun t0 t1 t2 t3 h01 h12 h23 ht hs hc => ?_,
    fun t => ?_⟩
  · have hstep : ∀ u < n, (Clocked.run MinerAxi.step inp s (u + 1)).core.inFlight +
        ((Clocked.run MinerAxi.step inp s u).core.captured + (Clocked.run MinerAxi.step inp s u).core.dropped) =
        (Clocked.run MinerAxi.step inp s u).core.inFlight +
          (Clocked.run MinerAxi.step inp s u).core.raised Engine.resultNonceO := by
      intro u hu
      exact MinerCore.core_balance (w := MinerAxi.appliedAt inp s u) (hpop u) (hno u (by omega)).fifos
    have hbal := Clocked.run_balance (fun m : MinerAxi cfg => m.core.inFlight)
      (fun (_ : AxiIn) m => m.core.raised Engine.resultNonceO) (fun (_ : AxiIn) m => m.core.captured + m.core.dropped)
      hstep t ht
    rw [Finset.sum_add_distrib] at hbal
    refine hbal.trans ?_
    abel
  · by_contra hv
    exact hne (resultPair_step (by simpa using hv)).1
  · have hv := (readReg_resultStatus id _).1 hs
    have hquiet : ∀ t, t0 ≤ t → t < t3 → ∀ w, MinerAxi.appliedAt inp s t = some w →
        w.LeavesControl ∧ w.clearValid = false := by
      intro t h0 h3 w hap
      refine ⟨hw t (by omega) w hap, Bool.eq_false_iff.2 fun hcl => hc t h0 h3 ⟨w, hap, hcl⟩⟩
    have hpair : ∀ t, t0 ≤ t → t ≤ t3 → (Clocked.run MinerAxi.step inp s t).core.resultValidQ = true ∧
        (Clocked.run MinerAxi.step inp s t).core.resultPair = (Clocked.run MinerAxi.step inp s t0).core.resultPair := by
      intro t h0 h3
      rw [MinerAxi.core_run, MinerAxi.core_run]
      rw [MinerAxi.core_run] at hv
      exact resultPair_run h0 hv fun u hu hu' => hquiet u hu (by omega)
    obtain ⟨hv3, hp3⟩ := hpair t3 (by omega) le_rfl
    refine ⟨?_, ?_, hv3, hp3, (@resultPair_step _ _ _ Engine.resultNonceO none _ hv3).2⟩
    · exact congrArg Prod.snd (hpair t1 (by omega) (by omega)).2
    · exact congrArg Prod.fst (hpair t2 (by omega) (by omega)).2
  · -- the indication is sticky, and every edge that drops something raises it
    intro ht c
    induction t with
    | zero => exact fun h => absurd (Finset.sum_range_zero _) h
    | succ t ih =>
      rw [Finset.sum_range_succ]
      intro hne
      have hcq := (hno t (by omega)).fifos c
      by_cases hd : ((Clocked.run MinerAxi.step inp s t).core.fifos c).dropped
          ((Clocked.run MinerAxi.step inp s t).core.clusterPopQ c) = 0
      · rw [hd, add_zero] at hne
        exact ClusterFifo.overflowing_step hcq (ih (by omega) hne)
      · exact ClusterFifo.overflowing_of_dropped (i := MinerCore.fifoIn _ _ c) hcq hd

end Segment

/-- Two engines that have just been started for two nonces, which both meet the target. -/
def startedPair : MinerAxi twoEngines :=
  Clocked.run MinerAxi.step (busWrites [(0x084, 2), (0x000, 1)]) (MinerAxi.reset fun _ => default) 12

theorem started_pair_conserves : Conserves (fun t => (Clocked.run MinerAxi.step (fun _ => default) startedPair t).core)
    (fun t => ∃ w, MinerAxi.appliedAt (fun _ => default) startedPair t = some w ∧ w.clearValid = true) 5000 := by
  have hclear : NoClear startedPair.core := ⟨by decide +kernel, by decide +kernel, by decide +kernel, by decide +kernel⟩
  refine results_conserved startedPair (Clocked.Reachable.run (.init ⟨_, rfl⟩) _ _) _ 5000 hclear fun t _ w hw => ?_
  rw [MinerAxi.applied_none (fun _ => rfl) (by decide +kernel) (by decide +kernel)] at hw
  cases hw

end Vek280Miner.Rtl
