import Mathlib.Algebra.Order.BigOperators.Group.Finset
import Mathlib.Order.Lattice.Nat
import Vek280Miner.Rtl.GenuineResults
import Vek280Miner.Rtl.ResultConservation
import Vek280Miner.Rtl.RunningStatus
import Vek280Miner.Software.RangePartition

/-!
# The accounts of a scan

A start finds the instance at rest, and what the host writes afterwards are answers to results and interrupts. Such
writes reach neither the loader nor the engines (`run_work`), so every engine scans its share of the range at the time
that the load sequence gives it. The shares that the engines find are then those of the range, each of them once, and
all of them are captured, on their way or dropped; a drop leaves `overflow_q` up (`scan_accounts`).
-/

namespace Vek280Miner.Rtl

open Clocked (run run_succ)

variable {α : Type} [Inhabited α] {cfg : MinerCfg}

/-! ## Writes that leave the scan alone -/

/-- An answer to a result or an interrupt. -/
def Write.Polls (w : Write) : Prop := w.sel = .resultStatus ∨ w.sel = .irqControl ∨ w.sel = .unmapped

instance (w : Write) : Decidable w.Polls := inferInstanceAs (Decidable (_ ∨ _))

/-- The registers of the loader and the engines; those of the results are as after reset. -/
def MinerCore.work (s : MinerCore α cfg) : MinerCore α cfg :=
  { s with
    overflowQ := false
    resultValidQ := false
    irqMaskQ := false
    irqForceQ := false
    resultNonceQ := default
    resultEngineQ := 0
    clusterPopQ := fun _ => false
    fifos := fun _ => ClusterFifo.reset cfg.clusterFifoDepth_pos }

section Work

variable {obs : Engine → α} {ws : Nat → Option Write} {s : MinerCore α cfg}

theorem work_step (w : Option Write) (s : MinerCore α cfg) : (s.step obs w).work = (s.work.step obs w).work := rfl

theorem work_polls {v : Write} (hv : v.Polls) (s : MinerCore α cfg) :
    (s.step obs (some v)).work = (s.step obs none).work := by
  obtain ⟨sel, data, strb⟩ := v
  rcases hv with hsel | hsel | hsel
  all_goals
    dsimp only at hsel
    subst hsel
    rfl

/-- The first write alone. -/
def onlyFirst (ws : Nat → Option Write) (t : Nat) : Option Write := if t = 0 then ws 0 else none

/-- Answers to results and interrupts do not reach the loader and the engines. -/
theorem run_work (hw : ∀ t, 1 ≤ t → ∀ v, ws t = some v → v.Polls) :
    ∀ t, (run (MinerCore.step obs) ws s t).work = (run (MinerCore.step obs) (onlyFirst ws) s t).work
  | 0 => rfl
  | t + 1 => by
    have hsame : ((run (MinerCore.step obs) ws s t).step obs (ws t)).work =
        ((run (MinerCore.step obs) ws s t).step obs (onlyFirst ws t)).work := by
      rcases Nat.eq_zero_or_pos t with rfl | ht
      · rfl
      · rw [onlyFirst, if_neg (Nat.pos_iff_ne_zero.1 ht)]
        cases hv : ws t with
        | none => rfl
        | some v => exact work_polls (hw t ht v hv) _
    rw [run_succ, run_succ, hsame, work_step, run_work hw t, ← work_step]

end Work

/-! ## The engines -/

/-- The first edge applies a start to an instance at rest, and what is applied later leaves the scan alone. -/
structure RestedStart (ws : Nat → Option Write) (w : Write) (s : MinerCore α cfg) : Prop where
  applied : ws 0 = some w
  start : w.start = true
  stop : w.stop = false
  rest : AtRest s
  free : ∀ e, (s.engines e).Unused
  silent : ∀ e, (s.engines e).resultValidO = false
  polls : ∀ t, 1 ≤ t → ∀ v, ws t = some v → v.Polls

section Engines

variable {obs : Engine → α} {ws : Nat → Option Write} {w : Write} {s : MinerCore α cfg} {e : Fin cfg.numEngines}

/-- The edges from the start write on that lead an engine to the end of its scan. -/
def scanEnd (cfg : MinerCfg) (count : Word) (e : Fin cfg.numEngines) : Nat :=
  if share cfg count e = 0 then 0 else 5 + 3 * e + (share cfg count e).toNat * evalCycles cfg.engine

omit [Inhabited α] in
theorem RestedStart.alone (h : RestedStart ws w s) : StartWrite (onlyFirst ws) w s :=
  ⟨h.applied, h.start, h.stop, h.rest.quiet.load, fun _ ht => if_neg (Nat.pos_iff_ne_zero.1 ht)⟩

/-- The engines and their ports are as if nothing were applied after the start. -/
theorem RestedStart.same (h : RestedStart ws w s) (t : Nat) :
    (run (MinerCore.step obs) ws s t).engines = (run (MinerCore.step obs) (onlyFirst ws) s t).engines ∧
      (run (MinerCore.step obs) ws s t).engineStartQ = (run (MinerCore.step obs) (onlyFirst ws) s t).engineStartQ ∧
      (run (MinerCore.step obs) ws s t).engineStopQ = (run (MinerCore.step obs) (onlyFirst ws) s t).engineStopQ := by
  have hwork := @run_work _ _ _ obs _ s h.polls t
  exact ⟨(congrArg MinerCore.engines hwork :), (congrArg MinerCore.engineStartQ hwork :),
    (congrArg MinerCore.engineStopQ hwork :)⟩

theorem RestedStart.pulse_iff (h : RestedStart ws w s) (t : Nat) (e : Fin cfg.numEngines) :
    (run (MinerCore.step obs) ws s t).engineStartQ e = true ↔ t = 4 + 3 * e.val ∧ share cfg s.nonceCountQ e ≠ 0 := by
  rcases Nat.eq_zero_or_pos t with rfl | ht
  · rw [Clocked.run_zero, h.rest.quiet.pulse e]
    simp only [Bool.false_eq_true, false_iff, not_and]
    omega
  · rw [(h.same t).2.1]
    exact h.alone.engineStart_iff obs ht e

/-- An engine that gets no pulse stays unused. -/
theorem unused_run {a b : Nat} (hab : a ≤ b) (hu : ((run (MinerCore.step obs) ws s a).engines e).Unused)
    (hp : ∀ t, a ≤ t → t < b → (run (MinerCore.step obs) ws s t).engineStartQ e = false) :
    ((run (MinerCore.step obs) ws s b).engines e).Unused := by
  induction b, hab using Nat.le_induction with
  | base => exact hu
  | succ b hab ih =>
    have hub := ih fun t ht htb => hp t ht (Nat.lt_succ_of_lt htb)
    exact unused_step hub (hp b hab (Nat.lt_succ_self b))

/-- Up to its pulse an engine is unused. -/
theorem RestedStart.unused_before (h : RestedStart ws w s) {t : Nat} (ht : t ≤ 4 + 3 * e.val) :
    ((run (MinerCore.step obs) ws s t).engines e).Unused := by
  refine unused_run (Nat.zero_le t) (h.free e) fun u _ hu => ?_
  rw [← Bool.not_eq_true, h.pulse_iff]
  omega

/-- An engine without a share is unused throughout. -/
theorem RestedStart.unused_of_share (h : RestedStart ws w s) (hz : share cfg s.nonceCountQ e = 0) (t : Nat) :
    ((run (MinerCore.step obs) ws s t).engines e).Unused := by
  refine unused_run (Nat.zero_le t) (h.free e) fun u _ _ => ?_
  rw [← Bool.not_eq_true, h.pulse_iff]
  exact fun hp => hp.2 hz

/-- The scan of an engine. -/
theorem RestedStart.scanAt (h : RestedStart ws w s) {a : Nat}
    (ha : a < (share cfg s.nonceCountQ e).toNat * evalCycles cfg.engine) :
    ScanAt cfg.engine s.job (s.nonceStartQ + BitVec.ofNat 32 e) (share cfg s.nonceCountQ e) a
      ((run (MinerCore.step obs) ws s (5 + 3 * e + a)).engines e) := by
  have hz : share cfg s.nonceCountQ e ≠ 0 := fun h0 => by simp [h0] at ha
  have hu : ((run (MinerCore.step obs) ws s (4 + 3 * e)).engines e).Unused := h.unused_before le_rfl
  rw [(h.same _).1] at hu ⊢
  apply h.alone.scans obs hz ⟨fun _ => hu.launch, fun hl => absurd hu.idle (by simp [hl])⟩ hu.idle
  · simp [Engine.coreFree, hu.core]
  · exact ha

theorem RestedStart.stop_low (h : RestedStart ws w s) {t : Nat} (ht : 1 ≤ t) (e : Fin cfg.numEngines) :
    (run (MinerCore.step obs) ws s t).engineStopQ e = false := by
  rw [(h.same t).2.2]
  exact h.alone.stop_low obs ht e

/-- The last edge of a scan leaves the engine unused. -/
theorem unused_of_finish {c : EngineCfg} {i : EngineIn} {L : Latched} {n k : Word} {a : Nat} {s : Engine}
    (h : ScanAt c L n k a s) (hi : i.stop = false) (ha : a + 1 = k.toNat * evalCycles c) : (s.step c i).Unused := by
  have hE := evalCycles_pos c
  have hmod : a % evalCycles c = 14 + 2 * coreCycles c.core := by
    have hev : evalCycles c = 2 * coreCycles c.core + 15 := rfl
    have hlast : (a + 1) % evalCycles c = 0 := by rw [ha, Nat.mul_mod_left]
    have hlt := Nat.mod_lt a hE
    have hdiv := Nat.div_add_mod (a + 1) (evalCycles c)
    have hdiv' := Nat.div_add_mod a (evalCycles c)
    have hsucc := div_succ hE a
    split at hsucc
    · omega
    · rw [hsucc] at hdiv
      omega
  obtain ⟨hidle, -⟩ := scanAt_finish h hi ha
  unfold ScanAt at h
  rw [hmod] at h
  obtain ⟨-, hst, hc, hb⟩ := evalAt_check h
  refine ⟨hidle, ?_, ?_⟩
  · rw [step_check hi hst] at hidle ⊢
    split at hidle
    · rw [if_pos (by assumption)]
      rfl
    · simp at hidle
  · rw [step_core]
    exact core_stays_idle hb hc

/-- After its scan an engine is unused. -/
theorem RestedStart.unused_after (h : RestedStart ws w s) {t : Nat} (ht : scanEnd cfg s.nonceCountQ e ≤ t) :
    ((run (MinerCore.step obs) ws s t).engines e).Unused := by
  by_cases hz : share cfg s.nonceCountQ e = 0
  · exact h.unused_of_share hz t
  · have hpos : 0 < (share cfg s.nonceCountQ e).toNat := Nat.pos_of_ne_zero fun h0 => hz (BitVec.eq_of_toNat_eq h0)
    obtain ⟨a, ha⟩ : ∃ a, (share cfg s.nonceCountQ e).toNat * evalCycles cfg.engine = a + 1 :=
      ⟨_, (Nat.sub_add_cancel (Nat.mul_pos hpos (evalCycles_pos cfg.engine))).symm⟩
    rw [scanEnd, if_neg hz, ha, ← Nat.add_assoc] at ht
    refine unused_run ht ?_ fun u hu _ => ?_
    · have hstop : (run (MinerCore.step obs) ws s (5 + 3 * e + a)).engineStopQ e = false := h.stop_low (by omega) e
      exact unused_of_finish (i := MinerCore.engineIn _ e) (h.scanAt (by omega)) hstop ha.symm
    · rw [← Bool.not_eq_true, h.pulse_iff]
      omega

end Engines

/-! ## What the engines report -/

section Reports

variable {ws : Nat → Option Write} {w : Write} {s : MinerCore Word cfg}

omit [Inhabited α] in
/-- A list of lists, counted. -/
theorem coe_flatMap_finRange {β : Type} {n : Nat} (f : Fin n → List β) :
    ((List.finRange n).flatMap f : Multiset β) = ∑ i, (f i : Multiset β) := by
  rw [← Multiset.coe_bind]
  rfl

theorem raised_nonces (s : MinerCore Word cfg) :
    (s.raised Engine.resultNonceO).map Prod.snd = ∑ e, ((s.engines e).reported.toList : Multiset Word) := by
  rw [MinerCore.raised, ← Multiset.coe_mapAddMonoidHom, map_sum]
  refine Finset.sum_congr rfl fun e _ => ?_
  unfold Engine.reported
  split <;> simp

/-- The nonces that engine `e` reports at the first `n` edges. -/
def reportedBy (ws : Nat → Option Write) (s : MinerCore Word cfg) (e : Fin cfg.numEngines) (n : Nat) : Multiset Word :=
  ∑ t ∈ Finset.range n,
    (((run (MinerCore.step Engine.resultNonceO) ws s t).engines e).reported.toList : Multiset Word)

/-- An unused engine has nothing to report, but for what it reported before the first edge. -/
theorem RestedStart.reported_of_unused (h : RestedStart ws w s) {t : Nat} {e : Fin cfg.numEngines}
    (hu : ((run (MinerCore.step Engine.resultNonceO) ws s t).engines e).Unused) :
    ((run (MinerCore.step Engine.resultNonceO) ws s t).engines e).reported = none := by
  have hv : ((run (MinerCore.step Engine.resultNonceO) ws s t).engines e).resultValidO = false := by
    cases t with
    | zero => exact h.silent e
    | succ t =>
      by_contra hn
      exact reportsBusy_step _ e (eq_true_of_ne_false hn) hu.idle
  simp [Engine.reported, hv]

/-- The shares among the nonces of the first `n` edges of the scan of engine `e`. -/
theorem RestedStart.reportedBy_scan (h : RestedStart ws w s) {e : Fin cfg.numEngines} {a : Nat}
    (ha : a ≤ (share cfg s.nonceCountQ e).toNat * evalCycles cfg.engine) :
    reportedBy ws s e (5 + 3 * e + a) = ((((List.range (a / evalCycles cfg.engine)).map
      (scanNonce cfg.engine (s.nonceStartQ + BitVec.ofNat 32 e))).filter (fun x => IsShare s.job x) : List Word) :
        Multiset Word) := by
  have hbefore : ∑ t ∈ Finset.range (5 + 3 * e.val),
      (((run (MinerCore.step Engine.resultNonceO) ws s t).engines e).reported.toList : Multiset Word) = 0 := by
    refine Finset.sum_eq_zero fun t ht => ?_
    rw [h.reported_of_unused (h.unused_before (Nat.le_of_lt_succ (by have := Finset.mem_range.1 ht; omega)))]
    rfl
  -- the engine of the instance is a run of the engine under its ports
  have hengine : ∀ u, run (Engine.step cfg.engine)
      (fun u => (run (MinerCore.step Engine.resultNonceO) ws s (5 + 3 * e + u)).engineIn e)
      ((run (MinerCore.step Engine.resultNonceO) ws s (5 + 3 * e)).engines e) u =
        (run (MinerCore.step Engine.resultNonceO) ws s (5 + 3 * e + u)).engines e := by
    intro u
    induction u with
    | zero => rfl
    | succ u ih =>
      rw [run_succ, ih, ← Nat.add_assoc, run_succ]
      rfl
  have hscan : ∀ u < a, ScanAt cfg.engine s.job (s.nonceStartQ + BitVec.ofNat 32 e) (share cfg s.nonceCountQ e) u
      (run (Engine.step cfg.engine)
        (fun u => (run (MinerCore.step Engine.resultNonceO) ws s (5 + 3 * e + u)).engineIn e)
        ((run (MinerCore.step Engine.resultNonceO) ws s (5 + 3 * e)).engines e) u) := by
    intro u hu
    rw [hengine]
    exact h.scanAt (e := e) (a := u) (by omega)
  have hevents := (scan_events hscan).2
  have hcount := @Clocked.coe_events _ _ (Engine.step cfg.engine) _ (fun _ m => m.reported)
    (fun u => (run (MinerCore.step Engine.resultNonceO) ws s (5 + 3 * e + u)).engineIn e)
    ((run (MinerCore.step Engine.resultNonceO) ws s (5 + 3 * e)).engines e) a
  rw [hevents] at hcount
  simp only [hengine] at hcount
  rw [reportedBy, Finset.sum_range_add, hbefore, zero_add, hcount]

/-- Once its scan has ended an engine reports no more. -/
theorem RestedStart.reportedBy_end (h : RestedStart ws w s) {e : Fin cfg.numEngines} {m n : Nat}
    (hm : scanEnd cfg s.nonceCountQ e ≤ m) (hmn : m ≤ n) : reportedBy ws s e n = reportedBy ws s e m := by
  obtain ⟨d, rfl⟩ := Nat.exists_eq_add_of_le hmn
  rw [reportedBy, Finset.sum_range_add, Finset.sum_eq_zero (s := Finset.range d) fun t _ => ?_, add_zero]
  · rfl
  · rw [h.reported_of_unused (h.unused_after (by omega))]
    rfl

/-- An engine has reported the shares of its part of the range when its scan has ended. -/
theorem RestedStart.reportedBy_all (h : RestedStart ws w s) {e : Fin cfg.numEngines} {n : Nat}
    (hn : scanEnd cfg s.nonceCountQ e ≤ n) : reportedBy ws s e n =
      (((Sw.engineNonces cfg (s.nonceStartQ, s.nonceCountQ) e).filter (fun x => IsShare s.job x) : List Word) :
        Multiset Word) := by
  rw [h.reportedBy_end le_rfl hn, Sw.engineNonces]
  by_cases hz : share cfg s.nonceCountQ e = 0
  · rw [scanEnd, if_pos hz, hz]
    rfl
  · rw [scanEnd, if_neg hz, h.reportedBy_scan le_rfl, Nat.mul_div_cancel _ (evalCycles_pos cfg.engine)]

/-- The shares that an engine has reported are among those of its part of the range. -/
theorem RestedStart.reportedBy_le (h : RestedStart ws w s) (e : Fin cfg.numEngines) (n : Nat) : reportedBy ws s e n ≤
    (((Sw.engineNonces cfg (s.nonceStartQ, s.nonceCountQ) e).filter (fun x => IsShare s.job x) : List Word) :
      Multiset Word) := by
  rw [← h.reportedBy_all (le_max_right n (scanEnd cfg s.nonceCountQ e))]
  exact Finset.sum_le_sum_of_subset (Finset.range_mono (le_max_left _ _))

/-- The shares of a job in a range. -/
def sharesIn (L : Latched) (range : Word × Word) : Multiset Word :=
  ((Sw.segment range).filter (fun x => IsShare L x) : List Word)

/-- The shares that the engines of an instance have to find are those of its range. -/
theorem sum_engine_shares (cfg : MinerCfg) (L : Latched) (range : Word × Word) :
    ∑ e, (((Sw.engineNonces cfg range e).filter (fun x => IsShare L x) : List Word) : Multiset Word) = sharesIn L range := by
  rw [← coe_flatMap_finRange, ← List.filter_flatMap]
  exact Multiset.coe_eq_coe.2 ((Sw.instanceNonces_perm cfg range).filter _)

/-- The edges that lead all engines to the end of their scans. -/
def scanEdges (cfg : MinerCfg) (count : Word) : Nat := Finset.univ.sup (scanEnd cfg count)

/-- What the engines report at the first `n` edges. -/
theorem RestedStart.sum_raised (h : RestedStart ws w s) (n : Nat) :
    (∑ t ∈ Finset.range n, (run (MinerCore.step Engine.resultNonceO) ws s t).raised Engine.resultNonceO).map Prod.snd ≤
        sharesIn s.job (s.nonceStartQ, s.nonceCountQ) ∧
      (scanEdges cfg s.nonceCountQ ≤ n →
        (∑ t ∈ Finset.range n, (run (MinerCore.step Engine.resultNonceO) ws s t).raised Engine.resultNonceO).map Prod.snd =
          sharesIn s.job (s.nonceStartQ, s.nonceCountQ)) := by
  have hsum : (∑ t ∈ Finset.range n, (run (MinerCore.step Engine.resultNonceO) ws s t).raised Engine.resultNonceO).map
      Prod.snd = ∑ e, reportedBy ws s e n := by
    rw [← Multiset.coe_mapAddMonoidHom, map_sum, Multiset.coe_mapAddMonoidHom]
    simp only [raised_nonces, reportedBy]
    exact Finset.sum_comm
  rw [hsum, ← sum_engine_shares]
  refine ⟨Finset.sum_le_sum fun e _ => h.reportedBy_le e n, fun hn => Finset.sum_congr rfl fun e _ => ?_⟩
  exact h.reportedBy_all (le_trans (Finset.le_sup (f := scanEnd cfg s.nonceCountQ) (Finset.mem_univ e)) hn)

end Reports

/-! ## The result path -/

section Path

variable {ws : Nat → Option Write} {w : Write} {s : MinerCore Word cfg}

omit [Inhabited α] in
theorem ClusterFifo.empty_lists {c : FifoCfg} {f : ClusterFifo α c} (h : f.All fun _ => False) :
    f.stage1 = [] ∧ f.stage2 = none ∧ f.ring.toList = [] := by
  refine ⟨?_, ?_, List.eq_nil_iff_forall_not_mem.2 h.ring⟩
  · rw [stage1, entries, List.map_eq_nil_iff, List.filter_eq_nil_iff]
    exact fun l _ hl => h.stage1 l hl
  · rw [stage2, if_neg h.stage2]

omit [Inhabited α] in
/-- An empty result path has nothing in flight and drops nothing. -/
theorem AllResults.nothing {m : MinerCore α cfg} (h : AllResults (fun _ => False) m) : m.inFlight = 0 ∧ m.dropped = 0 := by
  refine ⟨Finset.sum_eq_zero fun c _ => ?_, Finset.sum_eq_zero fun c _ => ?_⟩
  all_goals obtain ⟨h1, h2, hr⟩ := ClusterFifo.empty_lists (h c)
  · have hq : (m.fifos c).queue (m.clusterPopQ c) = [] := by
      unfold ClusterFifo.queue
      split <;> simp [hr]
    rw [ClusterFifo.inFlight, h1, h2, hq]
    rfl
  · rw [ClusterFifo.dropped, h1, h2]
    split <;> rfl

/-- Until the first pulse nothing is on its way. -/
theorem RestedStart.empty (h : RestedStart ws w s) {t : Nat} (ht : t ≤ 4) :
    AllResults (fun _ => False) (run (MinerCore.step Engine.resultNonceO) ws s t) := by
  induction t with
  | zero => exact h.rest.path
  | succ t ih =>
    refine allResults_step (fun e he => ?_) (ih (by omega))
    have hnone := h.reported_of_unused (e := e) (h.unused_before (t := t) (by omega))
    simp [Engine.reported, he] at hnone

/-- From the third edge on no FIFO is cleared. -/
theorem RestedStart.noClear (h : RestedStart ws w s) {t : Nat} (ht : 3 ≤ t) (c : Fin cfg.numClusters) :
    ((run (MinerCore.step Engine.resultNonceO) ws s t).fifos c).clearQ = false := by
  obtain ⟨u, rfl⟩ : ∃ u, t = u + 1 + 1 := ⟨t - 2, by omega⟩
  have hwrite : ∀ v, ws u = some v → v.start = false ∧ v.stop = false ∧ v.clearResults = false := by
    intro v hv
    obtain ⟨sel, data, strb⟩ := v
    rcases h.polls u (by omega) _ hv with hsel | hsel | hsel
    all_goals
      dsimp only at hsel
      subst hsel
      exact ⟨rfl, rfl, rfl⟩
  rw [run_succ]
  refine (ClusterFifo.clearQ_step _).trans ?_
  rw [run_succ]
  cases hv : ws u with
  | none => rfl
  | some v =>
    obtain ⟨h1, h2, h3⟩ := hwrite v hv
    simp [MinerCore.fifoIn, MinerCore.step, MinerCore.startsLoad, h1, h2, h3]

/-- The books of every edge. -/
theorem RestedStart.balance (h : RestedStart ws w s) (t : Nat) :
    (run (MinerCore.step Engine.resultNonceO) ws s (t + 1)).inFlight +
        ((run (MinerCore.step Engine.resultNonceO) ws s t).captured +
          (run (MinerCore.step Engine.resultNonceO) ws s t).dropped) =
      (run (MinerCore.step Engine.resultNonceO) ws s t).inFlight +
        (run (MinerCore.step Engine.resultNonceO) ws s t).raised Engine.resultNonceO := by
  rcases Nat.lt_or_ge t 3 with hlt | hge
  · have hempty := h.empty (t := t) (by omega)
    have hraised : (run (MinerCore.step Engine.resultNonceO) ws s t).raised Engine.resultNonceO = 0 := by
      refine Finset.sum_eq_zero fun e _ => if_neg fun he => ?_
      have hnone := h.reported_of_unused (e := e) (h.unused_before (t := t) (by omega))
      simp [Engine.reported, he] at hnone
    have hcaptured : (run (MinerCore.step Engine.resultNonceO) ws s t).captured = 0 := by
      rw [MinerCore.captured, capture_of_empty hempty]
      rfl
    rw [hempty.nothing.1, hempty.nothing.2, hraised, hcaptured, (h.empty (t := t + 1) (by omega)).nothing.1]
    rfl
  · have hpop : (run (MinerCore.step Engine.resultNonceO) ws s t).PopHeld := by
      obtain ⟨u, rfl⟩ : ∃ u, t = u + 1 := ⟨t - 1, by omega⟩
      exact MinerCore.popHeld_step _
    exact MinerCore.core_balance hpop (h.noClear hge)

/-- A drop is indicated at the output of a FIFO two edges later and from then on. -/
theorem RestedStart.indicated (h : RestedStart ws w s) {t n : Nat}
    (hd : (run (MinerCore.step Engine.resultNonceO) ws s t).dropped ≠ 0) (hn : t + 3 ≤ n) :
    (run (MinerCore.step Engine.resultNonceO) ws s n).overflowQ = true := by
  have ht : 3 ≤ t := by
    by_contra hlt
    exact hd (h.empty (t := t) (by omega)).nothing.2
  obtain ⟨c, -, hc⟩ := Finset.exists_ne_zero_of_sum_ne_zero hd
  have hout : ∀ u, t + 2 ≤ u → ((run (MinerCore.step Engine.resultNonceO) ws s u).fifos c).overflowO = true := by
    intro u hu
    induction u, hu using Nat.le_induction with
    | base =>
      rcases ClusterFifo.overflow_of_dropped (i := MinerCore.fifoIn Engine.resultNonceO _ c) (h.noClear ht c) hc
        with ho | ho
      all_goals
        rw [run_succ]
        simp only [MinerCore.step, ClusterFifo.step]
        rw [if_neg (by rw [h.noClear (t := t + 1) (by omega) c]; exact Bool.false_ne_true)]
        simp only [Bool.or_eq_true]
      · exact .inl (.inl ho)
      · exact .inr ho
    | succ u hu ih =>
      rw [run_succ]
      simp only [MinerCore.step, ClusterFifo.step]
      rw [if_neg (by rw [h.noClear (t := u) (by omega) c]; exact Bool.false_ne_true)]
      simp only [Bool.or_eq_true]
      exact .inl (.inl ih)
  obtain ⟨u, rfl⟩ : ∃ u, n = u + 1 := ⟨n - 1, by omega⟩
  rw [run_succ]
  simp only [MinerCore.step]
  exact if_pos (decide_eq_true ⟨c, hout u (by omega)⟩)

end Path

/-! ## The status -/

section Status

variable {obs : Engine → α} {ws : Nat → Option Write} {w : Write} {s : MinerCore α cfg}

/-- An engine is busy from the edge after its pulse to the end of its scan. -/
theorem RestedStart.busy_iff (h : RestedStart ws w s) (t : Nat) (e : Fin cfg.numEngines) :
    ((run (MinerCore.step obs) ws s t).engines e).busyO = true ↔ 5 + 3 * e.val ≤ t ∧ t < scanEnd cfg s.nonceCountQ e := by
  have hunused : ((run (MinerCore.step obs) ws s t).engines e).Unused →
      ((run (MinerCore.step obs) ws s t).engines e).busyO = false := fun hu => by
    simp [Engine.busyO, hu.idle, hu.core]
  constructor
  · intro hb
    constructor
    · by_contra hlt
      rw [hunused (h.unused_before (by omega))] at hb
      cases hb
    · by_contra hge
      rw [hunused (h.unused_after (by omega))] at hb
      cases hb
  · rintro ⟨hle, hlt⟩
    have hz : share cfg s.nonceCountQ e ≠ 0 := fun h0 => by simp [scanEnd, h0] at hlt
    rw [scanEnd, if_neg hz] at hlt
    obtain ⟨a, rfl⟩ := Nat.exists_eq_add_of_le hle
    have hscan := @RestedStart.scanAt _ _ _ obs _ _ _ e h a (by omega)
    simp [Engine.busyO, EvalAt.not_idle hscan]

/-- The loader is idle again when it has visited every engine. -/
theorem RestedStart.load_idle_iff (h : RestedStart ws w s) {t : Nat} (ht : 1 ≤ t) :
    (run (MinerCore.step obs) ws s t).loadStateQ = .idle ↔ 3 * cfg.numEngines + 1 ≤ t := by
  have hsame : (run (MinerCore.step obs) ws s t).loadStateQ = (run (MinerCore.step obs) (onlyFirst ws) s t).loadStateQ :=
    (congrArg MinerCore.loadStateQ (@run_work _ _ _ obs _ s h.polls t) :)
  rw [hsame]
  constructor
  · intro hl
    by_contra hlt
    obtain ⟨_, p, hp, -, -, hload⟩ := h.alone.loading obs ht (by omega)
    exact hp (hload.state.symm.trans hl)
  · exact h.alone.loaded obs

/-- The edges after which the scan of a range of `count` nonces is found to be over. -/
def doneEdges (cfg : MinerCfg) (count : Word) : Nat := max (3 * cfg.numEngines + 1) (scanEdges cfg count)

/-- The loader and all engines have finished. -/
theorem finished_iff {count : Word} (hN : count = 0 ∨ 2 ≤ cfg.numEngines) (t : Nat) :
    (3 * cfg.numEngines + 1 ≤ t ∧ ∀ e : Fin cfg.numEngines, ¬ (5 + 3 * e.val ≤ t ∧ t < scanEnd cfg count e)) ↔
      doneEdges cfg count ≤ t := by
  rw [doneEdges, max_le_iff, scanEdges, Finset.sup_le_iff]
  refine and_congr_right fun ht => ⟨fun hall e _ => ?_, fun hall e he => absurd (hall e (Finset.mem_univ e)) (by omega)⟩
  by_contra hlt
  have he := e.isLt
  have hz : share cfg count e ≠ 0 := fun h0 => by simp [scanEnd, h0] at hlt
  have hcount : e.val < count.toNat := by
    by_contra hge
    exact hz ((share_eq_zero_iff _ _).2 (by omega))
  have h2 : 2 ≤ cfg.numEngines := hN.resolve_left fun h0 => by simp [h0] at hcount
  -- the last engine has just got its pulse, and the one before it is at work
  have hprev : e.val - 1 < cfg.numEngines := by omega
  have hlate : t < 5 + 3 * e.val := by
    by_contra hge
    exact hall e ⟨by omega, by omega⟩
  refine hall ⟨e.val - 1, hprev⟩ ⟨by show 5 + 3 * (e.val - 1) ≤ t; omega, ?_⟩
  have hz' : share cfg count ⟨e.val - 1, hprev⟩ ≠ 0 := fun h0 => by
    have hle : count.toNat ≤ e.val - 1 := (share_eq_zero_iff _ _).1 h0
    omega
  have hpos : 0 < (share cfg count ⟨e.val - 1, hprev⟩).toNat :=
    Nat.pos_of_ne_zero fun h0 => hz' (BitVec.eq_of_toNat_eq h0)
  have hE : 15 ≤ evalCycles cfg.engine := by unfold evalCycles; omega
  have hmul := Nat.le_mul_of_pos_left (evalCycles cfg.engine) hpos
  rw [scanEnd, if_neg hz']
  show t < 5 + 3 * (e.val - 1) + _
  omega

/-- The completion clause of the clocked block. -/
theorem RestedStart.completes_iff (h : RestedStart ws w s) (hN : s.nonceCountQ = 0 ∨ 2 ≤ cfg.numEngines) {t : Nat}
    (ht : 1 ≤ t) : (run (MinerCore.step obs) ws s t).completes = true ↔
      (run (MinerCore.step obs) ws s t).runningQ = true ∧ doneEdges cfg s.nonceCountQ ≤ t := by
  have hN0 := cfg.numEngines_pos
  have hbusy : ∀ e, ((run (MinerCore.step obs) ws s t).engines e).busyO = false ↔
      ¬ (5 + 3 * e.val ≤ t ∧ t < scanEnd cfg s.nonceCountQ e) := fun e => by rw [← h.busy_iff, Bool.not_eq_true]
  -- an engine that reports the end of its scan is not busy
  have hdone : (∀ e, ((run (MinerCore.step obs) ws s t).engines e).doneO = true) →
      ∀ e, ((run (MinerCore.step obs) ws s t).engines e).busyO = false := by
    intro hall e
    obtain ⟨u, rfl⟩ : ∃ u, t = u + 1 := ⟨t - 1, by omega⟩
    have hidle : ((run (MinerCore.step obs) ws s (u + 1)).engines e).stateQ = .idle := engine_done_step (hall e)
    rw [hbusy]
    rintro ⟨hle, hlt⟩
    have hz : share cfg s.nonceCountQ e ≠ 0 := fun h0 => by simp [scanEnd, h0] at hlt
    rw [scanEnd, if_neg hz] at hlt
    obtain ⟨a, ha⟩ := Nat.exists_eq_add_of_le hle
    have hscan := @RestedStart.scanAt _ _ _ obs _ _ _ e h a (by omega)
    rw [← ha] at hscan
    exact EvalAt.not_idle hscan hidle
  have hpulse : 2 ≤ t → (run (MinerCore.step obs) ws s t).startPulseQ = false := by
    intro h2
    obtain ⟨u, rfl⟩ : ∃ u, t = u + 1 := ⟨t - 1, by omega⟩
    have hsame : (run (MinerCore.step obs) ws s (u + 1)).startPulseQ =
        (run (MinerCore.step obs) (onlyFirst ws) s (u + 1)).startPulseQ :=
      (congrArg MinerCore.startPulseQ (@run_work _ _ _ obs _ s h.polls (u + 1)) :)
    rw [hsame, h.alone.succ obs (by omega)]
    rfl
  rw [← finished_iff hN, MinerCore.completes]
  simp only [Bool.and_eq_true, Bool.or_eq_true, beq_iff_eq, decide_eq_true_eq, Bool.not_eq_true', h.load_idle_iff ht,
    ← hbusy]
  constructor
  · rintro ⟨⟨⟨hrun, hload⟩, hall⟩, -⟩
    exact ⟨hrun, hload, hall.elim id hdone⟩
  · rintro ⟨hrun, hload, hall⟩
    exact ⟨⟨⟨hrun, hload⟩, .inl hall⟩, hpulse (by omega)⟩

/-- Answers to results and interrupts leave the status to the completion clause. -/
theorem RestedStart.status_succ (h : RestedStart ws w s) {t : Nat} (ht : 1 ≤ t) :
    (run (MinerCore.step obs) ws s (t + 1)).runningQ =
        (!(run (MinerCore.step obs) ws s t).completes && (run (MinerCore.step obs) ws s t).runningQ) ∧
      (run (MinerCore.step obs) ws s (t + 1)).nonceDoneQ =
        ((run (MinerCore.step obs) ws s t).completes || (run (MinerCore.step obs) ws s t).nonceDoneQ) := by
  have hwork : (run (MinerCore.step obs) ws s (t + 1)).work = ((run (MinerCore.step obs) ws s t).step obs none).work := by
    rw [run_succ]
    cases hv : ws t with
    | none => rfl
    | some v => exact work_polls (h.polls t ht v hv) _
  have hrun : (run (MinerCore.step obs) ws s (t + 1)).runningQ = ((run (MinerCore.step obs) ws s t).step obs none).runningQ :=
    (congrArg MinerCore.runningQ hwork :)
  have hdone : (run (MinerCore.step obs) ws s (t + 1)).nonceDoneQ =
      ((run (MinerCore.step obs) ws s t).step obs none).nonceDoneQ := (congrArg MinerCore.nonceDoneQ hwork :)
  rw [hrun, hdone]
  cases hc : (run (MinerCore.step obs) ws s t).completes <;> simp [MinerCore.step, hc, MinerCore.startsLoad]

/-- The status after a start that finds the status low. -/
theorem RestedStart.status (h : RestedStart ws w s) (hN : s.nonceCountQ = 0 ∨ 2 ≤ cfg.numEngines)
    (hrun : s.runningQ = false) {t : Nat} (ht : 1 ≤ t) :
    (run (MinerCore.step obs) ws s t).runningQ = decide (t ≤ doneEdges cfg s.nonceCountQ) ∧
      (run (MinerCore.step obs) ws s t).nonceDoneQ = decide (doneEdges cfg s.nonceCountQ < t) := by
  induction t, ht using Nat.le_induction with
  | base =>
    have hone : 1 ≤ doneEdges cfg s.nonceCountQ := le_trans (by omega) (le_max_left _ _)
    have hc : s.completes = false := by simp [MinerCore.completes, hrun]
    rw [run_succ, Clocked.run_zero, h.applied, decide_eq_true hone, decide_eq_false (Nat.not_lt.2 hone)]
    simp [MinerCore.step, hc, h.stop, h.alone.starts]
  | succ t ht ih =>
    obtain ⟨hr, hd⟩ := @RestedStart.status_succ _ _ _ obs _ _ _ h t ht
    have hc := @RestedStart.completes_iff _ _ _ obs _ _ _ h hN t ht
    rw [ih.1, decide_eq_true_eq] at hc
    rw [hr, hd, ih.1, ih.2]
    rcases Nat.lt_trichotomy t (doneEdges cfg s.nonceCountQ) with hlt | heq | hgt
    · have hn : (run (MinerCore.step obs) ws s t).completes = false := by
        rw [← Bool.not_eq_true, hc]
        omega
      rw [hn, decide_eq_true hlt.le, decide_eq_true (Nat.succ_le_of_lt hlt), decide_eq_false (by omega),
        decide_eq_false (by omega)]
      exact ⟨rfl, rfl⟩
    · have hy : (run (MinerCore.step obs) ws s t).completes = true := hc.2 ⟨heq.le, heq.ge⟩
      rw [hy, decide_eq_false (show ¬ t + 1 ≤ _ by omega), decide_eq_true (show _ < t + 1 by omega)]
      exact ⟨rfl, rfl⟩
    · rw [decide_eq_false (by omega), decide_eq_true hgt, decide_eq_false (by omega), decide_eq_true (by omega),
        Bool.or_true, Bool.and_false]
      exact ⟨rfl, rfl⟩

end Status

/-! ## A scan from rest -/

section Scan

variable {inp : Nat → AxiIn} {w : Write} {s : MinerAxi cfg}

/-- A start is applied that finds the instance at rest and its engines not busy; what is applied later answers results
and interrupts. -/
structure StartsAlone (inp : Nat → AxiIn) (s : MinerAxi cfg) (w : Write) : Prop where
  applied : s.applied = some w
  start : w.start = true
  stop : w.stop = false
  rest : AtRest s.core
  free : ∀ e, (s.core.engines e).busyO = false
  polls : ∀ t, 1 ≤ t → ∀ v, MinerAxi.appliedAt inp s t = some v → v.Polls

theorem reachable_reportsBusy (h : s.Reachable) : ReportsBusy s.core := by
  refine Clocked.Reachable.invariant (P := fun s => ReportsBusy s.core) ?_ ?_ h
  · rintro s ⟨engines, rfl⟩
    exact reportsBusy_reset engines
  · exact fun _ s _ => reportsBusy_step s.core

theorem StartsAlone.rested (h : StartsAlone inp s w) (hr : s.Reachable) :
    RestedStart (MinerAxi.appliedAt inp s) w s.core := by
  refine ⟨h.applied, h.start, h.stop, h.rest, fun e => ?_, fun e => ?_, h.polls⟩
  · have hb := h.free e
    simp only [Engine.busyO, Bool.or_eq_false_iff] at hb
    exact ⟨h.rest.engines e, (reachable_engineOk hr e).idle (h.rest.engines e), hb.2⟩
  · by_contra hv
    exact reachable_reportsBusy hr e (eq_true_of_ne_false hv) (h.rest.engines e)

/-- The nonces that have been found in the first `n` cycles: captured, on their way or dropped. -/
def found (st : Nat → MinerCore Word cfg) (n : Nat) : Multiset Word :=
  ((∑ t ∈ Finset.range n, (st t).captured) + (st n).inFlight + ∑ t ∈ Finset.range n, (st t).dropped).map Prod.snd

/-- What has been found is what the engines have reported. -/
theorem RestedStart.found_eq {ws : Nat → Option Write} {s : MinerCore Word cfg} (h : RestedStart ws w s) (n : Nat) :
    found (run (MinerCore.step Engine.resultNonceO) ws s) n =
      (∑ t ∈ Finset.range n, (run (MinerCore.step Engine.resultNonceO) ws s t).raised Engine.resultNonceO).map Prod.snd := by
  have hbal := @Clocked.run_balance _ _ _ _ (MinerCore.step Engine.resultNonceO) (fun m => m.inFlight)
    (fun _ m => m.raised Engine.resultNonceO) (fun _ m => m.captured + m.dropped) ws s n (fun t _ => h.balance t) n le_rfl
  have hzero : s.inFlight = 0 := (h.empty (Nat.zero_le 4)).nothing.1
  rw [hzero, zero_add, Finset.sum_add_distrib] at hbal
  rw [found, hbal]
  congr 1
  abel

/-- **Accounts of a scan.** The nonces found at any time are shares of the job in the range, each at most once, and in
the end all of them; a drop leaves `overflow_q` up, and while that is down all shares found so far are captured or on
their way. -/
theorem scan_accounts (s : MinerAxi cfg) (hr : s.Reachable) (inp : Nat → AxiIn) (w : Write) (h : StartsAlone inp s w) :
    let st := fun t => (run MinerAxi.step inp s t).core
    let shares := sharesIn s.core.job (s.core.nonceStartQ, s.core.nonceCountQ)
    (∀ n, found st n ≤ shares ∧ (scanEdges cfg s.core.nonceCountQ ≤ n → found st n = shares)) ∧
      (∀ t n, (st t).dropped ≠ 0 → t + 3 ≤ n → (st n).overflowQ = true) ∧
      ∀ n m, scanEdges cfg s.core.nonceCountQ ≤ n → n + 2 ≤ m → (st m).overflowQ = false →
        ((∑ t ∈ Finset.range n, (st t).captured) + (st n).inFlight).map Prod.snd = shares := by
  intro st shares
  have hS := h.rested hr
  have hst : st = run (MinerCore.step Engine.resultNonceO) (MinerAxi.appliedAt inp s) s.core :=
    funext fun t => MinerAxi.core_run inp s t
  have hfound : ∀ n, found st n ≤ shares ∧ (scanEdges cfg s.core.nonceCountQ ≤ n → found st n = shares) := by
    intro n
    rw [hst, hS.found_eq]
    exact hS.sum_raised n
  have hdrop : ∀ t n, (st t).dropped ≠ 0 → t + 3 ≤ n → (st n).overflowQ = true := by
    intro t n hd hn
    rw [hst] at hd ⊢
    exact hS.indicated hd hn
  refine ⟨hfound, hdrop, fun n m hn hm ho => ?_⟩
  have hnone : ∑ t ∈ Finset.range n, (st t).dropped = 0 := by
    refine Finset.sum_eq_zero fun t ht => ?_
    by_contra hd
    rw [hdrop t m hd (by have := Finset.mem_range.1 ht; omega)] at ho
    cases ho
  have hall := (hfound n).2 hn
  rwa [found, hnone, add_zero] at hall

/-- The miner out of reset, with nothing applied after the start. -/
theorem startAfterReset_alone : StartsAlone (fun _ => default) startAfterReset ⟨.control, 1, 0xf⟩ where
  applied := by decide +kernel
  start := rfl
  stop := rfl
  rest := by decide +kernel
  free := by decide +kernel
  polls t ht v hv := by
    rw [MinerAxi.applied_none_after (w := ⟨.control, 1, 0xf⟩) (fun _ => rfl) (by decide +kernel) (by decide +kernel) ht] at hv
    cases hv

theorem start_after_reset_found :
    found (fun t => (run MinerAxi.step (fun _ => default) startAfterReset t).core) 1000 =
      sharesIn startAfterReset.core.job (startAfterReset.core.nonceStartQ, startAfterReset.core.nonceCountQ) := by
  have hreach : startAfterReset.Reachable := Clocked.Reachable.run (.init ⟨_, rfl⟩) _ _
  have h := scan_accounts startAfterReset hreach (fun _ => default) _ startAfterReset_alone
  exact (h.1 1000).2 (by decide +kernel)

/-- **Duration of a scan.** A start that finds `STATUS` low on a miner of at least two engines keeps `running` up for
`doneEdges` cycles, whatever results and interrupts are answered meanwhile; then `nonce_done` comes up for good, and all
shares of the range have been found. -/
theorem scan_duration (s : MinerAxi cfg) (hr : s.Reachable) (inp : Nat → AxiIn) (w : Write) (h : StartsAlone inp s w)
    (hN : s.core.nonceCountQ = 0 ∨ 2 ≤ cfg.numEngines) (hrun : s.core.runningQ = false) :
    let st := fun t => (run MinerAxi.step inp s t).core
    ∀ t, 1 ≤ t → (st t).runningQ = decide (t ≤ doneEdges cfg s.core.nonceCountQ) ∧
      (st t).nonceDoneQ = decide (doneEdges cfg s.core.nonceCountQ < t) ∧
      ((st t).nonceDoneQ = true → found st t = sharesIn s.core.job (s.core.nonceStartQ, s.core.nonceCountQ)) := by
  intro st t ht
  have hS := h.rested hr
  have hst : st = run (MinerCore.step Engine.resultNonceO) (MinerAxi.appliedAt inp s) s.core :=
    funext fun t => MinerAxi.core_run inp s t
  rw [hst]
  obtain ⟨hrunning, hdone⟩ := @RestedStart.status _ _ _ Engine.resultNonceO _ _ _ hS hN hrun t ht
  refine ⟨hrunning, hdone, fun hd => ?_⟩
  rw [hdone, decide_eq_true_eq] at hd
  rw [hS.found_eq]
  exact (hS.sum_raised t).2 (le_trans (le_max_right _ _) hd.le)

/-- One nonce for each of two engines. -/
theorem start_after_reset_duration :
    (run MinerAxi.step (fun _ => default) startAfterReset 100).core.runningQ = true ∧
      (run MinerAxi.step (fun _ => default) startAfterReset 1000).core.nonceDoneQ = true := by
  have hreach : startAfterReset.Reachable := Clocked.Reachable.run (.init ⟨_, rfl⟩) _ _
  have h := scan_duration startAfterReset hreach (fun _ => default) _ startAfterReset_alone (.inr le_rfl)
    (by decide +kernel)
  refine ⟨(h 100 (by omega)).1.trans ?_, (h 1000 (by omega)).2.1.trans ?_⟩
  · decide +kernel
  · decide +kernel

end Scan

end Vek280Miner.Rtl
