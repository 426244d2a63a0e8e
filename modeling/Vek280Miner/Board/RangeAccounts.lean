import Vek280Miner.Board.Overlap

/-!
# The accounts of the ranges

Every range that is started is finished once, on one of three paths, or is the active one; what `miner_finish_range`
adds to the estimate of a range is at most its nonce count, which is still in `active_nonce_count` then. So the books
are kept at every access of the worker (`Balanced`), whatever the instances show: the hardware is replaced at will after
every action (`Board.stepAnyHw`).
-/

namespace Vek280Miner

open Rtl Sw

variable {α : Type} {host : HostCfg} {cfg : MinerCfg}

namespace Board

/-- One if a range is active. -/
def activeRanges (s : Board α host cfg) : Nat := if s.gRangeActive then 1 else 0

/-- The nonces of the active range. -/
def activeNonces (s : Board α host cfg) : Nat := if s.gRangeActive then s.gStats.activeNonceCount.toNat else 0

/-- The books of the ranges. -/
structure Balanced (s : Board α host cfg) : Prop where
  started : s.gStats.jobsStarted =
    s.gStats.rangesCompleted + s.gStats.rangesPreempted + s.gStats.rangesStopped + s.activeRanges
  cleanJob : s.gStats.rangesPreemptedCleanJob ≤ s.gStats.rangesPreempted
  estimate : s.gStats.nonceCandidatesCompletedEstimate + s.activeNonces ≤ s.gStats.nonceCandidatesIssued

end Board

/-- Whether a range is active where the worker depends on it. -/
def Pc.Knows {K : Nat} (active : Bool) : Pc α K → Prop
  | .requestStatus .. | .finishRequest .. => active = true
  | .takeJob _ | .program .. => active = false
  | _ => True

namespace Board

/-- The books are kept, and the worker knows whether a range is active. -/
structure Kept (s : Board α host cfg) : Prop extends Balanced s where
  knows : s.pc.Knows s.gRangeActive

/-- The nonces that the instances evaluate at their rate in the time since the range was started. -/
def estimated (now : Word) (s : Board α host cfg) : Nat :=
  (now - s.gStats.activeJobTick).toNat * host.hashrateHs % 2 ^ 64 / host.tickRateHz

/-- What a range is credited with when it is finished. -/
def credit (now : Word) (reason : RangeReason) (s : Board α host cfg) : Nat :=
  if reason = .complete then s.gStats.activeNonceCount.toNat
  else min (s.estimated now) s.gStats.activeNonceCount.toNat

theorem credit_le (now : Word) (reason : RangeReason) (s : Board α host cfg) :
    s.credit now reason ≤ s.gStats.activeNonceCount.toNat := by
  unfold credit
  split
  · exact le_rfl
  · exact Nat.min_le_right _ _

/-- `miner_finish_range` of an active range. -/
theorem finishRange_active {s : Board α host cfg} (h : s.gRangeActive = true) (now : Word) (reason : RangeReason) :
    s.finishRange now reason =
      { s with
        gStats := { s.gStats with
          rangesCompleted := s.gStats.rangesCompleted + if reason = .complete then 1 else 0
          rangesPreempted := s.gStats.rangesPreempted + if reason = .preempted then 1 else 0
          rangesStopped := s.gStats.rangesStopped + if reason = .stopped then 1 else 0
          nonceCandidatesCompletedEstimate := s.gStats.nonceCandidatesCompletedEstimate + s.credit now reason
          lastRangeElapsedTicks := now - s.gStats.activeJobTick
          lastRangeReason := some reason }
        gRangeActive := false
        gStopRequested := false } := by
  have hcredit : ∀ a b : Nat, (if a > b then b else a) = min a b := fun a b => by
    rw [Nat.min_def]
    split <;> split <;> omega
  simp only [finishRange, h, credit, estimated, hcredit, Bool.not_true, Bool.false_eq_true, if_false]

theorem balanced_finishRange {s : Board α host cfg} (h : Balanced s) (ha : s.gRangeActive = true) (now : Word)
    (reason : RangeReason) : Balanced (s.finishRange now reason) ∧ (s.finishRange now reason).gRangeActive = false := by
  obtain ⟨hstarted, hclean, hestimate⟩ := h
  have hle := credit_le now reason s
  rw [finishRange_active ha]
  simp only [activeRanges, activeNonces, ha, if_true] at hstarted hestimate
  refine ⟨⟨?_, ?_, ?_⟩, rfl⟩
  · simp only [activeRanges, hstarted, Bool.false_eq_true, if_false]
    cases reason <;> simp only [reduceCtorEq, if_true, if_false] <;> omega
  · exact le_trans hclean (Nat.le_add_right _ _)
  · simp only [activeNonces, Bool.false_eq_true, if_false]
    omega

/-- A range that a request ends. -/
theorem balanced_finishRequest {s : Board α host cfg} (h : Balanced s) (ha : s.gRangeActive = true) (now : Word)
    (request : JobRequest) (reason : RangeReason) :
    Balanced ((s.finishRange now reason).countCleanJob request reason) ∧
      ((s.finishRange now reason).countCleanJob request reason).gRangeActive = false := by
  obtain ⟨hbal, hoff⟩ := balanced_finishRange h ha now reason
  unfold countCleanJob
  split
  · rename_i hreason
    refine ⟨⟨hbal.started, ?_, hbal.estimate⟩, hoff⟩
    have hclean := h.cleanJob
    rw [finishRange_active ha]
    simp only [hreason.1, if_true]
    omega
  · exact ⟨hbal, hoff⟩

/-- A range that is started while none is active. -/
theorem balanced_rangeStarted {s : Board α host cfg} (h : Balanced s) (ha : s.gRangeActive = false) (now : Word)
    (job : MinerJob) : Balanced (s.rangeStarted now job) := by
  obtain ⟨hstarted, hclean, hestimate⟩ := h
  simp only [activeRanges, activeNonces, ha, Bool.false_eq_true, if_false] at hstarted hestimate
  refine ⟨?_, hclean, ?_⟩
  · simp only [rangeStarted, activeRanges, if_true]
    omega
  · simp only [rangeStarted, activeNonces, if_true]
    omega

/-- The worker knows where it goes what it knew, or finds it out when it takes a request. -/
theorem Leads.knows {s : Board α host cfg} {view : α → Word} {p q : Pc α host.instances} (h : s.Leads view p q)
    (hm : p.movesRange = false) (hk : p.Knows s.gRangeActive) : q.Knows s.gRangeActive := by
  cases h with
  | preempt request hq ha | ask request hq ha | take request hq ha => exact ha
  | requestRead | requestRuns | requestIdle | takeJob | programWrite => exact hk
  | finishRequest | programDone | finishIdle => cases hm
  | _ => trivial

theorem Balanced.congr {s s' : Board α host cfg} (h : Balanced s) (ha : s'.gRangeActive = s.gRangeActive)
    (hs : s'.rangeStats = s.rangeStats) : Balanced s' := by
  simp only [rangeStats, Prod.mk.injEq] at hs
  obtain ⟨⟨hstarted, hcompleted, hpreempted, hclean, hstopped⟩, hissued, hestimate, hcount⟩ := hs
  constructor
  case started =>
    rw [activeRanges, ha, hstarted, hcompleted, hpreempted, hstopped]
    exact h.started
  case cleanJob =>
    rw [hclean, hpreempted]
    exact h.cleanJob
  case estimate =>
    rw [activeNonces, ha, hestimate, hcount, hissued]
    exact h.estimate

/-- The accesses of the worker keep the books. -/
theorem kept_advance {s : Board α host cfg} (h : Kept s) (view : α → Word) (now : Word) : Kept (s.advance view now) := by
  have hknows := h.knows
  have hstill : s.pc.movesRange = false → Kept (s.advance view now) := fun hm => by
    obtain ⟨hactive, -, hstats⟩ := ranges_advance s view now hm
    exact ⟨h.toBalanced.congr hactive hstats, by rw [hactive]; exact (leads_advance s view now).knows hm hknows⟩
  cases hpc : s.pc with
  | finishRequest request reason =>
    rw [hpc] at hknows
    obtain ⟨hfin, hoff⟩ := balanced_finishRequest h.toBalanced hknows now request reason
    simp only [advance, hpc]
    exact { hfin with knows := hoff }
  | finishIdle reason =>
    simp only [advance, hpc]
    cases ha : s.gRangeActive with
    | true => exact { (balanced_finishRange h.toBalanced ha now reason).1 with knows := trivial }
    | false =>
      have hsame : s.finishRange now reason = s := by simp [finishRange, ha]
      rw [hsame]
      exact { h.toBalanced with knows := trivial }
  | program request l =>
    rw [hpc] at hknows
    cases l with
    | nil =>
      simp only [advance, hpc]
      exact { balanced_rangeStarted h.toBalanced hknows now request.job with knows := trivial }
    | cons w l => exact hstill (by rw [hpc]; rfl)
  | _ => exact hstill (by rw [hpc]; rfl)

/-- The instances have no part in the books. -/
theorem Kept.hardware {s : Board α host cfg} (h : Kept s) (hw : Fin host.instances → MinerCore α cfg) :
    Kept { s with hw := hw } := { h with }

section Steps

variable [Inhabited α] {obs : Engine → α} {view : α → Word}

/-- Every action keeps the books. -/
theorem kept_step {s : Board α host cfg} (h : Kept s) (a : Action host.instances) : Kept (s.step obs view a) := by
  have hacts := acts_step s obs view a
  generalize s.step obs view a = s' at hacts ⊢
  cases hacts with
  | worker now hisr =>
    rw [apply_eq]
    exact (kept_advance h view now).hardware _
  | handler i hisr =>
    obtain ⟨-, hpc, -, hactive, -, hstats⟩ := frame_handle s view i
    have hkept : Kept (s.handle view i) := ⟨h.toBalanced.congr hactive hstats, by rw [hpc, hactive]; exact h.knows⟩
    rw [apply_eq]
    exact hkept.hardware _
  | none => exact h
  | _ => exact { h with }

theorem kept_reset (engines : Fin host.instances → Fin cfg.numEngines → Engine) :
    Kept (reset engines : Board α host cfg) :=
  ⟨⟨rfl, le_rfl, le_rfl⟩, trivial⟩

/-- An action, and then any hardware. -/
def stepAnyHw (obs : Engine → α) (view : α → Word) (i : Action host.instances × (Fin host.instances → MinerCore α cfg))
    (s : Board α host cfg) : Board α host cfg := { s.step obs view i.1 with hw := i.2 }

/-- The states of the board that show any hardware statuses. -/
def ReachableAnyHw (obs : Engine → α) (view : α → Word) (s : Board α host cfg) : Prop :=
  Clocked.Reachable (stepAnyHw obs view) (fun s => ∃ engines, s = reset engines) s

/-- The runs of the board are among them. -/
theorem reachableAnyHw_of_reachable {s : Board α host cfg}
    (h : Clocked.Reachable (step obs view) (fun s => ∃ engines, s = reset engines) s) : ReachableAnyHw obs view s := by
  induction h with
  | init h => exact .init h
  | @step s a _ ih => exact .step (a, (s.step obs view a).hw) ih

theorem kept_of_reachable {s : Board α host cfg} (h : ReachableAnyHw obs view s) : Kept s := by
  refine Clocked.Reachable.invariant (P := Kept) ?_ (fun i s hs => (kept_step hs i.1).hardware _) h
  rintro s ⟨engines, rfl⟩
  exact kept_reset engines

end Steps

/-- **Range accounts.** In every reachable state, whatever the instances show: the ranges that were started are those
that were completed, preempted and stopped and the active one; a clean job preempts no more ranges than are preempted;
the estimate and the active range are covered by what was issued; and at the rate of the application the product behind
the estimate fits in 64 bits. -/
theorem range_accounts [Inhabited α] (obs : Engine → α) (view : α → Word) (s : Board α host cfg)
    (h : ReachableAnyHw obs view s) :
    s.gStats.jobsStarted = s.gStats.rangesCompleted + s.gStats.rangesPreempted + s.gStats.rangesStopped +
        (if s.gRangeActive then 1 else 0) ∧
      s.gStats.rangesPreemptedCleanJob ≤ s.gStats.rangesPreempted ∧
      s.gStats.nonceCandidatesCompletedEstimate + (if s.gRangeActive then s.gStats.activeNonceCount.toNat else 0) ≤
        s.gStats.nonceCandidatesIssued ∧
      ∀ now : Word, (now - s.gStats.activeJobTick).toNat * appConfig.hashrateHs < 2 ^ 64 := by
  obtain ⟨hbal, -⟩ := kept_of_reachable h
  refine ⟨hbal.started, hbal.cleanJob, hbal.estimate, fun now => ?_⟩
  have hrate : appConfig.hashrateHs < 2 ^ 32 := by decide
  calc (now - s.gStats.activeJobTick).toNat * appConfig.hashrateHs
      < 2 ^ 32 * 2 ^ 32 := Nat.mul_lt_mul_of_lt_of_lt (BitVec.isLt _) hrate
    _ = 2 ^ 64 := by norm_num

/-- The worker starts a range of a thousand nonces, and a clean job that follows preempts it. -/
def preemptedRange : List (Action oneInstance.instances) :=
  List.replicate 7 (.worker 0) ++ [.submitJob { zeroJob with nonceCount := 1000 } false] ++ List.replicate 27 (.worker 0) ++
    [.submitJob zeroJob true] ++ List.replicate 2 (.worker 1)

/-- The board then, with instances that have never been written. -/
def preemptedBoard : Board Word oneInstance twoEngines :=
  preemptedRange.foldl (fun s a => stepAnyHw Engine.resultNonceO id (a, fun _ => MinerCore.reset fun _ => default) s)
    (reset fun _ _ => default)

theorem preemptedBoard_reachable : ReachableAnyHw Engine.resultNonceO id preemptedBoard := by
  have hstep : ∀ (l : List (Action oneInstance.instances)) (s : Board Word oneInstance twoEngines),
      ReachableAnyHw Engine.resultNonceO id s → ReachableAnyHw Engine.resultNonceO id
        (l.foldl (fun s a => stepAnyHw Engine.resultNonceO id (a, fun _ => MinerCore.reset fun _ => default) s) s) := by
    intro l
    induction l with
    | nil => exact fun _ h => h
    | cons a l ih => exact fun s h => ih _ (.step _ h)
  exact hstep _ _ (.init ⟨_, rfl⟩)

theorem preemptedBoard_stats : preemptedBoard.gStats.jobsStarted = 1 ∧
    preemptedBoard.gStats.nonceCandidatesIssued = 1000 ∧ preemptedBoard.gRangeActive = false := by
  decide

/-- The one range has been finished, once, and credited with no more than it has. -/
theorem preempted_range_accounts :
    1 = preemptedBoard.gStats.rangesCompleted + preemptedBoard.gStats.rangesPreempted +
        preemptedBoard.gStats.rangesStopped ∧
      preemptedBoard.gStats.rangesPreemptedCleanJob ≤ preemptedBoard.gStats.rangesPreempted ∧
      preemptedBoard.gStats.nonceCandidatesCompletedEstimate ≤ 1000 := by
  obtain ⟨hstarted, hclean, hestimate, -⟩ := range_accounts _ _ _ preemptedBoard_reachable
  obtain ⟨hjobs, hissued, hactive⟩ := preemptedBoard_stats
  rw [hjobs, hactive] at hstarted
  rw [hissued, hactive] at hestimate
  exact ⟨hstarted, hclean, hestimate⟩

end Board

end Vek280Miner
