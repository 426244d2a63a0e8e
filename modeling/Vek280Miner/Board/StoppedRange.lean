import Vek280Miner.Board.RangeAccounts
import Vek280Miner.Rtl.StopWrite

/-!
# Ranges that are stopped

`miner_service_stop_scan` sets `g_stop_requested` and then stops the instances. `miner_task` looks at the flag where it
finds a range over while it waits for a job, but not where a new job ends the range; and whenever it finishes or starts
a range it clears the flag, also between the flag write and the stop writes of a call. Beside the board we keep whether
the range has been stopped early (`Watched`). A range that has been is not finished as complete unless the worker, past
the stop, takes one of two branches (`Watched.Undecided.step`).
-/

namespace Vek280Miner

open Rtl Sw

variable {α : Type} {host : HostCfg} {cfg : MinerCfg}

/-! ## Early stops -/

/-- A stop at this edge costs the engine nonces: it has not reached the last one's decision, or it is about to start. -/
def Rtl.Engine.cutShort (i : EngineIn) (s : Engine) : Bool :=
  match s.stateQ with
  | .idle => i.start && i.nonceCount != 0
  | .check => decide (1 < s.remainingQ)
  | _ => true

/-- The edge costs an engine nonces if it brings a stop. -/
def Rtl.MinerCore.cutShort (m : MinerCore α cfg) : Bool := decide (∃ e, (m.engines e).cutShort (m.engineIn e) = true)

/-- The instance has got its start for the range that the worker is starting. -/
def Pc.started {K : Nat} (k : Fin K) : Pc α K → Bool
  | .program _ l => (writesTo k l).isEmpty
  | _ => false

/-- The worker is about to finish the range as complete. -/
def Pc.completes {K : Nat} : Pc α K → Bool
  | .finishRequest _ .complete | .finishIdle .complete => true
  | _ => false

namespace Board

/-- A job that is not clean has found no instance running. -/
def findsIdle (a : Action host.instances) (s : Board α host cfg) : Bool :=
  match a, s.isr, s.pc with
  | .worker _, none, .requestStatus _ inst acc => decide (host.instances ≤ inst) && acc.result &&& minerStatusRunning = 0
  | _, _, _ => false

/-- The worker, which has found no instance running while it waits, finds the flag clear. -/
def findsFlagClear (a : Action host.instances) (s : Board α host cfg) : Bool :=
  match a, s.isr, s.pc with
  | .worker _, none, .idleReason => !s.gStopRequested
  | _, _, _ => false

/-- The action is the call of `miner_finish_range`. -/
def finishes (a : Action host.instances) (s : Board α host cfg) : Bool :=
  match a, s.isr, s.pc with
  | .worker _, none, .finishRequest _ _ => true
  | .worker _, none, .finishIdle _ => true
  | _, _, _ => false

/-- The time since the range was started is worth fewer nonces than it has. -/
def timeLeft (a : Action host.instances) (s : Board α host cfg) : Bool :=
  match a with
  | .worker now => decide (s.estimated now < s.gStats.activeNonceCount.toNat)
  | _ => true

/-- The action is a stop write that costs the range nonces, which is active or is being started. -/
def stopsEarly [Inhabited α] (obs : Engine → α) (view : α → Word) (a : Action host.instances) (s : Board α host cfg) :
    Bool :=
  match a, s.isr with
  | .service k .stop, none => ((s.step obs view a).hw k).cutShort && (s.gRangeActive || s.pc.started k)
  | _, _ => false

/-! ## What finishes a range -/

/-- Where the worker comes to finish a range as complete. -/
theorem advance_completes {s : Board α host cfg} {view : α → Word} {now : Word} (hisr : s.isr = none)
    (h : (s.advance view now).pc.completes = true) :
    s.findsIdle (.worker now) = true ∨ s.findsFlagClear (.worker now) = true := by
  have hleads := leads_advance s view now
  generalize hpc : s.pc = p at hleads
  generalize (s.advance view now).pc = q at hleads h
  cases hleads with
  | requestIdle request inst acc hinst hrun => exact .inl (by simp [findsIdle, hisr, hpc, hinst, hrun])
  | idleReason =>
    right
    cases hflag : s.gStopRequested with
    | true =>
      rw [hflag] at h
      exact absurd h Bool.false_ne_true
    | false => simp [findsFlagClear, hisr, hpc, hflag]
  | _ => exact absurd h Bool.false_ne_true

/-- An access that does not finish a range leaves the number of the completed ones. -/
theorem advance_rangesCompleted {s : Board α host cfg} (view : α → Word) (now : Word)
    (hrequest : ∀ request reason, s.pc ≠ .finishRequest request reason) (hidle : ∀ reason, s.pc ≠ .finishIdle reason) :
    (s.advance view now).gStats.rangesCompleted = s.gStats.rangesCompleted := by
  have hstill : s.pc.movesRange = false → (s.advance view now).gStats.rangesCompleted = s.gStats.rangesCompleted :=
    fun hm => congrArg (fun stats => stats.1.2.1) (ranges_advance s view now hm).2.2
  cases hpc : s.pc with
  | finishRequest request reason => exact absurd hpc (hrequest _ _)
  | finishIdle reason => exact absurd hpc (hidle _)
  | program request l =>
    cases l with
    | nil => simp only [advance, hpc, rangeStarted]
    | cons w l => exact hstill (by rw [hpc]; rfl)
  | _ => exact hstill (by rw [hpc]; rfl)

/-- While a range is active and not being finished, the flag stays set. -/
theorem advance_flag {s : Board α host cfg} (view : α → Word) (now : Word) (h : Kept s) (hactive : s.gRangeActive = true)
    (hflag : s.gStopRequested = true) (hrequest : ∀ request reason, s.pc ≠ .finishRequest request reason)
    (hidle : ∀ reason, s.pc ≠ .finishIdle reason) :
    (s.advance view now).gRangeActive = true ∧ (s.advance view now).gStopRequested = true := by
  have hknows := h.knows
  have hstill : s.pc.movesRange = false → (s.advance view now).gRangeActive = true ∧
      (s.advance view now).gStopRequested = true := fun hm =>
    have hsame := ranges_advance s view now hm
    ⟨hsame.1.trans hactive, hsame.2.1.trans hflag⟩
  cases hpc : s.pc with
  | finishRequest request reason => exact absurd hpc (hrequest _ _)
  | finishIdle reason => exact absurd hpc (hidle _)
  | program request l =>
    -- no range is active while the worker programs the next one
    rw [hpc, hactive] at hknows
    exact absurd hknows Bool.noConfusion
  | _ => exact hstill (by rw [hpc]; rfl)

/-- `miner_finish_range` of a range that has time left, for another reason than that it is complete. -/
theorem finishRange_incomplete {s : Board α host cfg} {now : Word} {reason : RangeReason} (hreason : reason ≠ .complete)
    (htime : s.estimated now < s.gStats.activeNonceCount.toNat) :
    (s.finishRange now reason).gStats.rangesCompleted = s.gStats.rangesCompleted ∧
      (s.finishRange now reason).gStats.nonceCandidatesCompletedEstimate <
        s.gStats.nonceCandidatesCompletedEstimate + s.gStats.activeNonceCount.toNat := by
  cases ha : s.gRangeActive with
  | false =>
    have hsame : s.finishRange now reason = s := by simp [finishRange, ha]
    rw [hsame]
    exact ⟨rfl, by omega⟩
  | true =>
    have hcredit : s.credit now reason = s.estimated now := by
      rw [credit, if_neg hreason]
      exact Nat.min_eq_left htime.le
    rw [finishRange_active ha, hcredit]
    refine ⟨?_, ?_⟩
    · simp [hreason]
    · simpa using htime

theorem countCleanJob_stats (request : JobRequest) (reason : RangeReason) (s : Board α host cfg) :
    (s.countCleanJob request reason).gStats.rangesCompleted = s.gStats.rangesCompleted ∧
      (s.countCleanJob request reason).gStats.nonceCandidatesCompletedEstimate =
        s.gStats.nonceCandidatesCompletedEstimate := by
  unfold countCleanJob
  split <;> exact ⟨rfl, rfl⟩

section Steps

variable [Inhabited α] {obs : Engine → α} {view : α → Word} {s : Board α host cfg} {a : Action host.instances}

/-- What an action is to the worker: an access of its own, or none of its business but for the flag. -/
theorem step_cases (obs : Engine → α) (view : α → Word) (a : Action host.instances) (s : Board α host cfg) :
    (∃ now, a = .worker now ∧ s.isr = none ∧ s.step obs view a = (s.advance view now).apply obs s.pc.write) ∨
      s.finishes a = false ∧ (s.step obs view a).pc = s.pc ∧
        (s.step obs view a).gStats.rangesCompleted = s.gStats.rangesCompleted ∧
        (s.step obs view a).gRangeActive = s.gRangeActive ∧
        (s.gStopRequested = true → (s.step obs view a).gStopRequested = true) := by
  have hacts := acts_step s obs view a
  generalize s.step obs view a = s' at hacts ⊢
  cases hacts with
  | worker now hisr => exact .inl ⟨now, rfl, hisr, rfl⟩
  | handler i hisr =>
    obtain ⟨-, hpc, -, hactive, hflag, hstats⟩ := frame_handle s view i
    rw [apply_eq]
    exact .inr ⟨rfl, hpc, congrArg (fun stats => stats.1.2.1) hstats, hactive, fun h => hflag.trans h⟩
  | requestStop => exact .inr ⟨rfl, rfl, rfl, rfl, fun _ => rfl⟩
  | none a hnone =>
    refine .inr ⟨?_, rfl, rfl, rfl, id⟩
    unfold finishes
    split
    · exact absurd ‹_› ((hnone.resolve_left (by simp)).resolve_left (by simp))
    · exact absurd ‹_› ((hnone.resolve_left (by simp)).resolve_left (by simp))
    · rfl
  | _ => exact .inr ⟨rfl, rfl, rfl, rfl, id⟩

/-- An action that does not finish a range leaves the number of the completed ones. -/
theorem step_rangesCompleted (h : s.finishes a = false) :
    (s.step obs view a).gStats.rangesCompleted = s.gStats.rangesCompleted := by
  obtain ⟨now, rfl, hisr, hstep⟩ | ⟨-, -, hcompleted, -⟩ := step_cases obs view a s
  · rw [hstep, apply_eq]
    refine advance_rangesCompleted view now (fun request reason hpc => ?_) (fun reason hpc => ?_)
    · simp [finishes, hisr, hpc] at h
    · simp [finishes, hisr, hpc] at h
  · exact hcompleted

theorem step_flag (h : Kept s) (hfin : s.finishes a = false) (hactive : s.gRangeActive = true)
    (hflag : s.gStopRequested = true) :
    (s.step obs view a).gRangeActive = true ∧ (s.step obs view a).gStopRequested = true := by
  obtain ⟨now, rfl, hisr, hstep⟩ | ⟨-, -, -, hactive', hflag'⟩ := step_cases obs view a s
  · rw [hstep, apply_eq]
    refine advance_flag view now h hactive hflag (fun request reason hpc => ?_) (fun reason hpc => ?_)
    · simp [finishes, hisr, hpc] at hfin
    · simp [finishes, hisr, hpc] at hfin
  · exact ⟨hactive'.trans hactive, hflag' hflag⟩

/-- The worker is to finish a range as complete only after one of the two branches. -/
theorem step_completes (h : (s.step obs view a).pc.completes = true) :
    s.findsIdle a = true ∨ s.findsFlagClear a = true ∨ s.pc.completes = true := by
  obtain ⟨now, rfl, hisr, hstep⟩ | ⟨-, hpc, -⟩ := step_cases obs view a s
  · rw [hstep, apply_eq] at h
    exact (advance_completes hisr h).imp_right .inl
  · rw [hpc] at h
    exact .inr (.inr h)

/-- A stop write leaves the worker where it is. -/
theorem stopsEarly_pc (h : s.stopsEarly obs view a = true) : (s.step obs view a).pc = s.pc := by
  obtain ⟨now, rfl, -⟩ | ⟨-, hpc, -⟩ := step_cases obs view a s
  · exact absurd h Bool.false_ne_true
  · exact hpc

/-- A range with time left that is finished otherwise than as complete. -/
theorem step_incomplete (obs : Engine → α) (view : α → Word) (hfin : s.finishes a = true)
    (hpc : s.pc.completes = false) (htime : s.timeLeft a = true) :
    (s.step obs view a).gStats.rangesCompleted = s.gStats.rangesCompleted ∧
      (s.step obs view a).gStats.nonceCandidatesCompletedEstimate <
        s.gStats.nonceCandidatesCompletedEstimate + s.gStats.activeNonceCount.toNat := by
  obtain ⟨now, rfl, hisr, hstep⟩ | ⟨hnot, -⟩ := step_cases obs view a s
  · have htime : s.estimated now < s.gStats.activeNonceCount.toNat := of_decide_eq_true htime
    rw [hstep, apply_eq]
    cases hpc' : s.pc with
    | finishRequest request reason =>
      have hreason : reason ≠ .complete := by
        rintro rfl
        simp [hpc', Pc.completes] at hpc
      obtain ⟨hcompleted, hestimate⟩ := countCleanJob_stats request reason (s.finishRange now reason)
      simp only [advance, hpc', hcompleted, hestimate]
      exact finishRange_incomplete hreason htime
    | finishIdle reason =>
      have hreason : reason ≠ .complete := by
        rintro rfl
        simp [hpc', Pc.completes] at hpc
      simp only [advance, hpc']
      exact finishRange_incomplete hreason htime
    | _ => simp [finishes, hisr, hpc'] at hfin
  · exact absurd hfin (by simp [hnot])

end Steps

end Board

/-! ## The board under watch -/

/-- The board, and whether the active range, or the one that is being started, has been stopped early. -/
structure Watched (α : Type) (host : HostCfg) (cfg : MinerCfg) where
  board : Board α host cfg
  early : Bool

namespace Watched

variable [Inhabited α] {obs : Engine → α} {view : α → Word}

def step (obs : Engine → α) (view : α → Word) (a : Action host.instances) (w : Watched α host cfg) :
    Watched α host cfg where
  board := w.board.step obs view a
  early := !w.board.finishes a && (w.early || w.board.stopsEarly obs view a)

def reset (engines : Fin host.instances → Fin cfg.numEngines → Engine) : Watched α host cfg :=
  ⟨Board.reset engines, false⟩

/-- A range that has been stopped early is not counted as completed, nor are all its nonces. -/
def NotCompleted (obs : Engine → α) (view : α → Word) (a : Action host.instances) (w : Watched α host cfg) : Prop :=
  let s := w.board
  let s' := s.step obs view a
  w.early = true → s'.gStats.rangesCompleted = s.gStats.rangesCompleted ∧
    (s.finishes a = true → s'.gStats.nonceCandidatesCompletedEstimate <
      s.gStats.nonceCandidatesCompletedEstimate + s.gStats.activeNonceCount.toNat)

/-- A stop comes before the worker has decided that the range is complete, and once the range has been stopped early,
no job that is not clean finds all instances idle, the worker does not find the flag clear where it looks at it, and
the range has time left when it is finished. -/
structure SeesStop (obs : Engine → α) (view : α → Word) (a : Action host.instances) (w : Watched α host cfg) : Prop where
  undecided : w.board.stopsEarly obs view a = true → w.board.pc.completes = false
  request : w.early = true → w.board.findsIdle a = false
  flag : w.early = true → w.board.findsFlagClear a = false
  time : w.early = true → w.board.finishes a = true → w.board.timeLeft a = true

instance (a : Action host.instances) (w : Watched α host cfg) : Decidable (NotCompleted obs view a w) :=
  inferInstanceAs (Decidable (_ = true → _ ∧ (_ = true → _)))

instance (a : Action host.instances) (w : Watched α host cfg) : Decidable (SeesStop obs view a w) :=
  decidable_of_iff ((_ = true → _ = false) ∧ (_ = true → _ = false) ∧ (_ = true → _ = false) ∧
    (_ = true → _ = true → _ = true))
    ⟨fun ⟨h1, h2, h3, h4⟩ => ⟨h1, h2, h3, h4⟩, fun ⟨h1, h2, h3, h4⟩ => ⟨h1, h2, h3, h4⟩⟩

theorem early_step {a : Action host.instances} {w : Watched α host cfg} (h : (w.step obs view a).early = true) :
    w.board.finishes a = false ∧ (w.early = true ∨ w.board.stopsEarly obs view a = true) := by
  simpa [Watched.step] using h

/-- The worker is not about to finish a range as complete that has been stopped early. -/
def Undecided (w : Watched α host cfg) : Prop := w.early = true → w.board.pc.completes = false

theorem Undecided.step {a : Action host.instances} {w : Watched α host cfg} (h : w.Undecided)
    (hs : w.SeesStop obs view a) : (w.step obs view a).Undecided := by
  intro hearly
  obtain ⟨-, hearly | hstop⟩ := early_step hearly
  · by_contra hcomp
    obtain hidle | hflag | hpc := Board.step_completes (Bool.not_eq_false _ ▸ hcomp)
    · exact absurd hidle (by simp [hs.request hearly])
    · exact absurd hflag (by simp [hs.flag hearly])
    · exact absurd hpc (by simp [h hearly])
  · show (w.board.step obs view a).pc.completes = false
    rw [Board.stopsEarly_pc hstop]
    exact hs.undecided hstop

theorem Undecided.notCompleted {a : Action host.instances} {w : Watched α host cfg} (h : w.Undecided)
    (hs : w.SeesStop obs view a) : w.NotCompleted obs view a := by
  intro hearly
  cases hfin : w.board.finishes a with
  | true =>
    obtain ⟨hcompleted, hestimate⟩ := Board.step_incomplete obs view hfin (h hearly) (hs.time hearly hfin)
    exact ⟨hcompleted, fun _ => hestimate⟩
  | false => exact ⟨Board.step_rangesCompleted hfin, fun h => absurd h Bool.false_ne_true⟩

/-- While the range has been stopped early, it is active and the flag is set. -/
structure Flagged (w : Watched α host cfg) : Prop where
  kept : Board.Kept w.board
  active : w.early = true → w.board.gRangeActive = true
  flag : w.early = true → w.board.gStopRequested = true

theorem Flagged.step {a : Action host.instances} {w : Watched α host cfg} (h : w.Flagged)
    (hs : w.board.stopsEarly obs view a = true → w.board.gRangeActive = true ∧ w.board.gStopRequested = true) :
    (w.step obs view a).Flagged := by
  have hboth : (w.step obs view a).early = true →
      (w.board.step obs view a).gRangeActive = true ∧ (w.board.step obs view a).gStopRequested = true := by
    intro hearly
    obtain ⟨hfin, hearly | hstop⟩ := early_step hearly
    · exact Board.step_flag h.kept hfin (h.active hearly) (h.flag hearly)
    · obtain ⟨hactive, hflag⟩ := hs hstop
      exact Board.step_flag h.kept hfin hactive hflag
  exact ⟨Board.kept_step h.kept a, fun hearly => (hboth hearly).1, fun hearly => (hboth hearly).2⟩

omit [Inhabited α] in
theorem Flagged.found_set {a : Action host.instances} {w : Watched α host cfg} (h : w.Flagged)
    (hearly : w.early = true) : w.board.findsFlagClear a = false := by
  unfold Board.findsFlagClear
  split
  · simp [h.flag hearly]
  · rfl

/-- **Stops in time.** When the range is active and the flag set at every write that stops the range early, the worker
does not find the flag clear afterwards. -/
theorem flag_found_set (engines : Fin host.instances → Fin cfg.numEngines → Engine) (acts : List (Action host.instances))
    (h : Clocked.Along (step obs view) (fun a w => w.board.stopsEarly obs view a = true →
      w.board.gRangeActive = true ∧ w.board.gStopRequested = true) acts (reset engines)) :
    Clocked.Along (step obs view) (fun a w => w.early = true → w.board.findsFlagClear a = false) acts
      (reset engines : Watched α host cfg) :=
  Clocked.along_imp (fun _ _ => Flagged.step) (fun _ _ h _ => h.found_set)
    ⟨Board.kept_reset engines, fun h => absurd h Bool.false_ne_true, fun h => absurd h Bool.false_ne_true⟩ h

/-- **A stopped range.** In every run in which the worker sees the stops, a range that has been stopped early is never
counted as completed, and never all of its nonces. -/
theorem stopped_not_completed (engines : Fin host.instances → Fin cfg.numEngines → Engine)
    (acts : List (Action host.instances))
    (h : Clocked.Along (step obs view) (SeesStop obs view) acts (reset engines)) :
    Clocked.Along (step obs view) (NotCompleted obs view) acts (reset engines : Watched α host cfg) :=
  Clocked.along_imp (fun _ _ => Undecided.step) (fun _ _ => Undecided.notCompleted)
    (fun h => absurd h Bool.false_ne_true) h

/-! ## A call that is missed -/

/-- `miner_service_stop_scan`. -/
def stopScan {K : Nat} : List (Action K) := .requestStop :: (List.finRange K).map (.service · .stop)

/-- The parts of the call. -/
def isStopScan {K : Nat} : Action K → Bool
  | .requestStop | .service _ .stop => true
  | _ => false

/-- The worker starts a range of a thousand nonces, the engines begin, and the call stops them. -/
def stopThousand : List (Action appConfig.instances) :=
  List.replicate 22 (.worker 0) ++ .submitJob { zeroJob with nonceCount := 1000 } false ::
    List.replicate 95 (.worker 0) ++ List.replicate 4 .edge ++ stopScan

/-- The worker finds the instances idle, and the flag set. -/
theorem stopThousand_not_completed :
    Clocked.Along (step Engine.resultNonceO id) (NotCompleted Engine.resultNonceO id)
      (stopThousand ++ List.replicate 10 (.worker 0)) (reset fun _ _ => default : Watched Word appConfig twoEngines) :=
  stopped_not_completed _ _ (by decide +kernel)

/-- The next job, which is not clean, comes before the worker has looked at the flag. -/
theorem stopThousand_completed : ¬ ∀ (host : HostCfg) (cfg : MinerCfg)
    (engines : Fin host.instances → Fin cfg.numEngines → Engine) (acts : List (Action host.instances)),
    acts.filter isStopScan = stopScan → Clocked.Along (step Engine.resultNonceO id) (NotCompleted Engine.resultNonceO id)
      acts (reset engines : Watched Word host cfg) := by
  intro h
  have hcall : List.filter isStopScan
      (stopThousand ++ .submitJob zeroJob false :: List.replicate 8 (.worker 0)) = stopScan := rfl
  have hrun := h appConfig twoEngines (fun _ _ => default) _ hcall
  revert hrun
  decide +kernel

end Watched

end Vek280Miner
