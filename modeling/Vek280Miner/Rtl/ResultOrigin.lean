import Vek280Miner.Rtl.ResultPath
import Vek280Miner.Rtl.StopWrite

/-!
# Where results come from

To say which job a result belongs to, the result path carries the job that the reporting engine has latched beside the
nonce (`traced`). `Serves o s` says that an instance works on one job at most: the job of every busy engine, of every
result on its way and of the result register is `o`, and so is the job that the loader hands out. Without writes to the
job registers and without a start every edge keeps this (`serves_step`). A start write begins to serve the programmed
job when it finds the instance at rest (`AtRest.serves_start`).
-/

namespace Vek280Miner.Rtl

variable {cfg : MinerCfg}

/-- A nonce and the job under which it was evaluated. -/
abbrev Traced := Word × Latched

/-- What is recorded of an engine that reports. -/
def traced (e : Engine) : Traced := (e.resultNonceO, e.latchedQ)

/-! ## Engines -/

/-- An engine that leaves an edge at work was at work on the same job, or was started with the job at its ports. -/
theorem engine_busy_step {c : EngineCfg} {i : EngineIn} {s : Engine} (h : (s.step c i).stateQ ≠ .idle) :
    (s.stateQ ≠ .idle ∧ (s.step c i).latchedQ = s.latchedQ) ∨ (i.start = true ∧ (s.step c i).latchedQ = i.job) := by
  cases hi : i.stop with
  | true => exact absurd (engine_stop_step hi).1 h
  | false =>
    cases hst : s.stateQ with
    | idle =>
      cases hs : i.start && i.nonceCount != 0 with
      | true =>
        rw [step_accept hi hst hs]
        exact .inr ⟨(Bool.and_eq_true_iff.1 hs).1, rfl⟩
      | false =>
        rw [step_idle hi hst hs] at h
        exact absurd hst h
    | launch => rw [step_launch hi hst]; exact .inl ⟨by simp, rfl⟩
    | pass1 => rw [step_pass1 hi hst]; refine .inl ⟨by simp, ?_⟩; split <;> rfl
    | pass2 => rw [step_pass2 hi hst]; refine .inl ⟨by simp, ?_⟩; split <;> rfl
    | compare =>
      rw [step_compare hi hst, Engine.compareStep]
      refine .inl ⟨by simp, ?_⟩
      split <;> rfl
    | check => rw [step_check hi hst]; refine .inl ⟨by simp, ?_⟩; split <;> rfl

/-- An engine reports in `ST_CHECK` only. -/
theorem engine_reports_step {c : EngineCfg} {i : EngineIn} {s : Engine} (h : (s.step c i).resultValidO = true) :
    (s.step c i).stateQ = .check := by
  revert h
  cases hi : i.stop with
  | true => simp [step_stop hi, Engine.defaults]
  | false =>
    cases hst : s.stateQ with
    | idle =>
      cases hs : i.start && i.nonceCount != 0 with
      | true => simp [step_accept hi hst hs, Engine.defaults]
      | false => simp [step_idle hi hst hs, Engine.defaults]
    | launch => simp [step_launch hi hst, Engine.defaults]
    | pass1 => rw [step_pass1 hi hst]; split <;> simp [Engine.defaults]
    | pass2 => rw [step_pass2 hi hst]; split <;> simp [Engine.defaults]
    | compare => rw [step_compare hi hst, Engine.compareStep]; split <;> simp [Engine.defaults]
    | check => rw [step_check hi hst]; split <;> simp [Engine.defaults]

/-- Engines that report are at work. -/
def ReportsBusy {α : Type} (s : MinerCore α cfg) : Prop :=
  ∀ e, (s.engines e).resultValidO = true → (s.engines e).stateQ ≠ .idle

theorem reportsBusy_reset {α : Type} [Inhabited α] (engines : Fin cfg.numEngines → Engine) :
    ReportsBusy (MinerCore.reset engines : MinerCore α cfg) := by
  intro e h
  simp [MinerCore.reset, Engine.reset] at h

theorem reportsBusy_step {α : Type} [Inhabited α] {obs : Engine → α} {w : Option Write} (s : MinerCore α cfg) :
    ReportsBusy (s.step obs w) := by
  intro e h
  have hc : ((s.step obs w).engines e).stateQ = .check := engine_reports_step h
  rw [hc]
  exact EngineState.noConfusion

/-! ## Writes -/

/-- A write that starts nothing and leaves the job registers alone. -/
structure Write.Passive (w : Write) : Prop where
  start : w.start = false
  job : ∀ j : Latched, j.write w = j

/-! ## Serving one job -/

/-- Whatever the instance works on belongs to the job `o`. -/
structure Serves (o : Option Latched) (s : MinerCore Traced cfg) : Prop where
  load : s.loadStateQ ≠ .idle → o = some s.job
  pulse : ∀ e, s.engineStartQ e = true → o = some s.job
  engines : ∀ e, (s.engines e).stateQ ≠ .idle → o = some (s.engines e).latchedQ
  path : AllResults (fun x => o = some x.2) s
  result : s.resultValidQ = true → o = some s.resultNonceQ.2

theorem serves_reset (o : Option Latched) (engines : Fin cfg.numEngines → Engine) :
    Serves o (MinerCore.reset engines : MinerCore Traced cfg) where
  load h := absurd rfl h
  pulse e h := by simp [MinerCore.reset] at h
  engines e h := absurd rfl h
  path c := ClusterFifo.all_reset _
  result h := by simp [MinerCore.reset] at h

section Step

variable {s : MinerCore Traced cfg} {w : Option Write} {o : Option Latched}

theorem step_job (hw : ∀ v, w = some v → v.Passive) : (s.step traced w).job = s.job := by
  cases w with
  | none => rfl
  | some v => exact (hw v rfl).job _

/-- The result register holds a result of `o` once it has held one. -/
theorem Serves.resultNonce_step (h : Serves o s) (hr : o = some s.resultNonceQ.2) :
    o = some (s.step traced w).resultNonceQ.2 := by
  simp only [MinerCore.step]
  cases hc : s.capture with
  | none => exact hr
  | some c => exact h.path.capture hc

theorem serves_step (h : Serves o s) (hb : ReportsBusy s) (hw : ∀ v, w = some v → v.Passive) :
    Serves o (s.step traced w) where
  load hl := by
    rw [step_job hw]
    by_cases hi : s.loadStateQ = .idle
    · exact absurd (loaderQuiet_step hi fun v hv => (hw v hv).start).load hl
    · exact h.load hi
  pulse e he := by
    rw [step_job hw]
    by_cases hi : s.loadStateQ = .idle
    · simp [MinerCore.step, hi] at he
    · exact h.load hi
  engines e he := by
    rcases engine_busy_step (s := s.engines e) (i := s.engineIn e) he with ⟨hn, hl⟩ | ⟨hs, hl⟩
    · exact (h.engines e hn).trans (congrArg some hl.symm)
    · exact (h.pulse e hs).trans (congrArg some hl.symm)
  path := allResults_step (fun e he => h.engines e (hb e he)) h.path
  result hr := by
    cases hc : s.capture with
    | some c =>
      simp only [MinerCore.step, hc]
      exact h.path.capture hc
    | none =>
      refine h.resultNonce_step (h.result ?_)
      simp only [MinerCore.step, hc] at hr
      by_contra hn
      simp [hn] at hr

/-! ## Starting from rest -/

/-- The loader and all engines idle, no start pulse on its way, and no result on its way to the result register. -/
structure AtRest {α : Type} (s : MinerCore α cfg) : Prop where
  quiet : LoaderQuiet s
  engines : ∀ e, (s.engines e).stateQ = .idle
  path : AllResults (fun _ => False) s

instance {α : Type} (s : MinerCore α cfg) : Decidable (AtRest s) :=
  decidable_of_iff ((s.loadStateQ = .idle ∧ ∀ e, s.engineStartQ e = false) ∧ (∀ e, (s.engines e).stateQ = .idle) ∧
      ∀ c, (s.fifos c).All fun _ => False)
    ⟨fun ⟨⟨h1, h2⟩, h3, h4⟩ => ⟨⟨h1, h2⟩, h3, h4⟩, fun h => ⟨⟨h.quiet.load, h.quiet.pulse⟩, h.engines, h.path⟩⟩

/-- **Start from rest.** The instance serves the job in its registers. -/
theorem AtRest.serves_start (h : AtRest s) (hb : ReportsBusy s) {v : Write} (hv : v.start = true) :
    Serves (some s.job) (s.step traced (some v)) where
  load _ := by
    have hsel : v.sel = .control := by
      simp only [Write.start, Bool.and_eq_true, beq_iff_eq] at hv
      exact hv.1
    simp [MinerCore.step, Latched.write, hsel]
  pulse e he := by simp [MinerCore.step, h.quiet.load] at he
  engines e he := absurd (engine_idle_step (h.quiet.pulse e) (h.engines e)).1 he
  path c := (allResults_step (fun e he => absurd (h.engines e) (hb e he)) h.path c).mono fun _ hx => hx.elim
  result hr := by
    simp [MinerCore.step, capture_of_empty h.path, MinerCore.startsLoad, hv, h.quiet.load] at hr

end Step

end Vek280Miner.Rtl
