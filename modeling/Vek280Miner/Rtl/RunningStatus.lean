import Vek280Miner.Rtl.StopWrite

/-!
# `STATUS.running`

`running_q` is to be low only when the miner has nothing left to do. It is lowered by the completion clause, which looks
at the loader and at the engines but not at the start pulses that are on their way to the engines, and which comes after
the start write in the same clocked block. So without stop writes the status is right exactly as long as the completion
clause fires neither together with a start write nor while a start pulse is up (`running_truthful_iff`). A miner with
one engine gets this wrong with every range (`single_engine_not_running`).
-/

namespace Vek280Miner.Rtl

variable {α : Type} {cfg : MinerCfg}

/-- Nothing is being loaded, started or evaluated. -/
structure Rested (s : MinerCore α cfg) : Prop where
  quiet : LoaderQuiet s
  engines : ∀ e, (s.engines e).stateQ = .idle

/-- When `STATUS` says that the miner is not running, or that the range is done, there is nothing left to do. -/
def Truthful (s : MinerCore α cfg) : Prop := s.runningQ = false ∨ s.nonceDoneQ = true → Rested s

/-- If the range is found to be over at this edge, no start is applied and no start pulse is up. -/
def CompletesAlone (w : Option Write) (s : MinerCore α cfg) : Prop :=
  s.completes = true → s.startsLoad w = false ∧ ∀ e, s.engineStartQ e = false

instance (w : Option Write) (s : MinerCore α cfg) : Decidable (CompletesAlone w s) :=
  inferInstanceAs (Decidable (_ → _))

/-! ## Engines -/

/-- An engine that reports the end of its scan is idle. -/
theorem engine_done_step {c : EngineCfg} {i : EngineIn} {s : Engine} (h : (s.step c i).doneO = true) :
    (s.step c i).stateQ = .idle := by
  revert h
  cases hi : i.stop with
  | true => simp [step_stop hi]
  | false =>
    cases hst : s.stateQ with
    | idle =>
      cases hs : i.start && i.nonceCount != 0 with
      | true => simp [step_accept hi hst hs, Engine.defaults]
      | false => simp [step_idle hi hst hs, Engine.defaults]
    | launch => simp [step_launch hi hst, Engine.defaults]
    | pass1 => rw [step_pass1 hi hst]; split <;> simp [Engine.defaults]
    | pass2 => rw [step_pass2 hi hst]; split <;> simp [Engine.defaults]
    | compare => rw [step_compare hi hst, Engine.compareStep]; split <;> simp [Engine.defaults]
    | check => rw [step_check hi hst]; split <;> simp [Engine.defaults]

/-! ## What every run keeps -/

/-- The facts about the loader and the engines on which the completion clause relies. -/
structure LoadSound (s : MinerCore α cfg) : Prop where
  stop : ∀ e, s.engineStopQ e = false
  done : ∀ e, (s.engines e).doneO = true → (s.engines e).stateQ = .idle
  decode : s.loadStateQ = .decode → s.engineNonceCountQ s.loadStartIdxQ = s.loadStartCountQ
  onehot : s.loadStateQ = .start → ∀ e, s.loadStartOnehotQ e = true → s.engineNonceCountQ e ≠ 0
  pulse : ∀ e, s.engineStartQ e = true → s.engineNonceCountQ e ≠ 0

theorem loadSound_reset [Inhabited α] (engines : Fin cfg.numEngines → Engine) :
    LoadSound (MinerCore.reset engines : MinerCore α cfg) where
  stop _ := rfl
  done _ h := by simp [MinerCore.reset, Engine.reset] at h
  decode h := by simp [MinerCore.reset] at h
  onehot h := by simp [MinerCore.reset] at h
  pulse _ h := by simp [MinerCore.reset] at h

theorem loadSound_step [Inhabited α] {obs : Engine → α} {w : Option Write} {s : MinerCore α cfg} (h : LoadSound s)
    (hw : ∀ v, w = some v → v.stop = false) : LoadSound (s.step obs w) where
  stop e := by
    cases w with
    | none => rfl
    | some v => exact hw v rfl
  done e he := engine_done_step he
  decode hd := by
    have hl : s.loadStateQ = .prep := by
      cases hl : s.loadStateQ with
      | prep => rfl
      | idle => simp [MinerCore.step, hl, ite_eq_iff] at hd
      | decode => simp [MinerCore.step, hl] at hd
      | start => simp [MinerCore.step, hl, ite_eq_iff] at hd
    simp [MinerCore.step, hl]
  onehot hs e he := by
    have hl : s.loadStateQ = .decode := by
      cases hl : s.loadStateQ with
      | decode => rfl
      | idle => simp [MinerCore.step, hl, ite_eq_iff] at hs
      | prep => simp [MinerCore.step, hl] at hs
      | start => simp [MinerCore.step, hl, ite_eq_iff] at hs
    simp only [MinerCore.step, hl, if_true, reduceCtorEq, if_false] at he ⊢
    split at he
    · have hi : e = s.loadStartIdxQ := by simpa [engineOnehot] using he
      rw [hi, h.decode hl]
      assumption
    · simp at he
  pulse e he := by
    by_cases hl : s.loadStateQ = .start
    · simp only [MinerCore.step, hl, if_true, reduceCtorEq, if_false] at he ⊢
      exact h.onehot hl e he
    · simp [MinerCore.step, hl] at he

/-- When the range is found to be over the engines are idle. -/
theorem LoadSound.idle_of_completes {s : MinerCore α cfg} (h : LoadSound s) (hc : s.completes = true)
    (e : Fin cfg.numEngines) : (s.engines e).stateQ = .idle := by
  simp only [MinerCore.completes, Bool.and_eq_true, Bool.or_eq_true, decide_eq_true_eq] at hc
  obtain ⟨⟨-, hb | hd⟩, -⟩ := hc
  · have := hb e
    simp only [Engine.busyO, Bool.or_eq_false_iff] at this
    simpa using this.1
  · exact h.done e (hd e)

theorem load_of_completes {s : MinerCore α cfg} (hc : s.completes = true) : s.loadStateQ = .idle := by
  simp only [MinerCore.completes, Bool.and_eq_true, beq_iff_eq] at hc
  exact hc.1.1.2

/-! ## One edge -/

section Step

variable [Inhabited α] {obs : Engine → α} {w : Option Write} {s : MinerCore α cfg}

/-- A miner at rest that is not started stays at rest. -/
theorem rested_step (hl : s.loadStateQ = .idle) (hp : ∀ e, s.engineStartQ e = false)
    (he : ∀ e, (s.engines e).stateQ = .idle) (hw : s.startsLoad w = false) : Rested (s.step obs w) := by
  refine ⟨loaderQuiet_step hl fun v hv => ?_, fun e => (engine_idle_step (hp e) (he e)).1⟩
  simpa [hv, MinerCore.startsLoad, hl] using hw

/-- An edge at which the range is not found to be over and no start is applied keeps the status. -/
theorem status_step (hc : s.completes = false) (hw : ∀ v, w = some v → v.stop = false)
    (h : (s.step obs w).runningQ = false ∨ (s.step obs w).nonceDoneQ = true) :
    s.startsLoad w = false ∧ (s.runningQ = false ∨ s.nonceDoneQ = true) := by
  have hstop : w.any (·.stop) = false := by
    cases w with
    | none => rfl
    | some v => exact hw v rfl
  simp only [MinerCore.step, hc, hstop, Bool.false_eq_true, if_false] at h
  cases hs : s.startsLoad w with
  | true => simp [hs] at h
  | false =>
    refine ⟨rfl, h.imp (fun h => by simpa [hs] using h) fun h => ?_⟩
    simp only [hs, Bool.false_eq_true, if_false] at h
    split at h
    · simp at h
    · exact h

theorem truthful_step (hs : LoadSound s) (ht : Truthful s) (hw : ∀ v, w = some v → v.stop = false)
    (hcl : CompletesAlone w s) : Truthful (s.step obs w) := by
  intro hst
  cases hc : s.completes with
  | true =>
    obtain ⟨hstart, hpulse⟩ := hcl hc
    exact rested_step (load_of_completes hc) hpulse (hs.idle_of_completes hc) hstart
  | false =>
    obtain ⟨hstart, hold⟩ := status_step hc hw hst
    obtain ⟨⟨hl, hp⟩, he⟩ := ht hold
    exact rested_step hl hp he hstart

/-- An edge that lowers `running_q` together with a start, or past a start pulse, leaves work behind. -/
theorem completesAlone_of_truthful (hs : LoadSound s) (hw : ∀ v, w = some v → v.stop = false)
    (ht : Truthful (s.step obs w)) : CompletesAlone w s := by
  intro hc
  have hl := load_of_completes hc
  obtain ⟨⟨hload, -⟩, hidle⟩ := ht (.inl (by simp [MinerCore.step, hc]))
  constructor
  · cases hst : s.startsLoad w with
    | false => rfl
    | true =>
      have hstop : w.any (·.stop) = false := by
        cases w with
        | none => rfl
        | some v => exact hw v rfl
      simp [MinerCore.step, hl, hstop, hst] at hload
  · intro e
    by_contra hp
    have hp : s.engineStartQ e = true := by simpa using hp
    have hacc := @step_accept cfg.engine (s.engineIn e) _ (hs.stop e) (hs.idle_of_completes hc e)
      (by simpa [MinerCore.engineIn, hp] using hs.pulse e hp)
    have hst := hidle e
    simp only [MinerCore.step, hacc] at hst
    simp at hst

end Step

/-! ## Runs -/

/-- **Status.** In a run without stop writes, `STATUS` is right in every state exactly when the completion clause never
fires together with a start write or while a start pulse is up. -/
theorem running_truthful_iff (engines : Fin cfg.numEngines → Engine) (inp : Nat → AxiIn) (n : Nat)
    (hstop : ∀ t < n, ∀ w, MinerAxi.appliedAt inp (MinerAxi.reset engines) t = some w → w.stop = false) :
    (∀ t ≤ n, Truthful (Clocked.run MinerAxi.step inp (MinerAxi.reset engines) t).core) ↔
      ∀ t < n, CompletesAlone (MinerAxi.appliedAt inp (MinerAxi.reset engines) t)
        (Clocked.run MinerAxi.step inp (MinerAxi.reset engines) t).core := by
  have hsound : ∀ t ≤ n, LoadSound (Clocked.run MinerAxi.step inp (MinerAxi.reset engines) t).core := by
    intro t
    induction t with
    | zero => exact fun _ => loadSound_reset engines
    | succ t ih => exact fun ht => loadSound_step (ih (by omega)) (hstop t ht)
  constructor
  · intro h t ht
    exact completesAlone_of_truthful (hsound t (by omega)) (hstop t ht) (h (t + 1) ht)
  · intro h t
    induction t with
    | zero => exact fun _ _ => ⟨⟨rfl, fun _ => rfl⟩, fun _ => rfl⟩
    | succ t ih => exact fun ht => truthful_step (hsound t (by omega)) (ih (by omega)) (hstop t ht) (h t ht)

/-- Two engines that are started for two nonces, until both are at work. -/
theorem two_engines_running_truthful :
    (∀ t < 24, ∀ w, MinerAxi.appliedAt (busWrites [(0x084, 2), (0x000, 1)])
      (MinerAxi.reset fun _ => default : MinerAxi twoEngines) t = some w → w.stop = false) ∧
    ∀ t ≤ 24, Truthful (Clocked.run MinerAxi.step (busWrites [(0x084, 2), (0x000, 1)])
      (MinerAxi.reset fun _ => default : MinerAxi twoEngines) t).core := by
  have hstop : ∀ t < 24, ∀ w, MinerAxi.appliedAt (busWrites [(0x084, 2), (0x000, 1)])
      (MinerAxi.reset fun _ => default : MinerAxi twoEngines) t = some w → w.stop = false := by
    decide +kernel
  exact ⟨hstop, (running_truthful_iff _ _ 24 hstop).2 (by decide +kernel)⟩

/-! ## A single engine -/

theorem one_lt_word : 1 < 2 ^ 32 := by decide

/-- A miner with a single engine. -/
def singleEngine : MinerCfg := ⟨1, 1, 2, false, Nat.one_pos, one_lt_word, Nat.one_pos, Nat.two_pos⟩

/-- The loader is idle again when the only start pulse goes up, and the engine is not busy yet. -/
theorem single_engine_not_running : ¬ ∀ (cfg : MinerCfg) (engines : Fin cfg.numEngines → Engine) (inp : Nat → AxiIn)
    (n : Nat), (∀ t < n, ∀ w, MinerAxi.appliedAt inp (MinerAxi.reset engines) t = some w → w.stop = false) →
    ∀ t ≤ n, Truthful (Clocked.run MinerAxi.step inp (MinerAxi.reset engines) t).core := by
  intro h
  have hs := h singleEngine (fun _ => default) (busWrites [(0x084, 1), (0x000, 1)]) 11 (by decide +kernel) 11 le_rfl
  have hidle := (hs (.inl (by decide +kernel))).engines singleEngine.firstEngine
  revert hidle
  decide +kernel

end Vek280Miner.Rtl
