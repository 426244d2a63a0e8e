import Vek280Miner.Rtl.MinerAxi

/-!
# `CONTROL.stop`

A stop write assigns the loader's state, but the loader assigns it again in the same clocked block whenever it is not
idle. The stop therefore takes effect exactly when it finds the loader idle, or about to become idle with no engine left
to start (`stop_takes_effect_iff`); otherwise the loader goes on to start the engines it has not reached yet.
-/

namespace Vek280Miner.Rtl

variable {cfg : MinerCfg}

/-! ## A loader that is left alone -/

/-- Loader idle and no start pulse on its way to an engine. -/
structure LoaderQuiet {α : Type} (s : MinerCore α cfg) : Prop where
  load : s.loadStateQ = .idle
  pulse : ∀ e, s.engineStartQ e = false

theorem loaderQuiet_step {α : Type} [Inhabited α] {obs : Engine → α} {s : MinerCore α cfg} {w : Option Write}
    (h : s.loadStateQ = .idle) (hw : ∀ v, w = some v → v.start = false) : LoaderQuiet (s.step obs w) := by
  have hs : s.startsLoad w = false := by
    cases w with
    | none => rfl
    | some v => simp [MinerCore.startsLoad, hw v rfl]
  refine ⟨?_, fun e => ?_⟩
  · simp only [MinerCore.step, h, hs]
    simp
  · simp [MinerCore.step, h]

/-- An engine that is idle and is not started stays idle and reports nothing. -/
theorem engine_idle_step {c : EngineCfg} {i : EngineIn} {s : Engine} (hs : i.start = false) (h : s.stateQ = .idle) :
    (s.step c i).stateQ = .idle ∧ (s.step c i).resultValidO = false := by
  cases hi : i.stop with
  | true =>
    rw [step_stop hi]
    exact ⟨rfl, rfl⟩
  | false =>
    rw [step_idle hi h (by simp [hs])]
    exact ⟨h, rfl⟩

theorem engine_stop_step {c : EngineCfg} {i : EngineIn} {s : Engine} (hi : i.stop = true) :
    (s.step c i).stateQ = .idle ∧ (s.step c i).resultValidO = false := by
  rw [step_stop hi]
  exact ⟨rfl, rfl⟩

/-! ## The stop write -/

/-- No write applied after the first edge and before edge `t` starts the loader. -/
def NoStart (inp : Nat → AxiIn) (s : MinerAxi cfg) (t : Nat) : Prop :=
  ∀ u, 1 ≤ u → u < t → ∀ w, MinerAxi.appliedAt inp s u = some w → w.start = false

/-- What a stop applied at the first edge is to achieve: while no start is applied the loader stays idle and sends no
pulse, and from the second edge on every engine is idle and reports nothing. -/
def Stopped (inp : Nat → AxiIn) (s : MinerAxi cfg) : Prop :=
  ∀ t, 1 ≤ t → NoStart inp s t →
    LoaderQuiet (Clocked.run MinerAxi.step inp s t).core ∧
      (2 ≤ t → ∀ e, ((Clocked.run MinerAxi.step inp s t).core.engines e).stateQ = .idle ∧
        ((Clocked.run MinerAxi.step inp s t).core.engines e).resultValidO = false)

/-- The loader is idle, or takes its last step and has no engine to start. -/
def LoaderSettled {α : Type} (s : MinerCore α cfg) : Prop :=
  s.loadStateQ = .idle ∨ (s.loadStateQ = .start ∧ s.loadStartLastQ = true ∧ ∀ e, s.loadStartOnehotQ e = false)

theorem loaderQuiet_iff_settled {α : Type} [Inhabited α] {obs : Engine → α} {s : MinerCore α cfg} {w : Write}
    (hw : w.start = false) : LoaderQuiet (s.step obs (some w)) ↔ LoaderSettled s := by
  constructor
  · rintro ⟨hl, hp⟩
    cases h : s.loadStateQ with
    | idle => exact .inl h
    | prep => simp [MinerCore.step, h] at hl
    | decode => simp [MinerCore.step, h] at hl
    | start =>
      simp only [MinerCore.step, h] at hl hp
      refine .inr ⟨h, ?_, hp⟩
      by_contra hlast
      simp [hlast] at hl
  · rintro (h | ⟨h, hlast, hone⟩)
    · exact loaderQuiet_step h fun v hv => by rw [← Option.some.inj hv, hw]
    · exact ⟨by simp [MinerCore.step, h, hlast], fun e => by simp [MinerCore.step, h, hone]⟩

/-- **Stop.** In every state, a stop write without the start bit stops the miner exactly when it finds the loader
settled. -/
theorem stop_takes_effect_iff (s : MinerAxi cfg) (inp : Nat → AxiIn) (w : Write) (hw : s.applied = some w)
    (hstop : w.stop = true) (hstart : w.start = false) :
    Stopped inp s ↔ LoaderSettled s.core := by
  constructor
  · intro h
    have h1 := (h 1 le_rfl fun u hu hu' => by omega).1
    have hcore : (Clocked.run MinerAxi.step inp s 1).core = s.core.step Engine.resultNonceO (some w) := by
      rw [← hw]
      rfl
    rw [hcore] at h1
    exact (loaderQuiet_iff_settled hstart).1 h1
  · intro hset t
    induction t with
    | zero => exact fun h => by omega
    | succ t ih =>
      intro _ hns
      rcases Nat.eq_zero_or_pos t with rfl | ht
      · refine ⟨?_, fun h => by omega⟩
        show LoaderQuiet (s.core.step Engine.resultNonceO s.applied)
        rw [hw]
        exact (loaderQuiet_iff_settled hstart).2 hset
      · obtain ⟨hq, hidle⟩ := ih ht fun u hu hu' => hns u hu (by omega)
        refine ⟨loaderQuiet_step hq.load fun v hv => hns t ht (by omega) v hv, fun _ e => ?_⟩
        rcases Nat.eq_or_lt_of_le (Nat.succ_le_of_lt ht) with h1 | h2
        · have hstopQ : (Clocked.run MinerAxi.step inp s t).core.engineStopQ e = true := by
            rw [← h1]
            show s.applied.any (·.stop) = true
            rw [hw]
            exact hstop
          exact engine_stop_step hstopQ
        · exact engine_idle_step (hq.pulse e) (hidle h2 e).1

/-! ## A stop that finds the loader at work -/

/-- Two engines in two clusters. -/
def twoEngines : MinerCfg := ⟨2, 1, 2, false, by decide, by decide, by decide, by decide⟩

/-- A bus master that has `l` to write, one word every four edges. -/
def busWrites (l : List (BitVec 12 × Word)) (t : Nat) : AxiIn :=
  let fire := t % 4 == 0 && decide (t / 4 < l.length)
  ⟨(l.getD (t / 4) default).1, fire, (l.getD (t / 4) default).2, 0xf, fire, true, 0, false, true⟩

/-- The miner when a stop is applied that follows a start as soon as the bus takes it. -/
def stopDuringLoad : MinerAxi twoEngines :=
  Clocked.run MinerAxi.step (busWrites [(0x000, 1), (0x000, 2)]) (MinerAxi.reset fun _ => default) 6

theorem stopDuringLoad_reachable : stopDuringLoad.Reachable := Clocked.Reachable.run (.init ⟨_, rfl⟩) _ _

/-- The loader is preparing the second engine and goes on. -/
theorem stop_during_load_ignored : ¬ ∀ (cfg : MinerCfg) (s : MinerAxi cfg) (inp : Nat → AxiIn) (w : Write), s.Reachable →
    s.applied = some w → w.stop = true → w.start = false → Stopped inp s := by
  intro h
  have hs := h twoEngines stopDuringLoad (fun _ => default) ⟨.control, 2, 0xf⟩ stopDuringLoad_reachable
    (by decide +kernel) (by decide) (by decide)
  have h1 := (hs 1 le_rfl fun u hu hu' => by omega).1.load
  revert h1
  decide +kernel

/-- The miner when a stop is applied that follows a start later. -/
def stopDuringScan : MinerAxi twoEngines :=
  Clocked.run MinerAxi.step (busWrites [(0x084, 4), (0x000, 1), (0x010, 0), (0x010, 0), (0x000, 2)])
    (MinerAxi.reset fun _ => default) 18

/-- Both engines are scanning, and the loader is done. -/
theorem stop_during_scan_stops : (∀ e, (stopDuringScan.core.engines e).stateQ ≠ .idle) ∧
    Stopped (fun _ => default) stopDuringScan := by
  refine ⟨by decide +kernel, ?_⟩
  exact (stop_takes_effect_iff stopDuringScan _ ⟨.control, 2, 0xf⟩ (by decide +kernel) (by decide) (by decide)).2
    (.inl (by decide +kernel))

end Vek280Miner.Rtl
