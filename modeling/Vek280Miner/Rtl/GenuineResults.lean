import Vek280Miner.Rtl.EngineScan
import Vek280Miner.Rtl.ResultOrigin

/-!
# Genuine results

An engine that takes its start with a free core evaluates nonces of the job it has latched, and what it reports then is
a share of that job (`Engine.Genuine.share`). In an instance every start pulse finds such an engine if the start write
that the pulse comes from found the loader and the engines idle and their cores free: the loader has not been at the
engines ahead of it, and nothing else starts one (`orderly_step`), whatever is written meanwhile.
-/

namespace Vek280Miner.Rtl

/-! ## Engines -/

namespace Engine

/-- The engine rests, or evaluates a nonce for the job it has latched. -/
def Genuine (c : EngineCfg) (s : Engine) : Prop := ∃ L?, Justified c L? s

/-- Idle with nothing to launch, the core free. -/
structure Unused (s : Engine) : Prop where
  idle : s.stateQ = .idle
  launch : s.coreStartQ = false
  core : s.core.busyQ = false

variable {c : EngineCfg} {i : EngineIn} {s : Engine}

theorem genuine_reset (c : EngineCfg) (s : Engine) : s.reset.Genuine c := ⟨none, .idle rfl rfl rfl⟩

theorem Genuine.step (h : s.Genuine c) (hfree : i.start = true → s.Unused) : (s.step c i).Genuine c := by
  obtain ⟨L?, hj⟩ := h
  refine ⟨_, justified_step hj fun hacc => ?_⟩
  simp only [accepts, Bool.and_eq_true] at hacc
  simp [coreFree, (hfree hacc.1.2).core]

/-- What a genuine engine reports is a share of its job. -/
theorem Genuine.share (h : s.Genuine c) (hv : s.resultValidO = true) : IsShare s.latchedQ s.resultNonceO := by
  obtain ⟨L?, hj⟩ := h
  cases hj with
  | idle _ _ hnone =>
    rw [hnone] at hv
    cases hv
  | eval hL he =>
    rw [he.frame.latched, he.nonce_of_valid hv]
    exact (he.valid_iff.1 hv).2

theorem Unused.step (h : s.Unused) (hs : i.start = false) : (s.step c i).Unused := by
  have hcore : (s.step c i).core.busyQ = false := by
    rw [step_core]
    exact core_stays_idle h.core h.launch
  refine ⟨(engine_idle_step hs h.idle).1, ?_, hcore⟩
  cases hi : i.stop with
  | true => rw [step_stop hi]; rfl
  | false => rw [step_idle hi h.idle (by simp [hs])]; rfl

/-- A genuine engine that is not busy is unused. -/
theorem Genuine.unused (h : s.Genuine c) (hb : s.busyO = false) : s.Unused := by
  simp only [busyO, Bool.or_eq_false_iff, bne_eq_false_iff_eq] at hb
  obtain ⟨L?, hj⟩ := h
  cases hj with
  | idle hst hs _ => exact ⟨hst, hs, hb.2⟩
  | eval hL he => exact absurd hb.1 he.not_idle

end Engine

/-! ## The loader -/

section Orderly

variable {α : Type} {cfg : MinerCfg}

/-- A start that the loader takes finds it at rest, its engines not busy. -/
def StartsFree (w : Option Write) (s : MinerCore α cfg) : Prop :=
  s.startsLoad w = true → LoaderQuiet s ∧ ∀ e, (s.engines e).busyO = false

/-- The engines are genuine, and those that the loader is still to start are unused. -/
structure Orderly (s : MinerCore α cfg) : Prop where
  engines : ∀ e, (s.engines e).Genuine cfg.engine
  pulse : ∀ e, s.engineStartQ e = true → (s.engines e).Unused
  ahead : s.loadStateQ ≠ .idle → ∀ e, s.loadEngineIdxQ ≤ e → (s.engines e).Unused ∧ s.engineStartQ e = false
  stage : s.loadStateQ = .decode ∨ s.loadStateQ = .start → s.loadStartIdxQ = s.loadEngineIdxQ ∧
    s.loadStartLastQ = decide (s.loadEngineIdxQ.val = cfg.numEngines - 1)
  onehot : s.loadStateQ = .start → ∀ e, s.loadStartOnehotQ e = true → e = s.loadEngineIdxQ

variable [Inhabited α] {obs : Engine → α} {w : Option Write} {s : MinerCore α cfg}

theorem orderly_reset (engines : Fin cfg.numEngines → Engine) : Orderly (MinerCore.reset engines : MinerCore α cfg) where
  engines e := Engine.genuine_reset _ _
  pulse e h := by simp [MinerCore.reset] at h
  ahead h := absurd rfl h
  stage h := by simp [MinerCore.reset] at h
  onehot h := by simp [MinerCore.reset] at h

/-- An engine that gets no pulse at this edge stays unused. -/
theorem unused_step {e : Fin cfg.numEngines} (h : (s.engines e).Unused) (hp : s.engineStartQ e = false) :
    ((s.step obs w).engines e).Unused := h.step (i := s.engineIn e) hp

/-- The loader goes through the engines in order. -/
theorem orderly_step (h : Orderly s) (hw : StartsFree w s) : Orderly (s.step obs w) := by
  have hengines : ∀ e, ((s.step obs w).engines e).Genuine cfg.engine :=
    fun e => (h.engines e).step (i := s.engineIn e) (h.pulse e)
  cases hl : s.loadStateQ with
  | idle =>
    have hnone : ∀ e, (s.step obs w).engineStartQ e = false := fun e => by simp [MinerCore.step, hl]
    refine ⟨hengines, fun e hp => ?_, fun hload e _ => ⟨?_, hnone e⟩, fun hst => ?_, fun hst => ?_⟩
    · rw [hnone e] at hp
      cases hp
    · have hstart : s.startsLoad w = true := by
        by_contra hn
        simp [MinerCore.step, hl, hn] at hload
      obtain ⟨hquiet, hbusy⟩ := hw hstart
      exact unused_step ((h.engines e).unused (hbusy e)) (hquiet.pulse e)
    · simp [MinerCore.step, hl, ite_eq_iff] at hst
    · simp [MinerCore.step, hl, ite_eq_iff] at hst
  | prep =>
    have hahead := h.ahead (by simp [hl])
    have hnone : ∀ e, (s.step obs w).engineStartQ e = false := fun e => by simp [MinerCore.step, hl]
    have hidx : (s.step obs w).loadEngineIdxQ = s.loadEngineIdxQ := by simp [MinerCore.step, hl, MinerCore.startsLoad]
    refine ⟨hengines, fun e hp => ?_, fun _ e he => ⟨?_, hnone e⟩, fun _ => ?_, fun hst => ?_⟩
    · rw [hnone e] at hp
      cases hp
    · rw [hidx] at he
      exact unused_step (hahead e he).1 (hahead e he).2
    · rw [hidx]
      simp [MinerCore.step, hl]
    · simp [MinerCore.step, hl] at hst
  | decode =>
    have hahead := h.ahead (by simp [hl])
    obtain ⟨hstart, hlast⟩ := h.stage (.inl hl)
    have hnone : ∀ e, (s.step obs w).engineStartQ e = false := fun e => by simp [MinerCore.step, hl]
    have hidx : (s.step obs w).loadEngineIdxQ = s.loadEngineIdxQ := by simp [MinerCore.step, hl, MinerCore.startsLoad]
    refine ⟨hengines, fun e hp => ?_, fun _ e he => ⟨?_, hnone e⟩, fun _ => ?_, fun _ e hone => ?_⟩
    · rw [hnone e] at hp
      cases hp
    · rw [hidx] at he
      exact unused_step (hahead e he).1 (hahead e he).2
    · rw [hidx]
      exact ⟨by simp [MinerCore.step, hl, hstart], by simp [MinerCore.step, hl, hlast]⟩
    · rw [hidx, ← hstart]
      simp only [MinerCore.step, hl, if_true] at hone
      split at hone
      · simpa [engineOnehot] using hone
      · cases hone
  | start =>
    have hahead := h.ahead (by simp [hl])
    obtain ⟨-, hlast⟩ := h.stage (.inr hl)
    have hpulse : (s.step obs w).engineStartQ = s.loadStartOnehotQ := by simp [MinerCore.step, hl]
    refine ⟨hengines, fun e hp => ?_, fun hload e he => ?_, fun hst => ?_, fun hst => ?_⟩
    · rw [hpulse] at hp
      obtain rfl := h.onehot hl e hp
      exact unused_step (hahead _ le_rfl).1 (hahead _ le_rfl).2
    · have hnot : s.loadStartLastQ = false := by
        by_contra hn
        simp [MinerCore.step, hl, eq_true_of_ne_false hn] at hload
      have hlt : s.loadEngineIdxQ.val + 1 < cfg.numEngines := by
        have hidx := s.loadEngineIdxQ.isLt
        rw [hlast, decide_eq_false_iff_not] at hnot
        omega
      have hidx : (s.step obs w).loadEngineIdxQ = ⟨s.loadEngineIdxQ.val + 1, hlt⟩ := by
        simp [MinerCore.step, hl, hnot, MinerCore.nextEngineIdx, hlt]
      rw [hidx, Fin.le_def] at he
      have hle : s.loadEngineIdxQ ≤ e := Fin.le_def.2 (Nat.le_of_succ_le he)
      refine ⟨unused_step (hahead e hle).1 (hahead e hle).2, ?_⟩
      rw [hpulse]
      by_contra hone
      obtain rfl := h.onehot hl e (eq_true_of_ne_false hone)
      exact absurd he (Nat.not_succ_le_self _)
    · simp [MinerCore.step, hl, ite_eq_iff] at hst
    · simp [MinerCore.step, hl, ite_eq_iff] at hst

omit [Inhabited α] in
/-- **What an orderly instance reports.** The nonce is a share of the job that travels with it. -/
theorem Orderly.share (h : Orderly s) (e : Fin cfg.numEngines) (hv : (s.engines e).resultValidO = true) :
    IsShare (traced (s.engines e)).2 (traced (s.engines e)).1 := (h.engines e).share hv

end Orderly

end Vek280Miner.Rtl
