import Vek280Miner.Rtl.EngineRestart
import Vek280Miner.Rtl.Loader
import Vek280Miner.Rtl.MinerAxi
import Vek280Miner.Rtl.StopWrite

/-!
# `CONTROL.start`

A start write sends the loader round the engines, but an engine takes its start pulse only when it is idle, and its core
takes the launch only when it is free. `start_supersedes` says what a start achieves when every pulse finds its engine
idle with a free core: from the end of the load sequence on only the new range is evaluated, for the new job, and all of
it is evaluated while `running_q` is high. `start_ignored_by_busy_engine` is a run in which an engine goes on with the
old job.
-/

namespace Vek280Miner.Rtl

/-! ## Engines that are left alone -/

/-- No launch is pending in an idle engine. -/
structure EngineOk (s : Engine) : Prop where
  idle : s.stateQ = .idle → s.coreStartQ = false
  launch : s.stateQ = .launch → s.launchStateQ ≠ .idle

theorem engineOk_step {c : EngineCfg} {i : EngineIn} {s : Engine} (h : EngineOk s) : EngineOk (s.step c i) := by
  cases hi : i.stop with
  | true =>
    rw [step_stop hi]
    exact ⟨fun _ => rfl, fun hl => by simp at hl⟩
  | false =>
    cases hst : s.stateQ with
    | idle =>
      cases hs : i.start && i.nonceCount != 0 with
      | true =>
        rw [step_accept hi hst hs]
        exact ⟨fun _ => rfl, fun _ => by simp⟩
      | false =>
        rw [step_idle hi hst hs]
        exact ⟨fun _ => rfl, fun hl => absurd hl (by simp [Engine.defaults, hst])⟩
    | launch =>
      have hne := h.launch hst
      rw [step_launch hi hst]
      refine ⟨fun hl => absurd hl hne, fun hl => ?_⟩
      show s.launchStateQ ≠ .idle
      exact hne
    | pass1 =>
      rw [step_pass1 hi hst]
      split
      · exact ⟨fun hl => by simp at hl, fun _ => by simp⟩
      · exact ⟨fun _ => rfl, fun hl => absurd hl (by simp [Engine.defaults, hst])⟩
    | pass2 =>
      rw [step_pass2 hi hst]
      split
      · exact ⟨fun hl => by simp at hl, fun hl => by simp at hl⟩
      · exact ⟨fun _ => rfl, fun hl => absurd hl (by simp [Engine.defaults, hst])⟩
    | compare =>
      rw [step_compare hi hst, Engine.compareStep]
      split
      · exact ⟨fun hl => by simp at hl, fun hl => by simp at hl⟩
      · exact ⟨fun _ => rfl, fun hl => absurd hl (by simp [Engine.defaults, hst])⟩
    | check =>
      rw [step_check hi hst]
      split
      · exact ⟨fun _ => rfl, fun hl => by simp at hl⟩
      · exact ⟨fun _ => rfl, fun _ => by simp⟩

/-- In every reachable state of the miner. -/
theorem reachable_engineOk {cfg : MinerCfg} {s : MinerAxi cfg} (h : s.Reachable) (e : Fin cfg.numEngines) :
    EngineOk (s.core.engines e) := by
  refine Clocked.Reachable.invariant (P := fun s => EngineOk (s.core.engines e)) ?_ ?_ h
  · rintro s ⟨engines, rfl⟩
    exact ⟨fun _ => rfl, fun hl => by simp [MinerAxi.reset, MinerCore.reset, Engine.reset] at hl⟩
  · intro i s hs
    exact engineOk_step hs

/-- The engine takes the decision on nonce `n` of job `L`, on the right digest. -/
structure Engine.Decides (s : Engine) (L : Latched) (n : Word) : Prop where
  state : s.stateQ = .compare
  last : s.cmpIdxQ = 7
  latched : s.latchedQ = L
  nonce : s.nonceQ = n
  digest : s.digestQ = engineDigest L n

/-! ## The engines after a start write -/

section Engines

variable {α : Type} [Inhabited α] {cfg : MinerCfg} (obs : Engine → α) {ws : Nat → Option Write} {w : Write}
  {s : MinerCore α cfg}

theorem StartWrite.stop_low (h : StartWrite ws w s) {t : Nat} (ht : 1 ≤ t) (e : Fin cfg.numEngines) :
    (Clocked.run (MinerCore.step obs) ws s t).engineStopQ e = false := by
  obtain ⟨u, rfl⟩ : ∃ u, t = u + 1 := ⟨t - 1, by omega⟩
  rcases Nat.eq_zero_or_pos u with rfl | hu
  · rw [Clocked.run_succ, h.applied]
    exact h.stop
  · rw [h.succ obs hu]
    rfl

/-- An engine that is idle and gets no further pulse stays idle. -/
theorem engine_stays_idle {t : Nat} {e : Fin cfg.numEngines}
    (hp : ∀ u, t ≤ u → (Clocked.run (MinerCore.step obs) ws s u).engineStartQ e = false)
    (hi : ((Clocked.run (MinerCore.step obs) ws s t).engines e).stateQ = .idle) {u : Nat} (hu : t ≤ u) :
    ((Clocked.run (MinerCore.step obs) ws s u).engines e).stateQ = .idle := by
  induction u, hu using Nat.le_induction with
  | base => exact hi
  | succ u hu ih => exact (engine_idle_step (hp u hu) ih).1

/-- The pulse of an engine presents the engine's part of the range. -/
theorem StartWrite.pulse_range (h : StartWrite ws w s) (e : Fin cfg.numEngines) :
    (Clocked.run (MinerCore.step obs) ws s (4 + 3 * e)).engineNonceStartQ e = s.nonceStartQ + BitVec.ofNat 32 e ∧
      (Clocked.run (MinerCore.step obs) ws s (4 + 3 * e)).engineNonceCountQ e = share cfg s.nonceCountQ e := by
  have hl := h.launch obs e
  rw [show 4 + 3 * e.val = 3 + 3 * e + 1 by omega, h.succ obs (by omega)]
  simp only [MinerCore.step, hl.state, reduceCtorEq, if_false]
  exact hl.ranges e (.inr ⟨rfl, by simp⟩)

/-- After a pulse that finds it idle with a free core an engine scans its part of the range. -/
theorem StartWrite.scans (h : StartWrite ws w s) {e : Fin cfg.numEngines} (hz : share cfg s.nonceCountQ e ≠ 0)
    (hok : EngineOk ((Clocked.run (MinerCore.step obs) ws s (4 + 3 * e)).engines e))
    (hi : ((Clocked.run (MinerCore.step obs) ws s (4 + 3 * e)).engines e).stateQ = .idle)
    (hc : ((Clocked.run (MinerCore.step obs) ws s (4 + 3 * e)).engines e).coreFree cfg.engine = true) :
    ∀ a, a < (share cfg s.nonceCountQ e).toNat * evalCycles cfg.engine →
      ScanAt cfg.engine s.job (s.nonceStartQ + BitVec.ofNat 32 e) (share cfg s.nonceCountQ e) a
        ((Clocked.run (MinerCore.step obs) ws s (5 + 3 * e + a)).engines e) := by
  intro a
  induction a with
  | zero =>
    intro _
    obtain ⟨hn, hcount⟩ := h.pulse_range obs e
    have hjob := (h.regs obs (4 + 3 * e.val)).1
    have hs := (h.engineStart_iff obs (by omega) e).2 ⟨rfl, hz⟩
    have hst := h.stop_low obs (show 1 ≤ 4 + 3 * e.val by omega) e
    have hb := core_free_step hc (hok.idle hi)
    rw [← hjob, ← hn, ← hcount, show 5 + 3 * e.val + 0 = 4 + 3 * e + 1 by omega, h.succ obs (by omega)]
    refine scanAt_accept (i := MinerCore.engineIn _ e) hi hst hs (by rw [← hcount] at hz; exact hz) ?_
    rw [step_core]
    exact hb
  | succ a ih =>
    intro ha
    rw [← Nat.add_assoc, h.succ obs (by omega)]
    exact scanAt_step (ih (by omega)) (h.stop_low obs (by omega) e) ha

/-- Once its part is scanned the engine is idle for good. -/
theorem StartWrite.idle_after_scan (h : StartWrite ws w s) {e : Fin cfg.numEngines}
    (hz : share cfg s.nonceCountQ e ≠ 0)
    (hok : EngineOk ((Clocked.run (MinerCore.step obs) ws s (4 + 3 * e)).engines e))
    (hi : ((Clocked.run (MinerCore.step obs) ws s (4 + 3 * e)).engines e).stateQ = .idle)
    (hc : ((Clocked.run (MinerCore.step obs) ws s (4 + 3 * e)).engines e).coreFree cfg.engine = true) {t : Nat}
    (ht : 5 + 3 * e.val + (share cfg s.nonceCountQ e).toNat * evalCycles cfg.engine ≤ t) :
    ((Clocked.run (MinerCore.step obs) ws s t).engines e).stateQ = .idle := by
  have hE := evalCycles_pos cfg.engine
  have hpos : 0 < (share cfg s.nonceCountQ e).toNat := Nat.pos_of_ne_zero fun h0 => hz (BitVec.eq_of_toNat_eq h0)
  have hmul : 0 < (share cfg s.nonceCountQ e).toNat * evalCycles cfg.engine := Nat.mul_pos hpos hE
  refine engine_stays_idle obs (fun u hu => ?_) ?_ ht
  · rw [← Bool.not_eq_true, h.engineStart_iff obs (by omega)]
    omega
  · obtain ⟨a, ha⟩ : ∃ a, (share cfg s.nonceCountQ e).toNat * evalCycles cfg.engine = a + 1 :=
      ⟨_, (Nat.sub_add_cancel hmul).symm⟩
    rw [ha, ← Nat.add_assoc, h.succ obs (by omega)]
    exact (scanAt_finish (h.scans obs hz hok hi hc a (by omega)) (h.stop_low obs (by omega) e) ha.symm).1

omit [Inhabited α] in
/-- An engine that has its nonces to scan keeps `running_q` up. -/
theorem not_completes_of_scan {c n : Word} {L : Latched} {a : Nat} {m : MinerCore α cfg} {e : Fin cfg.numEngines}
    (h : ScanAt cfg.engine L n c a (m.engines e)) : m.completes = false := by
  have hb : ¬ ∀ e, (m.engines e).busyO = false := by
    intro hall
    have hne := EvalAt.not_idle h
    have hbe := hall e
    simp [Engine.busyO, hne] at hbe
  have hd : ¬ ∀ e, (m.engines e).doneO = true := by
    intro hall
    have hde := hall e
    rw [EvalAt.not_done h] at hde
    simp at hde
  simp [MinerCore.completes, hb, hd]

/-- `running_q` stays up as long as the scan is not found to be over. -/
theorem StartWrite.running (h : StartWrite ws w s) (h0 : s.completes = false) {t : Nat} (ht : 1 ≤ t)
    (hc : ∀ u, 1 ≤ u → u < t → (Clocked.run (MinerCore.step obs) ws s u).completes = false) :
    (Clocked.run (MinerCore.step obs) ws s t).runningQ = true := by
  induction t, ht using Nat.le_induction with
  | base =>
    rw [Clocked.run_succ, h.applied]
    simp [MinerCore.step, h0, h.stop, h.starts]
  | succ t ht ih =>
    rw [h.succ obs ht]
    simp [MinerCore.step, hc t ht (by omega), ih fun u hu hu' => hc u hu (by omega), MinerCore.startsLoad]

end Engines

/-! ## What a start achieves -/

section Supersede

variable {cfg : MinerCfg}

/-- Every engine that is not idle once the load sequence of the start at the first edge has ended evaluates a nonce of
the new range for the new job, and the decision on every nonce of the new range is taken while `running_q` is up. -/
def Supersedes (inp : Nat → AxiIn) (s : MinerAxi cfg) : Prop :=
  let st := fun t => (Clocked.run MinerAxi.step inp s t).core
  (∀ u t, 1 ≤ u → (st u).loadStateQ = .idle → u ≤ t → ∀ e, ((st t).engines e).stateQ ≠ .idle →
    ((st t).engines e).latchedQ = s.core.job ∧
    (∃ k < s.core.nonceCountQ.toNat, ((st t).engines e).nonceQ = s.core.nonceStartQ + BitVec.ofNat 32 k) ∧
    (((st t).engines e).stateQ = .compare →
      ((st t).engines e).digestQ = engineDigest s.core.job ((st t).engines e).nonceQ)) ∧
  ∀ k < s.core.nonceCountQ.toNat, ∃ t, 1 ≤ t ∧
    (∃ e, ((st t).engines e).Decides s.core.job (s.core.nonceStartQ + BitVec.ofNat 32 k)) ∧
    ∀ u, 1 ≤ u → u ≤ t → (st u).runningQ = true

/-- What a start has to find: the range is empty, or there are at least two engines and the old range is not found to be
over at that very edge; the stop bit is clear; every start pulse finds its engine idle and the engine's core free; the
engines that get no pulse are idle when the load sequence ends. -/
structure FindsFree (inp : Nat → AxiIn) (s : MinerAxi cfg) (w : Write) : Prop where
  range : s.core.nonceCountQ = 0 ∨ (2 ≤ cfg.numEngines ∧ s.core.completes = false)
  stop : w.stop = false
  free : ∀ t e, 1 ≤ t → (Clocked.run MinerAxi.step inp s t).core.engineStartQ e = true →
    ((Clocked.run MinerAxi.step inp s t).core.engines e).stateQ = .idle ∧
      ((Clocked.run MinerAxi.step inp s t).core.engines e).coreFree cfg.engine = true
  rest : ∀ e : Fin cfg.numEngines, s.core.nonceCountQ.toNat ≤ e →
    ((Clocked.run MinerAxi.step inp s (3 * cfg.numEngines + 1)).core.engines e).stateQ = .idle

variable {inp : Nat → AxiIn} {s : MinerAxi cfg} {w : Write}

/-- The nonce of an engine's scan. -/
theorem scanNonce_engine (start : Word) (e : Fin cfg.numEngines) (j : Nat) :
    scanNonce cfg.engine (start + BitVec.ofNat 32 e) j = start + BitVec.ofNat 32 (e.val + j * cfg.numEngines) := by
  rw [scanNonce, MinerCfg.engine, BitVec.add_assoc, BitVec.ofNat_add, BitVec.ofNat_mul]

/-- The pulse of an engine with a share finds the engine idle with a free core. -/
theorem FindsFree.pulse (hf : FindsFree inp s w) (hr : s.Reachable)
    (hS : StartWrite (MinerAxi.appliedAt inp s) w s.core) {e : Fin cfg.numEngines}
    (hz : share cfg s.core.nonceCountQ e ≠ 0) :
    let m := Clocked.run (MinerCore.step Engine.resultNonceO) (MinerAxi.appliedAt inp s) s.core (4 + 3 * e)
    EngineOk (m.engines e) ∧ (m.engines e).stateQ = .idle ∧ (m.engines e).coreFree cfg.engine = true := by
  intro m
  have hp := (hS.engineStart_iff Engine.resultNonceO (show 1 ≤ 4 + 3 * e.val by omega) e).2 ⟨rfl, hz⟩
  have hok := reachable_engineOk (Clocked.Reachable.run hr inp (4 + 3 * e.val)) e
  rw [MinerAxi.core_run] at hok
  have hfree := hf.free (4 + 3 * e.val) e (by omega)
  rw [MinerAxi.core_run] at hfree
  exact ⟨hok, hfree hp⟩

/-- The scan of an engine with a share. -/
theorem FindsFree.scans (hf : FindsFree inp s w) (hr : s.Reachable)
    (hS : StartWrite (MinerAxi.appliedAt inp s) w s.core) {e : Fin cfg.numEngines}
    (hz : share cfg s.core.nonceCountQ e ≠ 0) {a : Nat}
    (ha : a < (share cfg s.core.nonceCountQ e).toNat * evalCycles cfg.engine) :
    ScanAt cfg.engine s.core.job (s.core.nonceStartQ + BitVec.ofNat 32 e) (share cfg s.core.nonceCountQ e) a
      ((Clocked.run MinerAxi.step inp s (5 + 3 * e + a)).core.engines e) := by
  obtain ⟨hok, hi, hc⟩ := hf.pulse hr hS hz
  rw [MinerAxi.core_run]
  exact hS.scans Engine.resultNonceO hz hok hi hc a ha

/-- An engine at work after the load sequence is in its scan. -/
theorem FindsFree.scan_of_not_idle (hf : FindsFree inp s w) (hr : s.Reachable)
    (hS : StartWrite (MinerAxi.appliedAt inp s) w s.core) {t : Nat} (ht : 3 * cfg.numEngines + 1 ≤ t)
    {e : Fin cfg.numEngines} (hne : ((Clocked.run MinerAxi.step inp s t).core.engines e).stateQ ≠ .idle) :
    ∃ a < (share cfg s.core.nonceCountQ e).toNat * evalCycles cfg.engine,
      ScanAt cfg.engine s.core.job (s.core.nonceStartQ + BitVec.ofNat 32 e) (share cfg s.core.nonceCountQ e) a
        ((Clocked.run MinerAxi.step inp s t).core.engines e) := by
  have he := e.isLt
  by_cases hz : share cfg s.core.nonceCountQ e = 0
  · refine absurd ?_ hne
    have hrest := hf.rest e ((share_eq_zero_iff _ _).1 hz)
    rw [MinerAxi.core_run] at hrest ⊢
    refine engine_stays_idle _ (fun u hu => ?_) hrest ht
    rw [← Bool.not_eq_true, hS.engineStart_iff _ (by omega)]
    exact fun hu' => hu'.2 hz
  · obtain ⟨hok, hi, hc⟩ := hf.pulse hr hS hz
    rcases Nat.lt_or_ge t (5 + 3 * e.val) with hlt | hge
    · refine absurd ?_ hne
      rw [show t = 4 + 3 * e.val by omega, MinerAxi.core_run]
      exact hi
    · rcases Nat.lt_or_ge (t - (5 + 3 * e.val)) ((share cfg s.core.nonceCountQ e).toNat * evalCycles cfg.engine)
        with ha | ha
      · have hscan := hf.scans hr hS hz ha
        rw [show 5 + 3 * e.val + (t - (5 + 3 * e.val)) = t by omega] at hscan
        exact ⟨_, ha, hscan⟩
      · refine absurd ?_ hne
        rw [MinerAxi.core_run]
        exact hS.idle_after_scan _ hz hok hi hc (by omega)

/-- While the decision on a nonce is to be taken the scan is not found to be over. -/
theorem FindsFree.not_completes (hf : FindsFree inp s w) (hr : s.Reachable)
    (hS : StartWrite (MinerAxi.appliedAt inp s) w s.core) (hN : 2 ≤ cfg.numEngines) {e : Fin cfg.numEngines} {a u : Nat}
    (ha : a < (share cfg s.core.nonceCountQ e).toNat * evalCycles cfg.engine) (hu : 1 ≤ u)
    (hu' : u < 5 + 3 * e.val + a) : (Clocked.run MinerAxi.step inp s u).core.completes = false := by
  have he := e.isLt
  have hz : share cfg s.core.nonceCountQ e ≠ 0 := fun h0 => by simp [h0] at ha
  rcases Nat.lt_or_ge (3 * cfg.numEngines) u with hlt | hle
  · rcases Nat.lt_or_ge u (5 + 3 * e.val) with hlt' | hge
    · -- the last engine has just got its pulse; the one before it is at work
      let e' : Fin cfg.numEngines := ⟨cfg.numEngines - 2, by omega⟩
      have he' : e'.val = cfg.numEngines - 2 := rfl
      have hcount := mt (share_eq_zero_iff s.core.nonceCountQ e).2 hz
      have hz' : share cfg s.core.nonceCountQ e' ≠ 0 := mt (share_eq_zero_iff _ _).1 (by omega)
      have hpos : 0 < (share cfg s.core.nonceCountQ e').toNat :=
        Nat.pos_of_ne_zero fun h0 => hz' (BitVec.eq_of_toNat_eq h0)
      have hE : 2 < evalCycles cfg.engine := by unfold evalCycles; omega
      have h2 : 2 < (share cfg s.core.nonceCountQ e').toNat * evalCycles cfg.engine :=
        Nat.lt_of_lt_of_le hE (Nat.le_mul_of_pos_left _ hpos)
      have hscan := hf.scans hr hS hz' h2
      rw [show 5 + 3 * e'.val + 2 = u by omega] at hscan
      exact not_completes_of_scan hscan
    · have hscan := hf.scans hr hS hz (show u - (5 + 3 * e.val) < _ by omega)
      rw [show 5 + 3 * e.val + (u - (5 + 3 * e.val)) = u by omega] at hscan
      exact not_completes_of_scan hscan
  · obtain ⟨i, p, hp, -, -, hl⟩ := hS.loading Engine.resultNonceO hu hle
    rw [MinerAxi.core_run]
    simp [MinerCore.completes, hl.state, hp]

/-- **Start.** In every reachable state with the loader idle, a start that is followed by no other write and finds the
engines free supersedes what was running. -/
theorem start_supersedes (s : MinerAxi cfg) (hr : s.Reachable) (inp : Nat → AxiIn) (w : Write)
    (hw : s.applied = some w) (hstart : w.start = true) (hidle : s.core.loadStateQ = .idle)
    (hno : ∀ t, 1 ≤ t → MinerAxi.appliedAt inp s t = none) (hf : FindsFree inp s w) : Supersedes inp s := by
  have hS : StartWrite (MinerAxi.appliedAt inp s) w s.core := ⟨hw, hstart, hf.stop, hidle, hno⟩
  have hE := evalCycles_pos cfg.engine
  refine ⟨fun u t hu hl hut e hne => ?_, fun k hk => ?_⟩
  · have ht : 3 * cfg.numEngines + 1 ≤ u := by
      by_contra hlt
      obtain ⟨i, p, hp, -, -, hload⟩ := hS.loading Engine.resultNonceO hu (by omega)
      have hl' : (Clocked.run MinerAxi.step inp s u).core.loadStateQ = .idle := hl
      rw [MinerAxi.core_run, hload.state] at hl'
      exact hp hl'
    obtain ⟨a, ha, hscan⟩ := hf.scan_of_not_idle hr hS (Nat.le_trans ht hut) hne
    have hj : a / evalCycles cfg.engine < (share cfg s.core.nonceCountQ e).toNat :=
      (Nat.div_lt_iff_lt_mul hE).2 ha
    have hnonce := (EvalAt.frame hscan).nonce
    refine ⟨(EvalAt.frame hscan).latched, ⟨_, share_index_lt hj, hnonce.trans (scanNonce_engine _ _ _)⟩, fun hc => ?_⟩
    rw [EvalAt.digest hscan hc, hnonce, engineDigest]
  · obtain ⟨hN, h0⟩ : 2 ≤ cfg.numEngines ∧ s.core.completes = false :=
      hf.range.resolve_left fun h0 => by simp [h0] at hk
    obtain ⟨e, j, hj, rfl⟩ := exists_share_index cfg hk
    have hz : share cfg s.core.nonceCountQ e ≠ 0 := fun h0 => by simp [h0] at hj
    have hage : 13 + 2 * coreCycles cfg.engine.core < evalCycles cfg.engine := by unfold evalCycles; omega
    have ha := scan_age_lt hj hage
    have hscan := (scanAt_iff hage).1 (hf.scans hr hS hz ha)
    rw [scanNonce_engine] at hscan
    obtain ⟨hst, hidx, hdig⟩ := evalAt_decides hscan
    refine ⟨5 + 3 * e.val + (j * evalCycles cfg.engine + (13 + 2 * coreCycles cfg.engine.core)), by omega, ⟨e, ?_⟩,
      fun u hu hu' => ?_⟩
    · exact ⟨hst, hidx, hscan.frame.latched, hscan.frame.nonce, hdig⟩
    · show (Clocked.run MinerAxi.step inp s u).core.runningQ = true
      rw [MinerAxi.core_run]
      refine hS.running _ h0 hu fun v hv hv' => ?_
      have hnc := hf.not_completes hr hS hN ha hv (by omega)
      rwa [MinerAxi.core_run] at hnc

end Supersede

/-! ## A start out of reset, and a start that comes too early -/

/-- The miner when a start for two nonces is applied out of reset. -/
def startAfterReset : MinerAxi twoEngines :=
  Clocked.run MinerAxi.step (busWrites [(0x084, 2), (0x000, 1)]) (MinerAxi.reset fun _ => default) 6

theorem start_after_reset_supersedes : Supersedes (fun _ => default) startAfterReset := by
  have hw : startAfterReset.applied = some ⟨.control, 1, 0xf⟩ := by decide +kernel
  have hno : ∀ t, 1 ≤ t → MinerAxi.appliedAt (fun _ => default) startAfterReset t = none := fun t ht =>
    MinerAxi.applied_none_after (fun _ => rfl) hw (by decide +kernel) ht
  have hidle : startAfterReset.core.loadStateQ = .idle := by decide +kernel
  have hcount : startAfterReset.core.nonceCountQ.toNat = 2 := by decide +kernel
  refine start_supersedes startAfterReset (Clocked.Reachable.run (.init ⟨_, rfl⟩) _ _) (fun _ => default) _ hw (by decide)
    hidle hno ⟨.inr ⟨by decide, by decide +kernel⟩, by decide, fun t e ht hp => ?_, fun e he => ?_⟩
  · have hS : StartWrite (MinerAxi.appliedAt (fun _ => default) startAfterReset) ⟨.control, 1, 0xf⟩ startAfterReset.core :=
      ⟨hw, by decide, by decide, hidle, hno⟩
    rw [MinerAxi.core_run, hS.engineStart_iff _ ht] at hp
    rw [hp.1]
    clear hp ht hS
    revert e
    decide +kernel
  · have hlt : e.val < 2 := e.isLt
    rw [hcount] at he
    exact absurd he (by omega)

/-- The miner when a start for a new midstate is applied while the engines scan for the old one. -/
def startWhileBusy : MinerAxi twoEngines :=
  Clocked.run MinerAxi.step (busWrites [(0x084, 2), (0x000, 1), (0x020, 1), (0x000, 1)])
    (MinerAxi.reset fun _ => default) 14

/-- The first engine ignores the start and goes on with the old midstate. -/
theorem start_ignored_by_busy_engine : ¬ ∀ (cfg : MinerCfg) (s : MinerAxi cfg) (inp : Nat → AxiIn) (w : Write),
    s.Reachable → s.applied = some w → w.start = true → s.core.loadStateQ = .idle →
    (∀ t, 1 ≤ t → MinerAxi.appliedAt inp s t = none) → Supersedes inp s := by
  intro h
  have hw : startWhileBusy.applied = some ⟨.control, 1, 0xf⟩ := by decide +kernel
  have hs := h twoEngines startWhileBusy (fun _ => default) _ (Clocked.Reachable.run (.init ⟨_, rfl⟩) _ _) hw (by decide)
    (by decide +kernel) fun t ht => MinerAxi.applied_none_after (fun _ => rfl) hw (by decide +kernel) ht
  have hl := (hs.1 7 7 (by omega) (by decide +kernel) le_rfl twoEngines.firstEngine (by decide +kernel)).1
  revert hl
  decide +kernel

end Vek280Miner.Rtl
