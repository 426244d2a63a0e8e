import Vek280Miner.Rtl.ResultConservation
import Vek280Miner.Rtl.StartWrite

/-!
# Writes behind a start

The loader reads `NONCE_START` and `NONCE_COUNT` again for every engine, at edge `1 + 3 * e` after the start write, and
an engine latches the job from the shared registers when it gets its pulse, at edge `4 + 3 * e`. A write that is applied
behind the start therefore reaches the engines that have not got that far. `snapshot_iff` says when later writes make no
difference: exactly when the registers hold what they held at the start at those edges.
-/

namespace Vek280Miner.Rtl

variable {α : Type} {cfg : MinerCfg}

/-! ## The job and range registers -/

/-- The registers that describe a job and its range. -/
structure JobRegs where
  job : Latched
  nonceStart : Word
  nonceCount : Word

/-- The registers after an edge at which `w` is applied. -/
def JobRegs.step (w : Option Write) (r : JobRegs) : JobRegs where
  job := w.elim r.job r.job.write
  nonceStart := match w with
    | some ⟨.nonceStart, d, b⟩ => applyWstrb r.nonceStart d b
    | _ => r.nonceStart
  nonceCount := match w with
    | some ⟨.nonceCount, d, b⟩ => applyWstrb r.nonceCount d b
    | _ => r.nonceCount

def MinerCore.regs (s : MinerCore α cfg) : JobRegs := ⟨s.job, s.nonceStartQ, s.nonceCountQ⟩

/-- The registers depend on nothing but the writes. -/
theorem regs_run [Inhabited α] (obs : Engine → α) (ws : Nat → Option Write) (s : MinerCore α cfg) (t : Nat) :
    (Clocked.run (MinerCore.step obs) ws s t).regs = Clocked.run JobRegs.step ws s.regs t :=
  Clocked.run_map (f := MinerCore.regs) (g := ws) (fun _ _ => rfl) s t

/-- A write to `MIDSTATE`, `HEADER_TAIL`, `TARGET`, `NONCE_START` or `NONCE_COUNT`. -/
def Write.loadsJob (w : Write) : Bool :=
  match w.sel with
  | .midstate _ | .tail _ | .target _ | .nonceStart | .nonceCount => true
  | _ => false

theorem Write.leavesControl_of_loadsJob {w : Write} (h : w.loadsJob = true) : w.LeavesControl := by
  obtain ⟨sel, data, strb⟩ := w
  cases sel <;> first | exact ⟨rfl, rfl, rfl⟩ | exact absurd h (by simp [Write.loadsJob])

/-! ## One visit of the loader -/

/-- The loader begins its visit to engine `i`. -/
structure Preparing (i : Fin cfg.numEngines) (s : MinerCore α cfg) : Prop where
  state : s.loadStateQ = .prep
  idx : s.loadEngineIdxQ = i

/-- The loader is in state `p` of its visit to engine `i`, for which it has read the registers `r`. -/
structure Visiting (r : JobRegs) (i : Fin cfg.numEngines) (p : LoadState) (s : MinerCore α cfg) : Prop where
  state : s.loadStateQ = p
  idx : s.loadEngineIdxQ = i
  start : s.engineNonceStartQ i = r.nonceStart + BitVec.ofNat 32 i
  count : s.engineNonceCountQ i = share cfg r.nonceCount i
  startIdx : s.loadStartIdxQ = i
  startCount : s.loadStartCountQ = share cfg r.nonceCount i
  last : s.loadStartLastQ = decide (i.val = cfg.numEngines - 1)
  onehot : p = .start → ∀ e, s.loadStartOnehotQ e = decide (e = i ∧ share cfg r.nonceCount e ≠ 0)

theorem startsLoad_of_leavesControl {s : MinerCore α cfg} {w : Option Write} (hw : ∀ v, w = some v → v.LeavesControl) :
    s.startsLoad w = false := by
  cases w with
  | none => rfl
  | some v => simp [MinerCore.startsLoad, (hw v rfl).start]

section Visit

variable [Inhabited α] {obs : Engine → α} {w : Option Write} {r : JobRegs} {i : Fin cfg.numEngines} {s : MinerCore α cfg}

theorem visiting_prep (h : Preparing i s) (hw : ∀ v, w = some v → v.LeavesControl) :
    Visiting s.regs i .decode (s.step obs w) := by
  have hc : s.loadCount = share cfg s.regs.nonceCount i := by rw [MinerCore.loadCount, h.idx, share]; rfl
  have hs := startsLoad_of_leavesControl (s := s) hw
  have hstart : s.regs.nonceStart = s.nonceStartQ := rfl
  refine ⟨?_, ?_, ?_, ?_, ?_, ?_, ?_, fun hp => by simp at hp⟩ <;> simp [MinerCore.step, h.state, h.idx, hc, hs, hstart]

theorem visiting_decode (h : Visiting r i .decode s) (hw : ∀ v, w = some v → v.LeavesControl) :
    Visiting r i .start (s.step obs w) := by
  have hs := startsLoad_of_leavesControl (s := s) hw
  refine ⟨?_, ?_, ?_, ?_, ?_, ?_, ?_, fun _ e => ?_⟩
  case refine_8 =>
    simp only [MinerCore.step, h.state, if_true, h.startIdx, h.startCount]
    by_cases hz : share cfg r.nonceCount i = 0
    · rcases eq_or_ne e i with rfl | hne <;> simp_all
    · rcases eq_or_ne e i with rfl | hne <;> simp_all [engineOnehot]
  all_goals simp [MinerCore.step, h.state, h.idx, hs, h.start, h.count, h.startIdx, h.startCount, h.last]

theorem preparing_next (h : Visiting r i .start s) (hi : i.val + 1 < cfg.numEngines) :
    Preparing ⟨i.val + 1, hi⟩ (s.step obs w) := by
  have hl : s.loadStartLastQ = false := by rw [h.last]; simp; omega
  refine ⟨by simp [MinerCore.step, h.state, hl], ?_⟩
  simp [MinerCore.step, h.state, hl, MinerCore.nextEngineIdx, h.idx, hi]

end Visit

/-! ## The load sequence behind a start -/

/-- The first edge applies a start, without a stop, to an idle loader, and no later edge applies a write to `CONTROL`.
-/
structure StartBefore (ws : Nat → Option Write) (w : Write) (s : MinerCore α cfg) : Prop where
  applied : ws 0 = some w
  start : w.start = true
  stop : w.stop = false
  idle : s.loadStateQ = .idle
  later : ∀ t, 1 ≤ t → ∀ v, ws t = some v → v.LeavesControl

section Load

variable [Inhabited α] (obs : Engine → α) {ws : Nat → Option Write} {w : Write} {s : MinerCore α cfg}

theorem StartBefore.visit (h : StartBefore ws w s) : ∀ (i : Nat) (hi : i < cfg.numEngines),
    Preparing ⟨i, hi⟩ (Clocked.run (MinerCore.step obs) ws s (1 + 3 * i))
  | 0, hi => by
    rw [show 1 + 3 * 0 = 0 + 1 from rfl, Clocked.run_succ, h.applied]
    refine ⟨?_, ?_⟩
    · simp [MinerCore.step, h.idle, h.stop, MinerCore.startsLoad, h.start]
    · simp [MinerCore.step, h.idle, MinerCore.startsLoad, h.start]
      rfl
  | i + 1, hi => by
    have hp := h.visit i (by omega)
    rw [show 1 + 3 * (i + 1) = 1 + 3 * i + 1 + 1 + 1 by omega]
    exact preparing_next (visiting_decode (visiting_prep hp (h.later _ (by omega))) (h.later _ (by omega))) hi

theorem StartBefore.decode (h : StartBefore ws w s) (e : Fin cfg.numEngines) :
    Visiting (Clocked.run JobRegs.step ws s.regs (1 + 3 * e)) e .decode
      (Clocked.run (MinerCore.step obs) ws s (2 + 3 * e)) := by
  rw [← regs_run obs, show 2 + 3 * e.val = 1 + 3 * e + 1 by omega]
  exact visiting_prep (h.visit obs e e.isLt) (h.later _ (by omega))

/-- At its launch the loader has the range registers of two edges before. -/
theorem StartBefore.launch (h : StartBefore ws w s) (e : Fin cfg.numEngines) :
    Visiting (Clocked.run JobRegs.step ws s.regs (1 + 3 * e)) e .start
      (Clocked.run (MinerCore.step obs) ws s (3 + 3 * e)) := by
  rw [show 3 + 3 * e.val = 2 + 3 * e + 1 by omega]
  exact visiting_decode (h.decode obs e) (h.later _ (by omega))

/-- The load sequence ends. -/
theorem StartBefore.loaded (h : StartBefore ws w s) {t : Nat} (ht : 3 * cfg.numEngines + 1 ≤ t) :
    (Clocked.run (MinerCore.step obs) ws s t).loadStateQ = .idle := by
  have hN := cfg.numEngines_pos
  induction t, ht using Nat.le_induction with
  | base =>
    have hl := h.launch obs ⟨cfg.numEngines - 1, by omega⟩
    have hstate := hl.state
    have hlast := hl.last
    rw [show 3 + 3 * (cfg.numEngines - 1) = 3 * cfg.numEngines by omega] at hstate hlast
    rw [Clocked.run_succ]
    simp [MinerCore.step, hstate, hlast]
  | succ t ht ih => exact (loaderQuiet_step ih fun v hv => (h.later t (by omega) v hv).start).load

/-- The loader launches an engine at the end of its visit only. -/
theorem StartBefore.launch_time (h : StartBefore ws w s) {t : Nat}
    (ht : (Clocked.run (MinerCore.step obs) ws s t).loadStateQ = .start) : ∃ i : Fin cfg.numEngines, t = 3 + 3 * i.val := by
  have hpos : 1 ≤ t := by
    refine Nat.pos_of_ne_zero fun h0 => ?_
    rw [h0, Clocked.run_zero, h.idle] at ht
    cases ht
  have hle : t ≤ 3 * cfg.numEngines := by
    by_contra hlt
    rw [h.loaded obs (by omega)] at ht
    cases ht
  have hi : (t - 1) / 3 < cfg.numEngines := by omega
  obtain h0 | h1 | h2 : t = 1 + 3 * ((t - 1) / 3) ∨ t = 2 + 3 * ((t - 1) / 3) ∨ t = 3 + 3 * ((t - 1) / 3) := by omega
  · have hp := (h.visit obs _ hi).state
    rw [← h0, ht] at hp
    cases hp
  · have hd := (h.decode obs ⟨_, hi⟩).state
    rw [← h1, ht] at hd
    cases hd
  · exact ⟨⟨_, hi⟩, h2⟩

/-- The start pulses: one for each engine with a share of the range that the loader has read for it. -/
theorem StartBefore.engineStart_iff (h : StartBefore ws w s) {t : Nat} (ht : 1 ≤ t) (e : Fin cfg.numEngines) :
    (Clocked.run (MinerCore.step obs) ws s t).engineStartQ e = true ↔
      t = 4 + 3 * e.val ∧ share cfg (Clocked.run JobRegs.step ws s.regs (1 + 3 * e)).nonceCount e ≠ 0 := by
  obtain ⟨u, rfl⟩ : ∃ u, t = u + 1 := ⟨t - 1, by omega⟩
  rw [Clocked.run_succ]
  by_cases hs : (Clocked.run (MinerCore.step obs) ws s u).loadStateQ = .start
  · obtain ⟨i, rfl⟩ := h.launch_time obs hs
    simp only [MinerCore.step, hs, if_true, (h.launch obs i).onehot rfl e, decide_eq_true_eq]
    constructor
    · rintro ⟨rfl, hz⟩
      exact ⟨by omega, hz⟩
    · rintro ⟨he, hz⟩
      obtain rfl : e = i := Fin.ext (by omega)
      exact ⟨rfl, hz⟩
  · simp only [MinerCore.step, hs, if_false, Bool.false_eq_true, false_iff, not_and]
    intro he
    have hl := (h.launch obs e).state
    rw [show 3 + 3 * e.val = u by omega] at hl
    exact absurd hl hs

/-- What an engine finds at its ports when its pulse is up. -/
theorem StartBefore.pulse_in (h : StartBefore ws w s) (e : Fin cfg.numEngines) :
    (Clocked.run (MinerCore.step obs) ws s (4 + 3 * e)).engineNonceStartQ e =
        (Clocked.run JobRegs.step ws s.regs (1 + 3 * e)).nonceStart + BitVec.ofNat 32 e ∧
      (Clocked.run (MinerCore.step obs) ws s (4 + 3 * e)).engineNonceCountQ e =
        share cfg (Clocked.run JobRegs.step ws s.regs (1 + 3 * e)).nonceCount e ∧
      (Clocked.run (MinerCore.step obs) ws s (4 + 3 * e)).job = (Clocked.run JobRegs.step ws s.regs (4 + 3 * e)).job := by
  have hl := h.launch obs e
  refine ⟨?_, ?_, ?_⟩
  · rw [show 4 + 3 * e.val = 3 + 3 * e + 1 by omega, Clocked.run_succ]
    simpa [MinerCore.step, hl.state] using hl.start
  · rw [show 4 + 3 * e.val = 3 + 3 * e + 1 by omega, Clocked.run_succ]
    simpa [MinerCore.step, hl.state] using hl.count
  · rw [← regs_run obs]
    rfl

theorem StartBefore.stop_low (h : StartBefore ws w s) {t : Nat} (ht : 1 ≤ t) (e : Fin cfg.numEngines) :
    (Clocked.run (MinerCore.step obs) ws s t).engineStopQ e = false := by
  obtain ⟨u, rfl⟩ : ∃ u, t = u + 1 := ⟨t - 1, by omega⟩
  show (ws u).any (·.stop) = false
  cases hv : ws u with
  | none => rfl
  | some v =>
    rcases Nat.eq_zero_or_pos u with rfl | hu
    · obtain rfl := Option.some.inj (h.applied.symm.trans hv)
      exact h.stop
    · exact (h.later u hu v hv).stop

end Load

/-! ## The engines -/

/-- An engine that can be started: idle, with a core that is neither busy nor about to be. -/
structure EngineFree (s : Engine) : Prop where
  state : s.stateQ = .idle
  coreStart : s.coreStartQ = false
  core : s.core.busyQ = false

theorem engineFree_step {c : EngineCfg} {i : EngineIn} {s : Engine} (h : EngineFree s) (hs : i.start = false) :
    EngineFree (s.step c i) := by
  have hcore : (s.step c i).core.busyQ = false := by
    rw [step_core]
    exact core_stays_idle h.core h.coreStart
  cases hi : i.stop with
  | true =>
    rw [step_stop hi] at hcore ⊢
    exact ⟨rfl, rfl, hcore⟩
  | false =>
    rw [step_idle hi h.state (by simp [hs])] at hcore ⊢
    exact ⟨h.state, rfl, hcore⟩

/-- Without a start pulse an engine does not look at the job and the range. -/
theorem engine_step_congr {c : EngineCfg} {i j : EngineIn} (s : Engine) (hstop : i.stop = j.stop) (hstart : i.start = j.start)
    (h : i.start = true → i = j) : s.step c i = s.step c j := by
  cases hs : i.start with
  | true => rw [h hs]
  | false =>
    have hj : j.start = false := hstart.symm.trans hs
    simp only [Engine.step, hstop, hs, hj, Bool.false_and, Bool.false_eq_true, if_false]

/-- The miner has nothing to do: the loader is idle, no pulse is up, and `busy_o` of every engine is low. -/
structure FullyIdle (s : MinerCore α cfg) : Prop where
  quiet : LoaderQuiet s
  engines : ∀ e, (s.engines e).busyO = false

theorem FullyIdle.free {s : MinerCore α cfg} (h : FullyIdle s) {e : Fin cfg.numEngines} (hok : EngineOk (s.engines e)) :
    EngineFree (s.engines e) := by
  have hb := h.engines e
  simp only [Engine.busyO, Bool.or_eq_false_iff, bne_eq_false_iff_eq] at hb
  exact ⟨hb.1, hok.idle hb.1, hb.2⟩

/-- Engine `e` as it is `t` edges after a start for the job and range in the registers of `s`. -/
def ScansShare (s : MinerCore α cfg) (e : Fin cfg.numEngines) (t : Nat) (engine : Engine) : Prop :=
  if 5 + 3 * e.val ≤ t ∧ t < 5 + 3 * e.val + (share cfg s.nonceCountQ e).toNat * evalCycles cfg.engine then
    ScanAt cfg.engine s.job (s.nonceStartQ + BitVec.ofNat 32 e) (share cfg s.nonceCountQ e) (t - (5 + 3 * e)) engine
  else engine.stateQ = .idle

theorem scansShare_idle {s : MinerCore α cfg} {e : Fin cfg.numEngines} {t : Nat} {engine : Engine}
    (h : t < 5 + 3 * e.val ∨ 5 + 3 * e.val + (share cfg s.nonceCountQ e).toNat * evalCycles cfg.engine ≤ t) :
    ScansShare s e t engine ↔ engine.stateQ = .idle := by
  unfold ScansShare
  rw [if_neg (by omega)]

theorem scansShare_scan {s : MinerCore α cfg} {e : Fin cfg.numEngines} {a : Nat} {engine : Engine}
    (h : a < (share cfg s.nonceCountQ e).toNat * evalCycles cfg.engine) :
    ScansShare s e (5 + 3 * e + a) engine ↔
      ScanAt cfg.engine s.job (s.nonceStartQ + BitVec.ofNat 32 e) (share cfg s.nonceCountQ e) a engine := by
  unfold ScansShare
  rw [if_pos (by omega), show 5 + 3 * e.val + a - (5 + 3 * e) = a by omega]

/-- When the loader and engine `e` look at them, the registers hold what they held at the start, as far as it matters.
-/
def KeepsRange (ws : Nat → Option Write) (s : MinerCore α cfg) (e : Fin cfg.numEngines) : Prop :=
  share cfg (Clocked.run JobRegs.step ws s.regs (1 + 3 * e)).nonceCount e = share cfg s.nonceCountQ e ∧
    (share cfg s.nonceCountQ e ≠ 0 →
      (Clocked.run JobRegs.step ws s.regs (1 + 3 * e)).nonceStart = s.nonceStartQ ∧
        (Clocked.run JobRegs.step ws s.regs (4 + 3 * e)).job = s.job)

section Engines

variable [Inhabited α] (obs : Engine → α) {ws : Nat → Option Write} {w : Write} {s : MinerCore α cfg}
  {e : Fin cfg.numEngines}

/-- An engine without a pulse stays free. -/
theorem engineFree_run {n : Nat} (h0 : EngineFree (s.engines e))
    (hp : ∀ t < n, (Clocked.run (MinerCore.step obs) ws s t).engineStartQ e = false) :
    ∀ t ≤ n, EngineFree ((Clocked.run (MinerCore.step obs) ws s t).engines e)
  | 0, _ => h0
  | t + 1, ht => engineFree_step (engineFree_run h0 hp t (by omega)) (hp t ht)

theorem StartBefore.pulse_low (h : StartBefore ws w s) (hq : LoaderQuiet s) {t : Nat}
    (ht : ¬ (t = 4 + 3 * e.val ∧ share cfg (Clocked.run JobRegs.step ws s.regs (1 + 3 * e)).nonceCount e ≠ 0)) :
    (Clocked.run (MinerCore.step obs) ws s t).engineStartQ e = false := by
  rcases Nat.eq_zero_or_pos t with rfl | hpos
  · exact hq.pulse e
  · rw [← Bool.not_eq_true, h.engineStart_iff obs hpos]
    exact ht

/-- Until its pulse an engine is free. -/
theorem StartBefore.free_before (h : StartBefore ws w s) (hq : LoaderQuiet s) (h0 : EngineFree (s.engines e)) {t : Nat}
    (ht : t ≤ 4 + 3 * e.val) : EngineFree ((Clocked.run (MinerCore.step obs) ws s t).engines e) :=
  engineFree_run obs h0 (fun _ hu => h.pulse_low obs hq (by omega)) t ht

/-- The pulse starts the scan of the part that the loader has read, for the job in the registers then. -/
theorem StartBefore.scan_begins (h : StartBefore ws w s) (hq : LoaderQuiet s) (h0 : EngineFree (s.engines e))
    (hz : share cfg (Clocked.run JobRegs.step ws s.regs (1 + 3 * e)).nonceCount e ≠ 0) :
    ScanAt cfg.engine (Clocked.run JobRegs.step ws s.regs (4 + 3 * e)).job
      ((Clocked.run JobRegs.step ws s.regs (1 + 3 * e)).nonceStart + BitVec.ofNat 32 e)
      (share cfg (Clocked.run JobRegs.step ws s.regs (1 + 3 * e)).nonceCount e) 0
      ((Clocked.run (MinerCore.step obs) ws s (5 + 3 * e)).engines e) := by
  obtain ⟨hn, hc, hj⟩ := h.pulse_in obs e
  have hfree := h.free_before obs hq h0 le_rfl
  have hpulse := (h.engineStart_iff obs (show 1 ≤ 4 + 3 * e.val by omega) e).2 ⟨rfl, hz⟩
  have hstop := h.stop_low obs (show 1 ≤ 4 + 3 * e.val by omega) e
  have hbusy : ((Clocked.run (MinerCore.step obs) ws s (5 + 3 * e)).engines e).core.busyQ = false := by
    rw [show 5 + 3 * e.val = 4 + 3 * e + 1 by omega]
    show (Engine.step _ _ _).core.busyQ = false
    rw [step_core]
    exact core_stays_idle hfree.core hfree.coreStart
  have hscan := @scanAt_accept cfg.engine _
    ((Clocked.run (MinerCore.step obs) ws s (4 + 3 * e)).engineIn e) hfree.state hstop hpulse
    (by simpa [MinerCore.engineIn, hc] using hz)
    (by rw [show 5 + 3 * e.val = 4 + 3 * e + 1 by omega] at hbusy; exact hbusy)
  rw [← hn, ← hc, ← hj, show 5 + 3 * e.val = 4 + 3 * e + 1 by omega]
  exact hscan

/-- With the registers kept an engine scans its share of the range at the start. -/
theorem StartBefore.scansShare (h : StartBefore ws w s) (hq : LoaderQuiet s) (h0 : EngineFree (s.engines e))
    (hk : KeepsRange ws s e) (t : Nat) : ScansShare s e t ((Clocked.run (MinerCore.step obs) ws s t).engines e) := by
  have hE := evalCycles_pos cfg.engine
  obtain ⟨hshare, hregs⟩ := hk
  by_cases hz : share cfg s.nonceCountQ e = 0
  · have hpos : (share cfg s.nonceCountQ e).toNat = 0 := by rw [hz]; rfl
    rw [scansShare_idle (by rw [hpos]; omega)]
    refine (engineFree_run obs h0 (fun u _ => h.pulse_low obs hq ?_) t le_rfl).state
    rw [hshare]
    exact fun hu => hu.2 hz
  · obtain ⟨hn, hj⟩ := hregs hz
    -- the scan is begun at the pulse and goes on until its end
    have hscan : ∀ a, a < (share cfg s.nonceCountQ e).toNat * evalCycles cfg.engine →
        ScanAt cfg.engine s.job (s.nonceStartQ + BitVec.ofNat 32 e) (share cfg s.nonceCountQ e) a
          ((Clocked.run (MinerCore.step obs) ws s (5 + 3 * e + a)).engines e) := by
      intro a
      induction a with
      | zero =>
        intro _
        have hbegin := h.scan_begins obs hq h0 (by rwa [hshare])
        rwa [hn, hj, hshare] at hbegin
      | succ a ih =>
        intro ha
        exact scanAt_step (ih (by omega)) (h.stop_low obs (show 1 ≤ 5 + 3 * e.val + a by omega) e) ha
    rcases Nat.lt_or_ge t (5 + 3 * e.val) with hlt | hge
    · rw [scansShare_idle (.inl hlt)]
      exact (h.free_before obs hq h0 (by omega)).state
    obtain ⟨a, rfl⟩ : ∃ a, t = 5 + 3 * e.val + a := ⟨t - (5 + 3 * e.val), by omega⟩
    rcases Nat.lt_or_ge a ((share cfg s.nonceCountQ e).toNat * evalCycles cfg.engine) with ha | ha
    · exact (scansShare_scan ha).2 (hscan a ha)
    · rw [scansShare_idle (.inr (by omega))]
      induction a, ha using Nat.le_induction with
      | base =>
        have hmul : 0 < (share cfg s.nonceCountQ e).toNat * evalCycles cfg.engine :=
          Nat.mul_pos (Nat.pos_of_ne_zero fun hz' => hz (BitVec.eq_of_toNat_eq hz')) hE
        obtain ⟨b, hb⟩ : ∃ b, (share cfg s.nonceCountQ e).toNat * evalCycles cfg.engine = b + 1 :=
          ⟨_, (Nat.sub_add_cancel hmul).symm⟩
        have hlast := hscan b (by omega)
        rw [hb]
        exact (scanAt_finish hlast (h.stop_low obs (show 1 ≤ 5 + 3 * e.val + b by omega) e) hb.symm).1
      | succ a ha ih =>
        refine (engine_idle_step ?_ (ih (by omega))).1
        exact h.pulse_low obs hq (t := 5 + 3 * e.val + a) (by omega)

/-- If an engine scans its share of the range at the start, the registers were kept. -/
theorem StartBefore.keepsRange (h : StartBefore ws w s) (hq : LoaderQuiet s) (h0 : EngineFree (s.engines e))
    (hs : ∀ t, ScansShare s e t ((Clocked.run (MinerCore.step obs) ws s t).engines e)) : KeepsRange ws s e := by
  have hE := evalCycles_pos cfg.engine
  by_cases hz : share cfg s.nonceCountQ e = 0
  · have hpos : (share cfg s.nonceCountQ e).toNat = 0 := by rw [hz]; rfl
    have hidle := hs (5 + 3 * e.val)
    rw [scansShare_idle (by rw [hpos]; omega)] at hidle
    refine ⟨?_, fun hz' => absurd hz hz'⟩
    by_contra hne
    exact EvalAt.not_idle (h.scan_begins obs hq h0 (by rwa [hz] at hne)) hidle
  · have hmul : 0 < (share cfg s.nonceCountQ e).toNat * evalCycles cfg.engine :=
      Nat.mul_pos (Nat.pos_of_ne_zero fun hz' => hz (BitVec.eq_of_toNat_eq hz')) hE
    have hscan := (scansShare_scan (a := 0) hmul).1 (hs _)
    have hpulse : share cfg (Clocked.run JobRegs.step ws s.regs (1 + 3 * e)).nonceCount e ≠ 0 := by
      intro hnone
      refine EvalAt.not_idle hscan ?_
      exact (engineFree_run obs h0 (fun u _ => h.pulse_low obs hq fun hu => hu.2 hnone) _ le_rfl).state
    have hf := EvalAt.frame hscan
    have hf' := EvalAt.frame (h.scan_begins obs hq h0 hpulse)
    refine ⟨?_, fun _ => ⟨?_, hf'.latched.symm.trans hf.latched⟩⟩
    · simpa using hf'.remaining.symm.trans hf.remaining
    · have hnonce := hf'.nonce.symm.trans hf.nonce
      simpa [scanNonce] using hnonce

/-- Two runs in which an engine is started and stopped alike. -/
theorem engine_run_congr {ws' : Nat → Option Write}
    (hstop : ∀ t, 1 ≤ t → (Clocked.run (MinerCore.step obs) ws s t).engineStopQ e =
      (Clocked.run (MinerCore.step obs) ws' s t).engineStopQ e)
    (hstart : ∀ t, 1 ≤ t → (Clocked.run (MinerCore.step obs) ws s t).engineStartQ e =
      (Clocked.run (MinerCore.step obs) ws' s t).engineStartQ e)
    (hin : ∀ t, 1 ≤ t → (Clocked.run (MinerCore.step obs) ws s t).engineStartQ e = true →
      (Clocked.run (MinerCore.step obs) ws s t).engineIn e = (Clocked.run (MinerCore.step obs) ws' s t).engineIn e) :
    ∀ t, (Clocked.run (MinerCore.step obs) ws s t).engines e = (Clocked.run (MinerCore.step obs) ws' s t).engines e
  | 0 => rfl
  | t + 1 => by
    rcases Nat.eq_zero_or_pos t with rfl | ht
    · rfl
    show Engine.step _ _ _ = Engine.step _ _ _
    rw [engine_run_congr hstop hstart hin t]
    exact engine_step_congr _ (hstop t ht) (hstart t ht) (hin t ht)

/-- With the registers kept the engines run as they would without the later writes. -/
theorem StartBefore.engines_eq {ws' : Nat → Option Write} (h : StartBefore ws w s) (h' : StartBefore ws' w s)
    (hk : KeepsRange ws s e) (hk' : KeepsRange ws' s e) (t : Nat) :
    (Clocked.run (MinerCore.step obs) ws s t).engines e = (Clocked.run (MinerCore.step obs) ws' s t).engines e := by
  have hstop : ∀ t, 1 ≤ t → (Clocked.run (MinerCore.step obs) ws s t).engineStopQ e =
      (Clocked.run (MinerCore.step obs) ws' s t).engineStopQ e := by
    intro t ht
    rw [h.stop_low obs ht, h'.stop_low obs ht]
  have hstart : ∀ t, 1 ≤ t → (Clocked.run (MinerCore.step obs) ws s t).engineStartQ e =
      (Clocked.run (MinerCore.step obs) ws' s t).engineStartQ e := by
    intro t ht
    rw [Bool.eq_iff_iff, h.engineStart_iff obs ht, h'.engineStart_iff obs ht, hk.1, hk'.1]
  refine engine_run_congr obs hstop hstart (fun t ht hp => ?_) t
  have hs := hstart t ht
  have hst := hstop t ht
  obtain ⟨rfl, hz⟩ := (h.engineStart_iff obs ht e).1 hp
  have hz0 : share cfg s.nonceCountQ e ≠ 0 := by rwa [← hk.1]
  obtain ⟨hn, hc, hj⟩ := h.pulse_in obs e
  obtain ⟨hn', hc', hj'⟩ := h'.pulse_in obs e
  simp only [MinerCore.engineIn, hs, hst, hn, hc, hj, hn', hc', hj', hk.1, hk'.1, hk.2 hz0, hk'.2 hz0]

end Engines

/-! ## The snapshot -/

/-- The writes of a start that no other write follows. -/
def startOnly (w : Write) (t : Nat) : Option Write := if t = 0 then some w else none

/-- What a start applied at the first edge is to achieve: every engine scans its share of the range in the registers at
the start, for the job in them, as it does when no write follows. -/
def Snapshot (inp : Nat → AxiIn) (s : MinerAxi cfg) (w : Write) : Prop :=
  ∀ e t, ScansShare s.core e t ((Clocked.run MinerAxi.step inp s t).core.engines e) ∧
    (Clocked.run MinerAxi.step inp s t).core.engines e =
      (Clocked.run (MinerCore.step Engine.resultNonceO) (startOnly w) s.core t).engines e

theorem regs_startOnly {w : Write} (hw : w.sel = .control) (r : JobRegs) (t : Nat) :
    Clocked.run JobRegs.step (startOnly w) r t = r := by
  obtain ⟨sel, data, strb⟩ := w
  subst hw
  induction t with
  | zero => rfl
  | succ t ih =>
    rw [Clocked.run_succ, ih]
    cases t <;> rfl

theorem stop_eq_startOnly {ws : Nat → Option Write} {w : Write} (hw : ws 0 = some w)
    (hlater : ∀ t, 1 ≤ t → ∀ v, ws t = some v → v.LeavesControl) (t : Nat) :
    (ws t).any (·.stop) = (startOnly w t).any (·.stop) := by
  rcases Nat.eq_zero_or_pos t with rfl | ht
  · rw [hw]
    rfl
  · rw [startOnly, if_neg (by omega)]
    cases hv : ws t with
    | none => rfl
    | some v => exact (hlater t ht v hv).stop

/-- A start with the stop bit leaves the loader and the engines alone. -/
theorem engines_of_stop [Inhabited α] (obs : Engine → α) {ws : Nat → Option Write} {w : Write} {s : MinerCore α cfg}
    (hw : ws 0 = some w) (hstop : w.stop = true) (hlater : ∀ t, 1 ≤ t → ∀ v, ws t = some v → v.LeavesControl)
    (hq : LoaderQuiet s) {e : Fin cfg.numEngines} (h0 : EngineFree (s.engines e)) (t : Nat) :
    EngineFree ((Clocked.run (MinerCore.step obs) ws s t).engines e) ∧
      (Clocked.run (MinerCore.step obs) ws s t).engineStartQ e = false := by
  have hquiet : ∀ t, LoaderQuiet (Clocked.run (MinerCore.step obs) ws s t) := by
    intro t
    induction t with
    | zero => exact hq
    | succ t ih =>
      rcases Nat.eq_zero_or_pos t with rfl | ht
      · rw [Clocked.run_succ, hw]
        exact ⟨by simp [MinerCore.step, hq.load, hstop], fun e => by simp [MinerCore.step, hq.load]⟩
      · exact loaderQuiet_step ih.load fun v hv => (hlater t ht v hv).start
  exact ⟨engineFree_run obs h0 (fun u _ => (hquiet u).pulse e) t le_rfl, (hquiet t).pulse e⟩

/-- **Snapshot.** In every fully idle state, a start is a snapshot exactly when it finds the registers kept at the edges
at which they are read; a start with the stop bit starts nothing and is a snapshot of an empty range only. -/
theorem snapshot_iff (s : MinerAxi cfg) (hr : s.Reachable) (hidle : FullyIdle s.core) (inp : Nat → AxiIn) (w : Write)
    (hw : s.applied = some w) (hstart : w.start = true)
    (hlater : ∀ t, 1 ≤ t → ∀ v, MinerAxi.appliedAt inp s t = some v → v.loadsJob = true) :
    Snapshot inp s w ↔
      if w.stop then s.core.nonceCountQ = 0 else ∀ e, KeepsRange (MinerAxi.appliedAt inp s) s.core e := by
  have hfree : ∀ e, EngineFree (s.core.engines e) := fun e => hidle.free (reachable_engineOk hr e)
  have hleaves : ∀ t, 1 ≤ t → ∀ v, MinerAxi.appliedAt inp s t = some v → v.LeavesControl := fun t ht v hv =>
    Write.leavesControl_of_loadsJob (hlater t ht v hv)
  have honly : ∀ t, 1 ≤ t → ∀ v, startOnly w t = some v → v.LeavesControl := by
    intro t ht v hv
    rw [startOnly, if_neg (by omega)] at hv
    cases hv
  unfold Snapshot
  simp only [MinerAxi.core_run]
  cases hstop : w.stop with
  | true =>
    have hrun := fun e t => engines_of_stop Engine.resultNonceO (e := e) hw hstop hleaves hidle.quiet (hfree e) t
    have hrun' := fun e t => @engines_of_stop _ _ _ Engine.resultNonceO (startOnly w) _ _ rfl hstop honly hidle.quiet e
      (hfree e) t
    simp only [if_true]
    constructor
    · intro h
      by_contra hne
      -- the first engine has a share but stays idle
      have hz : share cfg s.core.nonceCountQ cfg.firstEngine ≠ 0 := by
        rw [ne_eq, share_eq_zero_iff]
        intro hle
        exact hne (BitVec.eq_of_toNat_eq (Nat.le_zero.1 hle))
      have hmul : 0 < (share cfg s.core.nonceCountQ cfg.firstEngine).toNat * evalCycles cfg.engine :=
        Nat.mul_pos (Nat.pos_of_ne_zero fun hz' => hz (BitVec.eq_of_toNat_eq hz')) (evalCycles_pos _)
      have hscan := (scansShare_scan (a := 0) hmul).1 (h cfg.firstEngine _).1
      exact EvalAt.not_idle hscan (hrun _ _).1.state
    · intro h0 e t
      have hz : (share cfg s.core.nonceCountQ e).toNat = 0 := by
        rw [(share_eq_zero_iff _ _).2 (by rw [h0]; exact Nat.zero_le _)]
        rfl
      refine ⟨(scansShare_idle (by rw [hz]; omega)).2 (hrun e t).1.state, ?_⟩
      refine engine_run_congr _ (fun u hu => ?_) (fun u _ => (hrun e u).2.trans (hrun' e u).2.symm) (fun u _ hp => ?_) t
      · obtain ⟨v, rfl⟩ : ∃ v, u = v + 1 := ⟨u - 1, by omega⟩
        exact stop_eq_startOnly hw hleaves v
      · rw [(hrun e u).2] at hp
        cases hp
  | false =>
    have hS : StartBefore (MinerAxi.appliedAt inp s) w s.core := ⟨hw, hstart, hstop, hidle.quiet.load, hleaves⟩
    have hS' : StartBefore (startOnly w) w s.core := ⟨rfl, hstart, hstop, hidle.quiet.load, honly⟩
    have hsel : w.sel = .control := by
      simp only [Write.start, Bool.and_eq_true, beq_iff_eq] at hstart
      exact hstart.1
    simp only [Bool.false_eq_true, if_false]
    constructor
    · exact fun h e => hS.keepsRange Engine.resultNonceO hidle.quiet (hfree e) fun t => (h e t).1
    · intro hk e t
      have hk' : KeepsRange (startOnly w) s.core e := by
        unfold KeepsRange
        rw [regs_startOnly hsel, regs_startOnly hsel]
        exact ⟨rfl, fun _ => ⟨rfl, rfl⟩⟩
      exact ⟨hS.scansShare _ hidle.quiet (hfree e) (hk e) t, hS.engines_eq _ hS' (hk e) hk' t⟩

/-- A bus that is idle from edge `n` on applies what has been checked up to there. -/
theorem loadsJob_of_early {inp : Nat → AxiIn} {s : MinerAxi cfg} (n : Nat) (hquiet : ∀ u, (inp (n + u)).awvalid = false)
    (hearly : ∀ t < n, 1 ≤ t → (MinerAxi.appliedAt inp s t).all Write.loadsJob = true)
    (h1 : (Clocked.run MinerAxi.step inp s n).wrStage1ValidQ = false)
    (h2 : (Clocked.run MinerAxi.step inp s n).wrStage2ValidQ = false) :
    ∀ t, 1 ≤ t → ∀ v, MinerAxi.appliedAt inp s t = some v → v.loadsJob = true := by
  intro t ht v hv
  rcases Nat.lt_or_ge t n with hlt | hge
  · have hall := hearly t hlt ht
    rwa [hv] at hall
  · obtain ⟨u, rfl⟩ : ∃ u, t = n + u := ⟨t - n, by omega⟩
    have hnone := MinerAxi.applied_none hquiet h1 h2 u
    rw [MinerAxi.appliedAt, ← Clocked.run_add] at hnone
    rw [MinerAxi.appliedAt, hnone] at hv
    cases hv

/-- A midstate for the next job, applied behind the load sequence. -/
def midstateBehindLoad (t : Nat) : AxiIn := if t = 6 then busWrites [(0x020, 1)] 0 else busWrites [] t

theorem snapshot_of_late_midstate : Snapshot midstateBehindLoad startAfterReset ⟨.control, 1, 0xf⟩ := by
  have hquiet : ∀ u, (midstateBehindLoad (9 + u)).awvalid = false := by
    intro u
    rw [midstateBehindLoad, if_neg (by omega)]
    simp [busWrites]
  have hlater := loadsJob_of_early (s := startAfterReset) 9 hquiet (by decide +kernel) (by decide +kernel) (by decide +kernel)
  refine (snapshot_iff startAfterReset (Clocked.Reachable.run (.init ⟨_, rfl⟩) _ _)
    ⟨⟨by decide +kernel, by decide +kernel⟩, by decide +kernel⟩ _ _ (by decide +kernel) (by decide) hlater).2 fun e => ?_
  revert e
  unfold KeepsRange
  decide +kernel

/-- The midstate is rewritten as soon as the bus takes it. -/
def midstateDuringLoad (t : Nat) : AxiIn := busWrites [(0x084, 2), (0x000, 1), (0x020, 1)] (6 + t)

/-- The second engine latches the new midstate. -/
theorem snapshot_broken_by_midstate : ¬ ∀ (cfg : MinerCfg) (s : MinerAxi cfg) (inp : Nat → AxiIn) (w : Write),
    2 ≤ cfg.numEngines → s.Reachable → FullyIdle s.core → s.applied = some w → w.start = true → w.stop = false →
    (∀ t, 1 ≤ t → ∀ v, MinerAxi.appliedAt inp s t = some v → v.loadsJob = true) →
    ∀ e t, ScansShare s.core e t ((Clocked.run MinerAxi.step inp s t).core.engines e) := by
  intro h
  have hquiet : ∀ u, (midstateDuringLoad (6 + u)).awvalid = false := by
    intro u
    have hge : 3 ≤ (6 + (6 + u)) / 4 := by omega
    simp [midstateDuringLoad, busWrites, hge]
  have hlater := loadsJob_of_early (s := startAfterReset) 6 hquiet (by decide +kernel) (by decide +kernel) (by decide +kernel)
  have hscan := h twoEngines startAfterReset midstateDuringLoad ⟨.control, 1, 0xf⟩ (by decide)
    (Clocked.Reachable.run (.init ⟨_, rfl⟩) _ _) ⟨⟨by decide +kernel, by decide +kernel⟩, by decide +kernel⟩
    (by decide +kernel) (by decide) (by decide) hlater ⟨1, by decide⟩ 8
  have hone : (share twoEngines startAfterReset.core.nonceCountQ ⟨1, by decide⟩).toNat = 1 := by decide +kernel
  have hmul : 0 < (share twoEngines startAfterReset.core.nonceCountQ ⟨1, by decide⟩).toNat * evalCycles twoEngines.engine := by
    rw [hone]
    exact Nat.mul_pos Nat.one_pos (evalCycles_pos _)
  have hlatched := (EvalAt.frame ((scansShare_scan (a := 0) hmul).1 hscan)).latched
  have hmid := congrArg (fun L => L.midstate 0) hlatched
  revert hmid
  decide +kernel

end Vek280Miner.Rtl
