import Vek280Miner.Lib.Clocked
import Vek280Miner.Rtl.MinerCore

/-!
# The load sequence

After a start write the loader visits every engine for three cycles: it computes the engine's first nonce and its share
of the range, decodes the engine's index, and sends a start pulse to an engine whose share is not empty. `LoadAt` says
what the loader's registers hold at each of these steps, and `load_run` that with no further write they hold it in time:
the pulse of engine `e` is up `4 + 3 * e` edges after the write and at no other time (`engineStart_iff`).
-/

namespace Vek280Miner.Rtl

variable {α : Type} {cfg : MinerCfg}

/-- The number of nonces of a range of `count` that engine `e` gets. -/
def share (cfg : MinerCfg) (count : Word) (e : Fin cfg.numEngines) : Word :=
  engineWorkCount cfg count (BitVec.ofNat 32 e)

theorem toNat_engine (e : Fin cfg.numEngines) : (BitVec.ofNat 32 e.val).toNat = e.val := by
  have := e.isLt
  have := cfg.numEngines_lt
  rw [BitVec.toNat_ofNat]
  omega

/-- The share of an engine is the number of `j` with `e + j * NUM_ENGINES` in the range. -/
theorem toNat_share (count : Word) (e : Fin cfg.numEngines) :
    (share cfg count e).toNat = if e.val < count.toNat then (count.toNat - 1 - e.val) / cfg.numEngines + 1 else 0 := by
  have hN := cfg.numEngines_lt
  have hc := count.isLt
  have he := toNat_engine e
  have h1 : (1 : Word).toNat = 1 := rfl
  unfold share engineWorkCount
  by_cases h : e.val < count.toNat
  · have hdiv := Nat.div_le_self (count.toNat - 1 - e.val) cfg.numEngines
    have hsub : (count - 1 - BitVec.ofNat 32 e.val).toNat = count.toNat - 1 - e.val := by
      rw [BitVec.toNat_sub, BitVec.toNat_sub, he, h1]
      omega
    have hn : (BitVec.ofNat 32 cfg.numEngines).toNat = cfg.numEngines := by rw [BitVec.toNat_ofNat]; omega
    rw [if_pos (by rw [BitVec.lt_def, he]; exact h), if_pos h, BitVec.toNat_add, BitVec.toNat_udiv, hsub, hn, h1]
    exact Nat.mod_eq_of_lt (by omega)
  · rw [if_neg (by rw [BitVec.lt_def, he]; exact h), if_neg h]
    rfl

theorem share_eq_zero_iff (count : Word) (e : Fin cfg.numEngines) : share cfg count e = 0 ↔ count.toNat ≤ e.val := by
  rw [← BitVec.toNat_inj, toNat_share, show (0 : Word).toNat = 0 from rfl]
  by_cases h : e.val < count.toNat
  · simp [h]
  · simp [h]
    omega

/-- Nonce `j` of engine `e` is in the range. -/
theorem share_index_lt {count : Word} {e : Fin cfg.numEngines} {j : Nat} (hj : j < (share cfg count e).toNat) :
    e.val + j * cfg.numEngines < count.toNat := by
  rw [toNat_share] at hj
  split at hj
  · have hmul := Nat.div_mul_le_self (count.toNat - 1 - e.val) cfg.numEngines
    have hle := Nat.mul_le_mul_right cfg.numEngines (Nat.le_of_lt_succ hj)
    omega
  · omega

/-- Every index of the range is nonce `j` of some engine `e`. -/
theorem exists_share_index (cfg : MinerCfg) {count : Word} {k : Nat} (hk : k < count.toNat) :
    ∃ (e : Fin cfg.numEngines) (j : Nat), j < (share cfg count e).toNat ∧ k = e.val + j * cfg.numEngines := by
  have hN := cfg.numEngines_pos
  have hdm := Nat.div_add_mod k cfg.numEngines
  refine ⟨⟨k % cfg.numEngines, Nat.mod_lt _ hN⟩, k / cfg.numEngines, ?_, ?_⟩
  swap
  · show k = k % cfg.numEngines + k / cfg.numEngines * cfg.numEngines
    rw [Nat.mul_comm]
    omega
  have hle : k % cfg.numEngines ≤ k := Nat.mod_le _ _
  rw [toNat_share, if_pos (show k % cfg.numEngines < count.toNat by omega), Nat.lt_succ_iff]
  have hdiv : k / cfg.numEngines = (k - k % cfg.numEngines) / cfg.numEngines := by
    rw [show k - k % cfg.numEngines = cfg.numEngines * (k / cfg.numEngines) by omega, Nat.mul_div_cancel_left _ hN]
  rw [hdiv]
  exact Nat.div_le_div_right (by show _ ≤ count.toNat - 1 - k % cfg.numEngines; omega)

/-! ## The loader's registers -/

/-- The registers when the loader is in state `p` of its visit to engine `i`, for the range of `count` nonces from
`start` on. -/
structure LoadAt (start count : Word) (i : Fin cfg.numEngines) (p : LoadState) (s : MinerCore α cfg) : Prop where
  state : s.loadStateQ = p
  idx : s.loadEngineIdxQ = i
  startQ : s.nonceStartQ = start
  countQ : s.nonceCountQ = count
  ranges : ∀ e, e < i ∨ (e = i ∧ p ≠ .prep) →
    s.engineNonceStartQ e = start + BitVec.ofNat 32 e ∧ s.engineNonceCountQ e = share cfg count e
  stage : p ≠ .prep →
    s.loadStartIdxQ = i ∧ s.loadStartCountQ = share cfg count i ∧ s.loadStartLastQ = decide (i.val = cfg.numEngines - 1)
  onehot : p = .start → ∀ e, s.loadStartOnehotQ e = decide (e = i ∧ share cfg count e ≠ 0)

section Step

variable [Inhabited α] {obs : Engine → α} {start count : Word} {i : Fin cfg.numEngines} {s : MinerCore α cfg}

theorem loadAt_prep (h : LoadAt start count i .prep s) : LoadAt start count i .decode (s.step obs none) := by
  have hc : s.loadCount = share cfg count i := by rw [MinerCore.loadCount, h.countQ, h.idx, share]
  refine ⟨by simp [MinerCore.step, h.state], by simp [MinerCore.step, h.state, h.idx, MinerCore.startsLoad], h.startQ,
    h.countQ, fun e he => ?_, fun _ => ?_, fun hp => by simp at hp⟩
  · simp only [MinerCore.step, h.state, if_true, h.idx, h.startQ, hc]
    rcases eq_or_ne e i with rfl | hne
    · simp
    · rw [Function.update_of_ne hne, Function.update_of_ne hne]
      exact h.ranges e (.inl (he.resolve_right fun he => hne he.1))
  · simp [MinerCore.step, h.state, h.idx, hc]

theorem loadAt_decode (h : LoadAt start count i .decode s) : LoadAt start count i .start (s.step obs none) := by
  obtain ⟨hidx, hcount, hlast⟩ := h.stage (by simp)
  refine ⟨by simp [MinerCore.step, h.state], by simp [MinerCore.step, h.state, h.idx, MinerCore.startsLoad], h.startQ,
    h.countQ, fun e he => ?_, fun _ => ?_, fun _ e => ?_⟩
  · simp only [MinerCore.step, h.state, reduceCtorEq, if_false]
    exact h.ranges e (he.imp_right fun he => ⟨he.1, by simp⟩)
  · simp [MinerCore.step, h.state, hidx, hcount, hlast]
  · simp only [MinerCore.step, h.state, if_true, hidx, hcount]
    by_cases hz : share cfg count i = 0
    · rcases eq_or_ne e i with rfl | hne <;> simp_all
    · rcases eq_or_ne e i with rfl | hne <;> simp_all [engineOnehot]

theorem loadAt_next (h : LoadAt start count i .start s) (hi : i.val + 1 < cfg.numEngines) :
    LoadAt start count ⟨i.val + 1, hi⟩ .prep (s.step obs none) := by
  obtain ⟨-, -, hlast⟩ := h.stage (by simp)
  have hl : s.loadStartLastQ = false := by rw [hlast]; simp; omega
  refine ⟨by simp [MinerCore.step, h.state, hl], ?_, h.startQ, h.countQ, fun e he => ?_, fun hp => by simp at hp,
    fun hp => by simp at hp⟩
  · simp [MinerCore.step, h.state, hl, MinerCore.nextEngineIdx, h.idx, hi]
  · simp only [MinerCore.step, h.state, reduceCtorEq, if_false]
    refine h.ranges e ?_
    rcases he with he | he
    · rcases Nat.lt_or_eq_of_le (Nat.le_of_lt_succ (Fin.lt_def.1 he)) with hlt | heq
      · exact .inl (Fin.lt_def.2 hlt)
      · exact .inr ⟨Fin.ext heq, by simp⟩
    · exact absurd rfl he.2

end Step

/-! ## The load sequence of a start write -/

/-- The first edge applies a start to an idle loader and no later edge applies a write. -/
structure StartWrite (ws : Nat → Option Write) (w : Write) (s : MinerCore α cfg) : Prop where
  applied : ws 0 = some w
  start : w.start = true
  stop : w.stop = false
  idle : s.loadStateQ = .idle
  quiet : ∀ t, 1 ≤ t → ws t = none

section Run

variable {ws : Nat → Option Write} {w : Write} {s : MinerCore α cfg}

theorem StartWrite.sel (h : StartWrite ws w s) : w.sel = .control := by
  have := h.start
  simp only [Write.start, Bool.and_eq_true, beq_iff_eq] at this
  exact this.1

theorem StartWrite.starts (h : StartWrite ws w s) : s.startsLoad (some w) = true := by
  simp [MinerCore.startsLoad, h.start, h.idle]

variable [Inhabited α] (obs : Engine → α)

/-- The registers that a write to another register does not reach. -/
theorem step_control_regs (hsel : w.sel = .control) : (s.step obs (some w)).job = s.job ∧
    (s.step obs (some w)).nonceStartQ = s.nonceStartQ ∧ (s.step obs (some w)).nonceCountQ = s.nonceCountQ := by
  obtain ⟨sel, data, strb⟩ := w
  subst hsel
  exact ⟨rfl, rfl, rfl⟩

/-- Edges without a write. -/
theorem StartWrite.succ (h : StartWrite ws w s) {t : Nat} (ht : 1 ≤ t) :
    Clocked.run (MinerCore.step obs) ws s (t + 1) = (Clocked.run (MinerCore.step obs) ws s t).step obs none := by
  rw [Clocked.run_succ, h.quiet t ht]

/-- The job and the range stay in their registers. -/
theorem StartWrite.regs (h : StartWrite ws w s) (t : Nat) :
    (Clocked.run (MinerCore.step obs) ws s t).job = s.job ∧
      (Clocked.run (MinerCore.step obs) ws s t).nonceStartQ = s.nonceStartQ ∧
      (Clocked.run (MinerCore.step obs) ws s t).nonceCountQ = s.nonceCountQ := by
  induction t with
  | zero => exact ⟨rfl, rfl, rfl⟩
  | succ t ih =>
    rcases Nat.eq_zero_or_pos t with rfl | ht
    · rw [Clocked.run_succ, h.applied]
      exact step_control_regs obs h.sel
    · rw [h.succ obs ht]
      exact ih

/-- The first visit. -/
theorem StartWrite.first (h : StartWrite ws w s) :
    LoadAt s.nonceStartQ s.nonceCountQ cfg.firstEngine .prep (Clocked.run (MinerCore.step obs) ws s 1) := by
  obtain ⟨-, h2, h3⟩ := h.regs obs 1
  refine ⟨?_, ?_, h2, h3, fun e he => ?_, fun hp => absurd rfl hp, fun hp => by simp at hp⟩
  · rw [Clocked.run_succ, h.applied]
    simp [MinerCore.step, h.idle, h.starts, h.stop]
  · rw [Clocked.run_succ, h.applied]
    simp [MinerCore.step, h.idle, h.starts]
  · rcases he with he | he
    · exact absurd (Fin.lt_def.1 he) (Nat.not_lt_zero _)
    · exact absurd rfl he.2

/-- Each visit in time. -/
theorem StartWrite.visit (h : StartWrite ws w s) : ∀ (i : Nat) (hi : i < cfg.numEngines),
    LoadAt s.nonceStartQ s.nonceCountQ ⟨i, hi⟩ .prep (Clocked.run (MinerCore.step obs) ws s (1 + 3 * i))
  | 0, _ => h.first obs
  | i + 1, hi => by
    have hp := h.visit i (by omega)
    rw [show 1 + 3 * (i + 1) = 1 + 3 * i + 1 + 1 + 1 by omega, h.succ obs (by omega), h.succ obs (by omega),
      h.succ obs (by omega)]
    exact loadAt_next (loadAt_decode (loadAt_prep hp)) hi

theorem StartWrite.decode (h : StartWrite ws w s) (e : Fin cfg.numEngines) :
    LoadAt s.nonceStartQ s.nonceCountQ e .decode (Clocked.run (MinerCore.step obs) ws s (2 + 3 * e)) := by
  rw [show 2 + 3 * e.val = 1 + 3 * e + 1 by omega, h.succ obs (by omega)]
  exact loadAt_prep (h.visit obs e e.isLt)

theorem StartWrite.launch (h : StartWrite ws w s) (e : Fin cfg.numEngines) :
    LoadAt s.nonceStartQ s.nonceCountQ e .start (Clocked.run (MinerCore.step obs) ws s (3 + 3 * e)) := by
  rw [show 3 + 3 * e.val = 2 + 3 * e + 1 by omega, h.succ obs (by omega)]
  exact loadAt_decode (h.decode obs e)

/-- The state of the loader during the load sequence. -/
theorem StartWrite.loading (h : StartWrite ws w s) {t : Nat} (ht : 1 ≤ t) (ht' : t ≤ 3 * cfg.numEngines) :
    ∃ (e : Fin cfg.numEngines) (p : LoadState), p ≠ .idle ∧ (p = .start ↔ t = 3 + 3 * e.val) ∧ (t - 1) / 3 = e.val ∧
      LoadAt s.nonceStartQ s.nonceCountQ e p (Clocked.run (MinerCore.step obs) ws s t) := by
  have hi : (t - 1) / 3 < cfg.numEngines := by omega
  obtain h0 | h1 | h2 : t = 1 + 3 * ((t - 1) / 3) ∨ t = 2 + 3 * ((t - 1) / 3) ∨ t = 3 + 3 * ((t - 1) / 3) := by omega
  · refine ⟨⟨_, hi⟩, .prep, by simp, by simp; omega, rfl, ?_⟩
    have := h.visit obs _ hi
    rwa [← h0] at this
  · refine ⟨⟨_, hi⟩, .decode, by simp, by simp; omega, rfl, ?_⟩
    have := h.decode obs ⟨_, hi⟩
    rwa [← h1] at this
  · refine ⟨⟨_, hi⟩, .start, by simp, by simpa using h2, rfl, ?_⟩
    have := h.launch obs ⟨_, hi⟩
    rwa [← h2] at this

/-- The load sequence ends. -/
theorem StartWrite.loaded (h : StartWrite ws w s) {t : Nat} (ht : 3 * cfg.numEngines + 1 ≤ t) :
    (Clocked.run (MinerCore.step obs) ws s t).loadStateQ = .idle := by
  have hN := cfg.numEngines_pos
  induction t, ht using Nat.le_induction with
  | base =>
    have hl := h.launch obs ⟨cfg.numEngines - 1, by omega⟩
    obtain ⟨-, -, hlast⟩ := hl.stage (by simp)
    rw [show 3 + 3 * (cfg.numEngines - 1) = 3 * cfg.numEngines by omega] at hl hlast
    rw [h.succ obs (by omega)]
    simp [MinerCore.step, hl.state, hlast]
  | succ t ht ih =>
    rw [h.succ obs (by omega)]
    simp [MinerCore.step, ih, MinerCore.startsLoad]

/-- The start pulses: one for each engine with a share, at its time. -/
theorem StartWrite.engineStart_iff (h : StartWrite ws w s) {t : Nat} (ht : 1 ≤ t) (e : Fin cfg.numEngines) :
    (Clocked.run (MinerCore.step obs) ws s t).engineStartQ e = true ↔
      t = 4 + 3 * e.val ∧ share cfg s.nonceCountQ e ≠ 0 := by
  obtain ⟨u, rfl⟩ : ∃ u, t = u + 1 := ⟨t - 1, by omega⟩
  rcases Nat.eq_zero_or_pos u with rfl | hu
  · rw [Clocked.run_succ]
    simp [MinerCore.step, h.idle]
    omega
  · rw [h.succ obs hu]
    rcases Nat.lt_or_ge (3 * cfg.numEngines) u with hlt | hle
    · have := e.isLt
      simp [MinerCore.step, h.loaded obs hlt]
      omega
    · obtain ⟨i, p, -, hp, hi, hl⟩ := h.loading obs hu hle
      by_cases hps : p = .start
      · subst hps
        have ht := hp.1 rfl
        simp only [MinerCore.step, hl.state, if_true, hl.onehot rfl e, decide_eq_true_eq]
        refine and_congr_left fun _ => ⟨fun he => by rw [he]; omega, fun he => Fin.ext (by omega)⟩
      · have hne : u ≠ 3 + 3 * i.val := fun hu' => hps (hp.2 hu')
        simp only [MinerCore.step, hl.state, hps, if_false, Bool.false_eq_true, false_iff, not_and]
        intro hu'
        omega

end Run

end Vek280Miner.Rtl
