import Vek280Miner.Rtl.HashEngine
import Vek280Miner.Rtl.Sha256CoreRefines

/-!
# One nonce through an engine

`EvalAt cfg L n r d a s` says that the engine is `a` edges into the evaluation of nonce `n` for the latched job `L`,
with `r` nonces left and first digest `d`. While `stop_i` stays low every edge leads to the next age (`evalAt_step`),
whatever the other inputs are; at the last age the engine has raised `result_valid_o` exactly when the digest, read from
its first word on, is at most the target, and the next edge starts the next nonce (`evalAt_next`) or ends the scan
(`evalAt_finish`).

The first digest is that of the first block (`pass1Digest`) when the core was free at the launch. From `run1` on an
evaluation takes whatever compression the core is running.
-/

namespace Vek280Miner.Rtl

/-! ## Digests -/

/-- The digest of the first pass. -/
def pass1Digest (L : Latched) (n : Word) : Words 8 :=
  Sha256.compress Sw.roundConst L.midstate (firstBlock L.headerTail n)

/-- The digest of the second pass over the first digest `d`. -/
def pass2Digest (d : Words 8) : Words 8 := Sha256.compress Sw.roundConst sha256Iv (secondBlock d)

/-- The digest that the engine is to compare with the target for nonce `n`. -/
def engineDigest (L : Latched) (n : Word) : Words 8 := pass2Digest (pass1Digest L n)

/-! ## The ages of an evaluation -/

/-- The registers that an evaluation does not change. -/
structure Frame (L : Latched) (n r : Word) (s : Engine) : Prop where
  latched : s.latchedQ = L
  nonce : s.nonceQ = n
  remaining : s.remainingQ = r

/-- What does not write those registers keeps the frame. -/
theorem Frame.keep {L : Latched} {n r : Word} {s s' : Engine} (h : Frame L n r s) (hl : s'.latchedQ = s.latchedQ := by rfl)
    (hn : s'.nonceQ = s.nonceQ := by rfl) (hr : s'.remainingQ = s.remainingQ := by rfl) : Frame L n r s' :=
  ⟨hl.trans h.latched, hn.trans h.nonce, hr.trans h.remaining⟩

/-- The comparison of the first `i` words of `d` with those of the target. -/
structure Compared (L : Latched) (d : Words 8) (i : Fin 8) (s : Engine) : Prop where
  idx : s.cmpIdxQ = i
  lt : s.cmpLtQ = true ↔ headValue d i (by omega) < headValue L.target i (by omega)
  gt : s.cmpGtQ = true ↔ headValue L.target i (by omega) < headValue d i (by omega)

/-- The edges of one evaluation. -/
def evalCycles (cfg : EngineCfg) : Nat := 2 * coreCycles cfg.core + 15

/-- The engine `a` edges into the evaluation of nonce `n`. -/
inductive EvalAt (cfg : EngineCfg) (L : Latched) (n r : Word) (d : Words 8) : Nat → Engine → Prop
  | launch1 {s : Engine} : Frame L n r s → s.stateQ = .launch → s.launchStateQ = .pass1 → s.coreFirstPassQ = true →
      s.coreStartQ = false → s.resultValidO = false → s.doneO = false → s.core.busyQ = false →
      d = pass1Digest L n → EvalAt cfg L n r d 0 s
  | start1 {s : Engine} : Frame L n r s → s.stateQ = .pass1 → s.coreFirstPassQ = true → s.coreStartQ = true →
      s.resultValidO = false → s.doneO = false → s.core.busyQ = false → s.core.doneO = false →
      d = pass1Digest L n → EvalAt cfg L n r d 1 s
  | run1 {s : Engine} {m : Words 16} {h : Words 8} (j : Nat) : j < coreCycles cfg.core → Frame L n r s →
      s.stateQ = .pass1 → s.resultValidO = false → s.doneO = false → CoreAge cfg.core m h j s.core →
      d = Sha256.compress Sw.roundConst h m → EvalAt cfg L n r d (2 + j) s
  | done1 {s : Engine} : Frame L n r s → s.stateQ = .pass1 → s.coreStartQ = false → s.resultValidO = false →
      s.doneO = false → CoreDone d s.core → EvalAt cfg L n r d (2 + coreCycles cfg.core) s
  | launch2 {s : Engine} : Frame L n r s → s.stateQ = .launch → s.launchStateQ = .pass2 → s.coreFirstPassQ = false →
      s.coreStartQ = false → s.resultValidO = false → s.doneO = false → s.core.busyQ = false → s.digestQ = d →
      EvalAt cfg L n r d (3 + coreCycles cfg.core) s
  | start2 {s : Engine} : Frame L n r s → s.stateQ = .pass2 → s.coreFirstPassQ = false → s.coreStartQ = true →
      s.resultValidO = false → s.doneO = false → s.core.busyQ = false → s.core.doneO = false → s.digestQ = d →
      EvalAt cfg L n r d (4 + coreCycles cfg.core) s
  | run2 {s : Engine} (j : Nat) : j < coreCycles cfg.core → Frame L n r s → s.stateQ = .pass2 →
      s.resultValidO = false → s.doneO = false → CoreAge cfg.core (secondBlock d) sha256Iv j s.core →
      EvalAt cfg L n r d (5 + coreCycles cfg.core + j) s
  | done2 {s : Engine} : Frame L n r s → s.stateQ = .pass2 → s.coreStartQ = false → s.resultValidO = false →
      s.doneO = false → CoreDone (pass2Digest d) s.core → EvalAt cfg L n r d (5 + 2 * coreCycles cfg.core) s
  | compare {s : Engine} (i : Fin 8) : Frame L n r s → s.stateQ = .compare → s.coreStartQ = false →
      s.resultValidO = false → s.doneO = false → s.core.busyQ = false → s.digestQ = pass2Digest d →
      Compared L (pass2Digest d) i s → EvalAt cfg L n r d (6 + 2 * coreCycles cfg.core + i) s
  | check {s : Engine} : Frame L n r s → s.stateQ = .check → s.coreStartQ = false → s.doneO = false →
      s.core.busyQ = false → s.digestQ = pass2Digest d →
      (s.resultValidO = true ↔ beValue (pass2Digest d) ≤ beValue L.target) →
      (s.resultValidO = true → s.resultNonceO = n) → EvalAt cfg L n r d (14 + 2 * coreCycles cfg.core) s

section Steps

variable {cfg : EngineCfg} {L : Latched} {n r : Word} {d : Words 8} {a : Nat} {s : Engine} {i : EngineIn}

/-- An idle core without a start stays idle. -/
theorem core_stays_idle {c : CoreCfg} {u : Sha256Core} {ci : CoreIn} (hu : u.busyQ = false) (hc : ci.start = false) :
    (u.step c ci).busyQ = false := by
  simp [Sha256Core.step, hu, hc]

/-- One word of the comparison. -/
theorem cmpNext_iff (hf : Frame L n r s) (hd : s.digestQ = d) {j : Fin 8} (hc : Compared L d j s) :
    (s.cmpNext.1 = true ↔ headValue d (j + 1) (by omega) < headValue L.target (j + 1) (by omega)) ∧
      (s.cmpNext.2 = true ↔ headValue L.target (j + 1) (by omega) < headValue d (j + 1) (by omega)) := by
  have h1 := hc.lt
  have h2 := hc.gt
  rw [headValue_lt_succ, headValue_lt_succ, ← h1, ← h2]
  simp only [Engine.cmpNext, hc.idx, hd, hf.latched]
  cases hl : s.cmpLtQ <;> cases hg : s.cmpGtQ
  · by_cases hdt : d j < L.target j
    · simp [hdt, BitVec.le_of_lt hdt]
    · by_cases htd : L.target j < d j <;> simp [hdt, htd]
  · simp
  · simp
  · rw [hl] at h1
    rw [hg] at h2
    have := h1.1 rfl
    have := h2.1 rfl
    omega

/-- The decision with the last word is the comparison of the two numbers. -/
theorem hit_iff (hf : Frame L n r s) (hd : s.digestQ = d) (hc : Compared L d 7 s) :
    s.hit = true ↔ beValue d ≤ beValue L.target := by
  have hle := headValue_le_succ d L.target 7 (by omega)
  rw [beValue, beValue, hle]
  simp only [Engine.hit, hd, hf.latched, Bool.or_eq_true, Bool.and_eq_true, Bool.not_eq_true', decide_eq_true_eq,
    ← Bool.not_eq_true, hc.lt, hc.gt]
  rfl

/-- The start pulse of a pass reaches a free core. -/
theorem coreIn_first (hf : Frame L n r s) (hp : s.coreFirstPassQ = true) (hs : s.coreStartQ = true) :
    s.coreIn = ⟨true, firstBlock L.headerTail n, L.midstate⟩ := by
  simp [Engine.coreIn, bitcoinSha256CoreIn, hp, hs, hf.latched, hf.nonce]

theorem coreIn_second (hd : s.digestQ = d) (hp : s.coreFirstPassQ = false) (hs : s.coreStartQ = true) :
    s.coreIn = ⟨true, secondBlock d, sha256Iv⟩ := by
  simp [Engine.coreIn, bitcoinSha256CoreIn, hp, hs, hd]

theorem coreAge_accept {m : Words 16} {h : Words 8} (hb : s.core.busyQ = false) (hci : s.coreIn = ⟨true, m, h⟩) :
    CoreAge cfg.core m h 0 (s.defaults cfg).core := by
  show CoreAge cfg.core m h 0 (s.core.step cfg.core s.coreIn)
  rw [hci]
  exact coreAge_start hb (i := ⟨true, m, h⟩) rfl

/-- The core of an engine gets older whatever the engine does. -/
theorem coreAge_engine_run {m : Words 16} {h : Words 8} {j : Nat} {inp : Nat → EngineIn}
    (hs : CoreAge cfg.core m h j s.core) :
    ∀ t, j + t < coreCycles cfg.core → CoreAge cfg.core m h (j + t) (Clocked.run (Engine.step cfg) inp s t).core
  | 0, _ => hs
  | t + 1, ht => by
    rw [Clocked.run_succ, step_core]
    exact coreAge_step (coreAge_engine_run hs t (by omega)) ht _

/-- Before its last age an evaluation gets older at every edge, whatever the inputs but `stop_i` are. -/
theorem evalAt_step (h : EvalAt cfg L n r d a s) (hi : i.stop = false) (ha : a < 14 + 2 * coreCycles cfg.core) :
    EvalAt cfg L n r d (a + 1) (s.step cfg i) := by
  cases h with
  | launch1 hf hst hl hp hc hv hd hb hd1 =>
    rw [step_launch hi hst]
    exact .start1 hf.keep hl hp rfl rfl rfl (core_stays_idle hb hc) (step_idle_done hb _) hd1
  | start1 hf hst hp hc hv hd hb hcd hd1 =>
    rw [step_pass1 hi hst]
    simp only [hcd, Bool.false_eq_true, if_false]
    refine .run1 0 (coreCycles_pos _) hf.keep hst rfl rfl ?_ hd1
    have hci := coreIn_first hf hp hc
    exact coreAge_accept hb hci
  | run1 j hj hf hst hv hd hage hd1 =>
    rw [step_pass1 hi hst]
    simp only [hage.done, Bool.false_eq_true, if_false]
    rcases Nat.lt_or_ge (j + 1) (coreCycles cfg.core) with hj' | hj'
    · exact .run1 (j + 1) hj' hf.keep hst rfl rfl (coreAge_step hage hj' _) hd1
    · rw [show 2 + j + 1 = 2 + coreCycles cfg.core by omega]
      refine .done1 hf.keep hst rfl rfl rfl ?_
      rw [hd1]
      exact coreAge_last hage (by omega) _
  | done1 hf hst hc hv hd hcd =>
    rw [step_pass1 hi hst]
    simp only [hcd.done, if_true]
    rw [show 2 + coreCycles cfg.core + 1 = 3 + coreCycles cfg.core by omega]
    exact .launch2 hf.keep rfl rfl rfl rfl rfl rfl (core_stays_idle hcd.busy hc) hcd.digest
  | launch2 hf hst hl hp hc hv hd hb hdg =>
    rw [step_launch hi hst, show 3 + coreCycles cfg.core + 1 = 4 + coreCycles cfg.core by omega]
    exact .start2 hf.keep hl hp rfl rfl rfl (core_stays_idle hb hc) (step_idle_done hb _) hdg
  | start2 hf hst hp hc hv hd hb hcd hdg =>
    rw [step_pass2 hi hst, show 4 + coreCycles cfg.core + 1 = 5 + coreCycles cfg.core + 0 by omega]
    simp only [hcd, Bool.false_eq_true, if_false]
    refine .run2 0 (coreCycles_pos _) hf.keep hst rfl rfl ?_
    have hci := coreIn_second hdg hp hc
    exact coreAge_accept hb hci
  | run2 j hj hf hst hv hd hage =>
    rw [step_pass2 hi hst]
    simp only [hage.done, Bool.false_eq_true, if_false]
    rcases Nat.lt_or_ge (j + 1) (coreCycles cfg.core) with hj' | hj'
    · exact .run2 (j + 1) hj' hf.keep hst rfl rfl (coreAge_step hage hj' _)
    · rw [show 5 + coreCycles cfg.core + j + 1 = 5 + 2 * coreCycles cfg.core by omega]
      exact .done2 hf.keep hst rfl rfl rfl (coreAge_last hage (by omega) _)
  | done2 hf hst hc hv hd hcd =>
    rw [step_pass2 hi hst]
    simp only [hcd.done, if_true]
    rw [show 5 + 2 * coreCycles cfg.core + 1 = 6 + 2 * coreCycles cfg.core + (0 : Fin 8).val by simp; omega]
    refine .compare 0 hf.keep rfl rfl rfl rfl (core_stays_idle hcd.busy hc) hcd.digest ⟨rfl, ?_, ?_⟩ <;> simp [headValue]
  | compare j hf hst hc hv hd hb hdg hcmp =>
    have hn := cmpNext_iff hf hdg hcmp
    rw [step_compare hi hst]
    by_cases h7 : j = 7
    · subst h7
      have hh := hit_iff hf hdg hcmp
      simp only [Engine.compareStep, hcmp.idx, if_true]
      rw [show 6 + 2 * coreCycles cfg.core + (7 : Fin 8).val + 1 = 14 + 2 * coreCycles cfg.core by simp; omega]
      refine .check hf.keep rfl rfl rfl (core_stays_idle hb hc) hdg hh fun hv => ?_
      simp only at hv
      simp only [hv, if_true]
      exact hf.nonce
    · have hlt : j.val + 1 < 8 := by
        have : j.val ≠ 7 := fun h => h7 (Fin.ext h)
        omega
      have hidx : ¬ s.cmpIdxQ = 7 := by rw [hcmp.idx]; exact h7
      rw [show 6 + 2 * coreCycles cfg.core + j.val + 1 = 6 + 2 * coreCycles cfg.core + (⟨j + 1, hlt⟩ : Fin 8).val from rfl]
      simp only [Engine.compareStep, hidx, if_false]
      refine .compare ⟨j + 1, hlt⟩ hf.keep hst rfl rfl rfl (core_stays_idle hb hc) hdg ⟨?_, hn.1, hn.2⟩
      apply Fin.ext
      simp [hcmp.idx, Fin.val_add]
      omega
  | check => omega

/-- While `stop_i` stays low an evaluation goes on to its last age. -/
theorem evalAt_run {inp : Nat → EngineIn} (h : EvalAt cfg L n r d a s) (hi : ∀ t, (inp t).stop = false) :
    ∀ t, a + t ≤ 14 + 2 * coreCycles cfg.core → EvalAt cfg L n r d (a + t) (Clocked.run (Engine.step cfg) inp s t)
  | 0, _ => h
  | t + 1, ht => evalAt_step (evalAt_run h hi t (by omega)) (hi t) (show a + t < _ by omega)

theorem EvalAt.age_le (h : EvalAt cfg L n r d a s) : a ≤ 14 + 2 * coreCycles cfg.core := by
  cases h <;> omega

theorem EvalAt.not_idle (h : EvalAt cfg L n r d a s) : s.stateQ ≠ .idle := by
  cases h <;> simp [*]

theorem EvalAt.frame (h : EvalAt cfg L n r d a s) : Frame L n r s := by
  cases h <;> assumption

theorem EvalAt.not_done (h : EvalAt cfg L n r d a s) : s.doneO = false := by
  cases h <;> assumption

/-- A share is reported at the last age, for a digest that is at most the target. -/
theorem EvalAt.valid_iff (h : EvalAt cfg L n r d a s) : s.resultValidO = true ↔
    a = 14 + 2 * coreCycles cfg.core ∧ beValue (pass2Digest d) ≤ beValue L.target := by
  cases h with
  | check hf hst hc hd hb hdg hv hn => simpa using hv
  | compare j _ _ _ hv =>
    rw [hv]
    simp
    omega
  | run1 j hj _ _ hv =>
    rw [hv]
    simp
    omega
  | run2 j hj _ _ hv =>
    rw [hv]
    simp
    omega
  | _ => simp [*] <;> omega

theorem EvalAt.nonce_of_valid (h : EvalAt cfg L n r d a s) (hv : s.resultValidO = true) : s.resultNonceO = n := by
  cases h with
  | check hf hst hc hd hb hdg _ hn => exact hn hv
  | _ => simp_all

/-- What is compared with the target. -/
theorem EvalAt.digest (h : EvalAt cfg L n r d a s) (hst : s.stateQ = .compare) : s.digestQ = pass2Digest d := by
  cases h with
  | compare j _ _ _ _ _ _ hdg => exact hdg
  | _ => simp_all

/-- The age at which the decision is taken. -/
theorem evalAt_decides (h : EvalAt cfg L n r d (13 + 2 * coreCycles cfg.core) s) :
    s.stateQ = .compare ∧ s.cmpIdxQ = 7 ∧ s.digestQ = pass2Digest d := by
  generalize ha : 13 + 2 * coreCycles cfg.core = a at h
  cases h with
  | compare j _ hst _ _ _ _ hdg hcmp =>
    obtain rfl : j = 7 := Fin.ext (by omega)
    exact ⟨hst, hcmp.idx, hdg⟩
  | run1 j hj => omega
  | run2 j hj => omega
  | _ => omega

/-- The last age. -/
theorem evalAt_check (h : EvalAt cfg L n r d (14 + 2 * coreCycles cfg.core) s) :
    Frame L n r s ∧ s.stateQ = .check ∧ s.coreStartQ = false ∧ s.core.busyQ = false := by
  generalize ha : 14 + 2 * coreCycles cfg.core = a at h
  cases h with
  | check hf hst hc hd hb hdg hv hn => exact ⟨hf, hst, hc, hb⟩
  | compare j => omega
  | run1 j hj => omega
  | run2 j hj => omega
  | _ => omega

/-- An accepted start begins an evaluation when the core is not busy after the edge. -/
theorem evalAt_accept (hst : s.stateQ = .idle) (hi : i.stop = false) (hs : i.start = true) (hc : i.nonceCount ≠ 0)
    (hb : (s.step cfg i).core.busyQ = false) :
    EvalAt cfg i.job i.nonceStart i.nonceCount (pass1Digest i.job i.nonceStart) 0 (s.step cfg i) := by
  have hacc : s.step cfg i = _ := step_accept hi hst (by rw [hs]; simpa using hc)
  rw [hacc] at hb ⊢
  exact .launch1 ⟨rfl, rfl, rfl⟩ rfl rfl rfl rfl rfl rfl hb rfl

/-- After the check of a nonce that is not the last, the next nonce is launched. -/
theorem evalAt_next (h : EvalAt cfg L n r d (14 + 2 * coreCycles cfg.core) s) (hi : i.stop = false) (hr : ¬ r ≤ 1) :
    EvalAt cfg L (n + cfg.nonceStride) (r - 1) (pass1Digest L (n + cfg.nonceStride)) 0 (s.step cfg i) := by
  obtain ⟨hf, hst, hc, hb⟩ := evalAt_check h
  rw [step_check hi hst, if_neg (by rw [hf.remaining]; exact hr)]
  exact .launch1 ⟨hf.latched, congrArg (· + _) hf.nonce, congrArg (· - 1) hf.remaining⟩ rfl rfl rfl rfl rfl rfl
    (core_stays_idle hb hc) rfl

/-- After the check of the last nonce the engine is idle. -/
theorem evalAt_finish (h : EvalAt cfg L n r d (14 + 2 * coreCycles cfg.core) s) (hi : i.stop = false) (hr : r ≤ 1) :
    (s.step cfg i).stateQ = .idle ∧ (s.step cfg i).doneO = true := by
  obtain ⟨hf, hst, hc, hb⟩ := evalAt_check h
  rw [step_check hi hst, if_pos (by rw [hf.remaining]; exact hr)]
  exact ⟨rfl, rfl⟩

end Steps

/-! ## A whole scan -/

/-- The nonce that an engine evaluates after `j` others. -/
def scanNonce (cfg : EngineCfg) (n : Word) (j : Nat) : Word := n + BitVec.ofNat 32 j * cfg.nonceStride

/-- The engine `t` edges into the scan of `c` nonces from `n` on. -/
def ScanAt (cfg : EngineCfg) (L : Latched) (n c : Word) (t : Nat) (s : Engine) : Prop :=
  EvalAt cfg L (scanNonce cfg n (t / evalCycles cfg)) (c - BitVec.ofNat 32 (t / evalCycles cfg))
    (pass1Digest L (scanNonce cfg n (t / evalCycles cfg))) (t % evalCycles cfg) s

section Scan

variable {cfg : EngineCfg} {L : Latched} {n c : Word} {t : Nat} {s : Engine} {i : EngineIn}

theorem evalCycles_pos (cfg : EngineCfg) : 0 < evalCycles cfg := by
  unfold evalCycles
  omega

theorem toNat_left {j : Nat} (hj : j < c.toNat) : (c - BitVec.ofNat 32 j).toNat = c.toNat - j := by
  have := c.isLt
  rw [BitVec.toNat_sub, BitVec.toNat_ofNat]
  omega

theorem scanNonce_succ (j : Nat) : scanNonce cfg n j + cfg.nonceStride = scanNonce cfg n (j + 1) := by
  rw [scanNonce, scanNonce, BitVec.ofNat_add, BitVec.add_mul, BitVec.add_assoc]
  simp

/-- The ages of the `j`-th evaluation of a scan. -/
theorem scanAt_iff {j a : Nat} (ha : a < evalCycles cfg) : ScanAt cfg L n c (j * evalCycles cfg + a) s ↔
    EvalAt cfg L (scanNonce cfg n j) (c - BitVec.ofNat 32 j) (pass1Digest L (scanNonce cfg n j)) a s := by
  have hdiv : (j * evalCycles cfg + a) / evalCycles cfg = j := by
    rw [Nat.mul_comm, Nat.mul_add_div (evalCycles_pos cfg), Nat.div_eq_of_lt ha, Nat.add_zero]
  have hmod : (j * evalCycles cfg + a) % evalCycles cfg = a := by
    rw [Nat.mul_comm, Nat.mul_add_mod, Nat.mod_eq_of_lt ha]
  rw [ScanAt, hdiv, hmod]

/-- An age of the `j`-th evaluation is an age of the scan. -/
theorem scan_age_lt {j a k : Nat} (hj : j < k) (ha : a < evalCycles cfg) :
    j * evalCycles cfg + a < k * evalCycles cfg := by
  have hmul := Nat.mul_le_mul_right (evalCycles cfg) (Nat.succ_le_of_lt hj)
  rw [Nat.succ_mul] at hmul
  omega

/-- An accepted start begins a scan when the core is not busy after the edge. -/
theorem scanAt_accept (hst : s.stateQ = .idle) (hi : i.stop = false) (hs : i.start = true) (hc : i.nonceCount ≠ 0)
    (hb : (s.step cfg i).core.busyQ = false) : ScanAt cfg i.job i.nonceStart i.nonceCount 0 (s.step cfg i) := by
  have h := evalAt_accept hst hi hs hc hb
  simpa [ScanAt, scanNonce] using h

/-- A scan gets older at every edge until its last. -/
theorem scanAt_step (h : ScanAt cfg L n c t s) (hi : i.stop = false) (ht : t + 1 < c.toNat * evalCycles cfg) :
    ScanAt cfg L n c (t + 1) (s.step cfg i) := by
  have hE := evalCycles_pos cfg
  have hev : evalCycles cfg = 2 * coreCycles cfg.core + 15 := rfl
  have hdm := Nat.div_add_mod t (evalCycles cfg)
  have hmod := Nat.mod_lt t hE
  unfold ScanAt at h ⊢
  by_cases hl : t % evalCycles cfg + 1 = evalCycles cfg
  · have hsucc : t + 1 = evalCycles cfg * (t / evalCycles cfg + 1) := by rw [Nat.mul_add]; omega
    have hj : t / evalCycles cfg + 1 < c.toNat := by
      rw [hsucc, Nat.mul_comm] at ht
      exact Nat.lt_of_mul_lt_mul_right ht
    have hdiv : (t + 1) / evalCycles cfg = t / evalCycles cfg + 1 := by rw [hsucc, Nat.mul_div_cancel_left _ hE]
    have hmod' : (t + 1) % evalCycles cfg = 0 := by rw [hsucc, Nat.mul_mod_right]
    rw [hdiv, hmod', ← scanNonce_succ, BitVec.ofNat_add, ← BitVec.sub_sub]
    rw [show t % evalCycles cfg = 14 + 2 * coreCycles cfg.core by omega] at h
    refine evalAt_next h hi ?_
    rw [BitVec.le_def, toNat_left (by omega), show (1 : Word).toNat = 1 from rfl]
    omega
  · have hdiv : (t + 1) / evalCycles cfg = t / evalCycles cfg :=
      Nat.div_eq_of_lt_le (by rw [Nat.mul_comm]; omega) (by rw [Nat.add_mul, Nat.mul_comm]; omega)
    have hmod' : (t + 1) % evalCycles cfg = t % evalCycles cfg + 1 := by
      have := Nat.div_add_mod (t + 1) (evalCycles cfg)
      rw [hdiv] at this
      omega
    rw [hdiv, hmod']
    exact evalAt_step h hi (by omega)

/-- The last edge of a scan ends it. -/
theorem scanAt_finish (h : ScanAt cfg L n c t s) (hi : i.stop = false) (ht : t + 1 = c.toNat * evalCycles cfg) :
    (s.step cfg i).stateQ = .idle ∧ (s.step cfg i).doneO = true := by
  have hE := evalCycles_pos cfg
  have hev : evalCycles cfg = 2 * coreCycles cfg.core + 15 := rfl
  obtain ⟨k, hk⟩ : ∃ k, c.toNat = k + 1 := ⟨c.toNat - 1, by
    have : c.toNat ≠ 0 := by rintro h; simp [h] at ht
    omega⟩
  have htk : t = evalCycles cfg - 1 + evalCycles cfg * k := by rw [hk, Nat.add_mul, Nat.mul_comm] at ht; omega
  have hdiv : t / evalCycles cfg = k := by
    rw [htk, Nat.add_mul_div_left _ _ hE, Nat.div_eq_of_lt (by omega), Nat.zero_add]
  have hmod : t % evalCycles cfg = 14 + 2 * coreCycles cfg.core := by
    rw [htk, Nat.add_mul_mod_self_left, Nat.mod_eq_of_lt (by omega)]
    omega
  unfold ScanAt at h
  rw [hmod, hdiv] at h
  refine evalAt_finish h hi ?_
  rw [BitVec.le_def, toNat_left (by omega), show (1 : Word).toNat = 1 from rfl]
  omega

/-- As long as it is not stopped, an engine that has accepted a start with the core free goes on with its scan. -/
theorem scan_run_until {inp : Nat → EngineIn} (hst : s.stateQ = .idle) (hs : (inp 0).start = true)
    (hc : (inp 0).nonceCount ≠ 0) (hb : (s.step cfg (inp 0)).core.busyQ = false) :
    ∀ t, (∀ u ≤ t, (inp u).stop = false) → t < (inp 0).nonceCount.toNat * evalCycles cfg →
      ScanAt cfg (inp 0).job (inp 0).nonceStart (inp 0).nonceCount t (Clocked.run (Engine.step cfg) inp s (t + 1))
  | 0, hi, _ => scanAt_accept hst (hi 0 (Nat.le_refl 0)) hs hc hb
  | t + 1, hi, ht =>
    scanAt_step (scan_run_until hst hs hc hb t (fun u hu => hi u (by omega)) (by omega)) (hi _ (Nat.le_refl _)) ht

/-- **One scan.** After an accepted start with the core free, an engine that is not stopped evaluates its nonces one
after another, each in `evalCycles` edges. -/
theorem scan_run {inp : Nat → EngineIn} (hst : s.stateQ = .idle) (hi : ∀ t, (inp t).stop = false)
    (hs : (inp 0).start = true) (hc : (inp 0).nonceCount ≠ 0) (hb : (s.step cfg (inp 0)).core.busyQ = false) (t : Nat)
    (ht : t < (inp 0).nonceCount.toNat * evalCycles cfg) :
    ScanAt cfg (inp 0).job (inp 0).nonceStart (inp 0).nonceCount t (Clocked.run (Engine.step cfg) inp s (t + 1)) :=
  scan_run_until hst hs hc hb t (fun u _ => hi u) ht

end Scan

end Vek280Miner.Rtl
