import Vek280Miner.Rtl.ProofOfWork

/-!
# Stopping and restarting an engine

`stop_i` sends the state machine of an engine to idle and leaves its core running. A start accepted later finds the core
free, or busy with a compression that nobody asked for any more; in the second case the core ignores the new launch and
its old digest is taken for the digest of the first pass.

* `engine_sound_of_free_core`: in every run in which each accepted start finds the core free, or in its last cycle,
  every reported nonce is a share of the job latched at the most recent accepted start.
* `restart_reports_stale_digest`: a run in which a restart during a compression reports a nonce that is no share.
-/

namespace Vek280Miner.Rtl

/-! ## Histories -/

/-- The edge accepts a start. -/
def Engine.accepts (s : Engine) (i : EngineIn) : Bool := s.stateQ == .idle && !i.stop && i.start && i.nonceCount != 0

/-- The job latched at the most recent start accepted in the first `t` edges. -/
def lastStart (cfg : EngineCfg) (inp : Nat → EngineIn) (s : Engine) : Nat → Option Latched
  | 0 => none
  | t + 1 =>
    if (Clocked.run (Engine.step cfg) inp s t).accepts (inp t) then some (inp t).job else lastStart cfg inp s t

/-- The core finishes its compression at the next edge. -/
def Sha256Core.lastCycle (cfg : CoreCfg) (s : Sha256Core) : Bool :=
  s.roundQ == 63 && s.phaseQ == BitVec.ofNat 3 (phases cfg - 1)

/-- The core can take the launch that follows a start accepted now. -/
def Engine.coreFree (cfg : EngineCfg) (s : Engine) : Bool := !s.core.busyQ || s.core.lastCycle cfg.core

/-- What the engine does after `t` edges is justified by the most recent accepted start: it compares only digests of the
latched header, and reports only nonces whose digest is at most the latched target. -/
def SoundAt (cfg : EngineCfg) (inp : Nat → EngineIn) (s : Engine) (t : Nat) : Prop :=
  let e := Clocked.run (Engine.step cfg) inp s t
  (e.stateQ = .compare → ∃ L, lastStart cfg inp s t = some L ∧ e.digestQ = engineDigest L e.nonceQ) ∧
    (e.resultValidO = true → ∃ L, lastStart cfg inp s t = some L ∧
      beValue (engineDigest L e.resultNonceO) ≤ beValue L.target)

/-! ## Runs with a free core -/

/-- The engine is idle with no launch pending, or evaluates a nonce for the job `L?`. -/
inductive Justified (cfg : EngineCfg) (L? : Option Latched) (s : Engine) : Prop
  | idle : s.stateQ = .idle → s.coreStartQ = false → s.resultValidO = false → Justified cfg L? s
  | eval {L : Latched} {n r : Word} {a : Nat} : L? = some L → EvalAt cfg L n r (pass1Digest L n) a s → Justified cfg L? s

section Step

variable {cfg : EngineCfg} {L? : Option Latched} {s : Engine} {i : EngineIn}

/-- The core is not busy at the launch after a start that found it free. -/
theorem core_free_step (hc : s.coreFree cfg = true) (hs : s.coreStartQ = false) :
    (s.core.step cfg.core s.coreIn).busyQ = false := by
  cases hb : s.core.busyQ with
  | false => exact core_stays_idle hb (by simp [Engine.coreIn, bitcoinSha256CoreIn, hs])
  | true =>
    simp only [Engine.coreFree, hb, Sha256Core.lastCycle, Bool.not_true, Bool.false_or, Bool.and_eq_true,
      beq_iff_eq] at hc
    obtain ⟨hr, hp⟩ := hc
    rw [step_busy hb, hp]
    cases h4 : cfg.core.fourPhase <;> simp [phases, h4, Sha256Core.finishRound, hr]

/-- One edge. -/
theorem justified_step (h : Justified cfg L? s) (hc : s.accepts i = true → s.coreFree cfg = true) :
    Justified cfg (if s.accepts i then some i.job else L?) (s.step cfg i) := by
  cases hi : i.stop with
  | true =>
    rw [step_stop hi]
    exact .idle rfl rfl rfl
  | false =>
    rcases h with ⟨hst, hs, hv⟩ | @⟨L, n, r, a, hL, he⟩
    · cases hacc : i.start && i.nonceCount != 0 with
      | true =>
        have ha : s.accepts i = true := by simp_all [Engine.accepts]
        have hb : (s.step cfg i).core.busyQ = false := by
          rw [step_accept hi hst hacc]
          exact core_free_step (hc ha) hs
        rw [if_pos ha]
        simp only [Bool.and_eq_true, bne_iff_ne, ne_eq] at hacc
        exact .eval rfl (evalAt_accept hst hi hacc.1 hacc.2 hb)
      | false =>
        rw [step_idle hi hst hacc]
        exact .idle hst rfl rfl
    · have hne : s.accepts i = false := by simp [Engine.accepts, he.not_idle]
      rw [hne, if_neg (by simp)]
      rcases Nat.lt_or_ge a (14 + 2 * coreCycles cfg.core) with ha | ha
      · exact .eval hL (evalAt_step he hi ha)
      · obtain rfl : a = 14 + 2 * coreCycles cfg.core := Nat.le_antisymm he.age_le ha
        by_cases hr : r ≤ 1
        · rw [step_check hi (evalAt_check he).2.1, if_pos (by rw [he.frame.remaining]; exact hr)]
          exact .idle rfl rfl rfl
        · exact .eval hL (evalAt_next he hi hr)

end Step

/-- Along a run whose accepted starts all find the core free. -/
theorem justified_run {cfg : EngineCfg} {inp : Nat → EngineIn} {s : Engine}
    (hf : ∀ t, (Clocked.run (Engine.step cfg) inp s.reset t).accepts (inp t) = true →
      (Clocked.run (Engine.step cfg) inp s.reset t).coreFree cfg = true) :
    ∀ t, Justified cfg (lastStart cfg inp s.reset t) (Clocked.run (Engine.step cfg) inp s.reset t)
  | 0 => .idle rfl rfl rfl
  | t + 1 => justified_step (justified_run hf t) (hf t)

/-- **Soundness under stop and restart.** In every run from reset in which each accepted start finds the core idle or in
its last cycle, the engine is sound after every edge. -/
theorem engine_sound_of_free_core (cfg : EngineCfg) (inp : Nat → EngineIn) (s : Engine)
    (hf : ∀ t, (Clocked.run (Engine.step cfg) inp s.reset t).accepts (inp t) = true →
      (Clocked.run (Engine.step cfg) inp s.reset t).coreFree cfg = true) (t : Nat) :
    SoundAt cfg inp s.reset t := by
  rcases justified_run hf t with ⟨hst, hs, hv⟩ | @⟨L, n, r, a, hL, he⟩
  · refine ⟨fun hc => ?_, fun hc => ?_⟩
    · rw [hst] at hc
      simp at hc
    · rw [hv] at hc
      simp at hc
  · refine ⟨fun hc => ⟨L, hL, ?_⟩, fun hv => ⟨L, hL, ?_⟩⟩
    · rw [he.digest hc, he.frame.nonce, engineDigest]
    · rw [he.nonce_of_valid hv]
      exact (he.valid_iff.1 hv).2

/-- A scan of one nonce out of reset. -/
theorem engine_sound_one_nonce : SoundAt ⟨1, false⟩ (fun t => oneNonce (t == 0) false 0) (Engine.reset default) 700 := by
  refine engine_sound_of_free_core ⟨1, false⟩ (fun t => oneNonce (t == 0) false 0) default ?_ 700
  intro t ht
  have h0 : t = 0 := by
    by_contra hne
    simp [Engine.accepts, oneNonce, hne] at ht
  subst h0
  rfl

/-! ## A restart during a compression -/

theorem lastStart_job {cfg : EngineCfg} {inp : Nat → EngineIn} {s : Engine} {J L : Latched} (hJ : ∀ t, (inp t).job = J) :
    ∀ {t : Nat}, lastStart cfg inp s t = some L → L = J
  | 0, h => by simp [lastStart] at h
  | t + 1, h => by
    rw [lastStart] at h
    split at h
    · rw [← Option.some.inj h, hJ]
    · exact lastStart_job hJ h

/-- Start on nonce `0`, stop three edges later, start again on nonce `1` at the next edge. -/
def restartInputs (t : Nat) : EngineIn := oneNonce (t == 0 || t == 4) (t == 3) (if t = 0 then 0 else 1)

/-- After six edges the engine waits for the first pass of nonce `1` while the core is three edges into that of
nonce `0`. -/
theorem restart_evalAt (cfg : EngineCfg) : EvalAt cfg ⟨0, 0, midTarget⟩ 1 1 (pass1Digest ⟨0, 0, midTarget⟩ 0) (2 + 3)
    (Clocked.run (Engine.step cfg) restartInputs (Engine.reset default) 6) := by
  have hc : 64 * 4 ≤ coreCycles cfg.core := by
    have := phases_cases cfg.core
    unfold coreCycles
    omega
  have h0 : CoreAge cfg.core (firstBlock 0 0) 0 0
      (Clocked.run (Engine.step cfg) restartInputs (Engine.reset default) 3).core :=
    coreAge_accept (s := Clocked.run (Engine.step cfg) restartInputs (Engine.reset default) 2) rfl rfl
  have h3 : CoreAge cfg.core (firstBlock 0 0) 0 3
      (Clocked.run (Engine.step cfg) restartInputs (Engine.reset default) (3 + 3)).core := by
    rw [Clocked.run_add]
    exact coreAge_engine_run h0 3 (by omega)
  exact .run1 3 (by omega) ⟨rfl, rfl, rfl⟩ rfl rfl rfl h3 rfl

/-- The digest for all-zero job registers and nonce `1` is above the target. -/
theorem engineDigest_one : beValue midTarget < beValue (engineDigest ⟨0, 0, midTarget⟩ 1) := by
  rw [engineDigest, pass2Digest, pass1Digest, ← Sw.sha256Compress_wordsBytes, ← Sw.sha256Compress_wordsBytes]
  decide +kernel

/-- The restarted engine reports nonce `1` for the digest of nonce `0`. -/
theorem restart_reports_stale_digest :
    ¬ ∀ (cfg : EngineCfg) (inp : Nat → EngineIn) (s : Engine) (t : Nat), SoundAt cfg inp s.reset t := by
  intro h
  obtain ⟨T, hT⟩ : ∃ T, 2 + 3 + T = 14 + 2 * coreCycles (EngineCfg.core ⟨1, false⟩) := ⟨649, by decide⟩
  have hstop : ∀ t, (restartInputs (6 + t)).stop = false := by
    intro t
    simp [restartInputs, oneNonce]
    omega
  have he := evalAt_run (restart_evalAt ⟨1, false⟩) hstop T (by omega)
  rw [← Clocked.run_add] at he
  have hle : beValue (engineDigest ⟨0, 0, midTarget⟩ 0) ≤ beValue midTarget := by
    rw [engineDigest_zero]
    decide
  have hv := he.valid_iff.2 ⟨hT, hle⟩
  obtain ⟨L, hL, hs⟩ := (h ⟨1, false⟩ restartInputs default (6 + T)).2 hv
  rw [he.nonce_of_valid hv, lastStart_job (J := ⟨0, 0, midTarget⟩) (fun _ => rfl) hL] at hs
  exact absurd hs (Nat.not_le.2 engineDigest_one)

end Vek280Miner.Rtl
