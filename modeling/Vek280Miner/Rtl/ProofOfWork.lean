import Vek280Miner.Rtl.HeaderHash

/-!
# The share test

An engine compares the digest with the target from the first word on, that is as the number whose most significant byte
is the first byte of the digest. Bitcoin reads the 32 bytes of a block hash with the last byte most significant.

* `raises_iff`: an engine reports a nonce exactly when the big-endian reading of the digest is at most the target.
* `raises_littleEndian_iff`: this is Bitcoin's test exactly for the targets that do not lie between the two readings.
-/

namespace Vek280Miner.Rtl

/-- The engine raises `result_valid_o` in the `j`-th evaluation of the scan that starts with the first edge. -/
def Raises (cfg : EngineCfg) (inp : Nat → EngineIn) (s : Engine) (j : Nat) : Prop :=
  ∃ a < evalCycles cfg, (Clocked.run (Engine.step cfg) inp s (j * evalCycles cfg + a + 1)).resultValidO = true

section Scan

variable {cfg : EngineCfg} {inp : Nat → EngineIn} {s : Engine} {j : Nat}

/-- The states of the `j`-th evaluation. -/
theorem evalAt_of_scan (hst : s.stateQ = .idle) (hi : ∀ t, (inp t).stop = false) (hs : (inp 0).start = true)
    (hc : (inp 0).nonceCount ≠ 0) (hb : (s.step cfg (inp 0)).core.busyQ = false)
    (hj : j < (inp 0).nonceCount.toNat) {a : Nat} (ha : a < evalCycles cfg) :
    EvalAt cfg (inp 0).job (scanNonce cfg (inp 0).nonceStart j) ((inp 0).nonceCount - BitVec.ofNat 32 j)
      (pass1Digest (inp 0).job (scanNonce cfg (inp 0).nonceStart j)) a
      (Clocked.run (Engine.step cfg) inp s (j * evalCycles cfg + a + 1)) :=
  (scanAt_iff ha).1 (scan_run hst hi hs hc hb _ (scan_age_lt hj ha))

/-- An engine reports a nonce exactly when the big-endian reading of its digest is at most the target. -/
theorem raises_iff (hst : s.stateQ = .idle) (hi : ∀ t, (inp t).stop = false) (hs : (inp 0).start = true)
    (hc : (inp 0).nonceCount ≠ 0) (hb : (s.step cfg (inp 0)).core.busyQ = false)
    (hj : j < (inp 0).nonceCount.toNat) :
    Raises cfg inp s j ↔
      beValue (engineDigest (inp 0).job (scanNonce cfg (inp 0).nonceStart j)) ≤ beValue (inp 0).job.target := by
  constructor
  · rintro ⟨a, ha, hv⟩
    exact ((evalAt_of_scan hst hi hs hc hb hj ha).valid_iff.1 hv).2
  · intro hle
    have ha : 14 + 2 * coreCycles cfg.core < evalCycles cfg := by unfold evalCycles; omega
    exact ⟨_, ha, (evalAt_of_scan hst hi hs hc hb hj ha).valid_iff.2 ⟨rfl, hle⟩⟩

/-- **Share test.** The engine applies Bitcoin's test to a nonce exactly when the target is below both readings of the
digest or not below either. -/
theorem raises_littleEndian_iff (hst : s.stateQ = .idle) (hi : ∀ t, (inp t).stop = false) (hs : (inp 0).start = true)
    (hc : (inp 0).nonceCount ≠ 0) (hb : (s.step cfg (inp 0)).core.busyQ = false)
    (hj : j < (inp 0).nonceCount.toNat) :
    let digest := engineDigest (inp 0).job (scanNonce cfg (inp 0).nonceStart j)
    let target := beValue (inp 0).job.target
    (Raises cfg inp s j ↔ leValue digest ≤ target) ↔
      (target < beValue digest ∧ target < leValue digest) ∨ (beValue digest ≤ target ∧ leValue digest ≤ target) := by
  intro digest target
  rw [raises_iff hst hi hs hc hb hj]
  show (beValue digest ≤ target ↔ leValue digest ≤ target) ↔ _
  omega

end Scan

/-! ## A share that Bitcoin rejects -/

/-- The digest for all-zero job registers and nonce `0`. -/
theorem engineDigest_zero (target : Words 8) : engineDigest ⟨0, 0, target⟩ 0 =
    ![0x0156e382, 0x4a1a5d94, 0xb5edff4f, 0x9e554a37, 0x5b442896, 0xa0ce03f8, 0xe6bba84e, 0x5bb11e8e] := by
  rw [engineDigest, pass2Digest, pass1Digest, ← Sw.sha256Compress_wordsBytes, ← Sw.sha256Compress_wordsBytes]
  show Sw.sha256Compress sha256Iv (wordsBytes (secondBlock (Sw.sha256Compress 0 (wordsBytes (firstBlock 0 0))))) = _
  decide +kernel

/-- A target between the two readings of the digest of nonce `0`. -/
def midTarget : Words 8 := ![0x10000000, 0, 0, 0, 0, 0, 0, 0]

/-- One nonce from `n` on, for all-zero job registers and that target. -/
def oneNonce (start stop : Bool) (n : Word) : EngineIn := ⟨start, stop, ⟨0, 0, midTarget⟩, n, 1⟩

/-- The test of nonce `0` by the engine out of reset. -/
theorem raises_littleEndian_at_reset :
    let inp : Nat → EngineIn := fun _ => oneNonce true false 0
    let digest := engineDigest (inp 0).job (scanNonce ⟨1, false⟩ (inp 0).nonceStart 0)
    (Raises ⟨1, false⟩ inp (Engine.reset default) 0 ↔ leValue digest ≤ beValue midTarget) ↔
      (beValue midTarget < beValue digest ∧ beValue midTarget < leValue digest) ∨
        (beValue digest ≤ beValue midTarget ∧ leValue digest ≤ beValue midTarget) :=
  raises_littleEndian_iff rfl (fun _ => rfl) rfl (by decide) rfl (by decide)

/-- The engine out of reset reports nonce `0`, whose hash is above the target. -/
theorem raises_above_target : ¬ ∀ (cfg : EngineCfg) (inp : Nat → EngineIn) (s : Engine) (j : Nat), s.stateQ = .idle →
    (∀ t, (inp t).stop = false) → (inp 0).start = true → (inp 0).nonceCount ≠ 0 →
    (s.step cfg (inp 0)).core.busyQ = false → j < (inp 0).nonceCount.toNat →
    (Raises cfg inp s j ↔
      leValue (engineDigest (inp 0).job (scanNonce cfg (inp 0).nonceStart j)) ≤ beValue (inp 0).job.target) := by
  intro h
  have hd := engineDigest_zero midTarget
  have hr : Raises ⟨1, false⟩ (fun _ => oneNonce true false 0) (Engine.reset default) 0 ↔ _ :=
    raises_iff rfl (fun _ => rfl) rfl (by decide) rfl (by decide)
  have hl := h ⟨1, false⟩ (fun _ => oneNonce true false 0) (Engine.reset default) 0 rfl (fun _ => rfl) rfl (by decide) rfl
    (by decide)
  have hn : scanNonce ⟨1, false⟩ (oneNonce true false 0).nonceStart 0 = 0 := rfl
  simp only [hn] at hr hl
  rw [hr] at hl
  simp only [oneNonce, hd] at hl
  revert hl
  decide +kernel

end Vek280Miner.Rtl
