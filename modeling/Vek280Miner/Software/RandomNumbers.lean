import Mathlib.Order.Interval.Finset.Nat
import Mathlib.Tactic.NormNum.Prime
import Vek280Miner.Lib.Clocked
import Vek280Miner.Lib.Word
import Vek280Miner.Lib.ShiftRegister

/-!
# The random numbers of the network stack (`main.c`)

`miner_platform_rand32` shifts one word, `lfsr`, three times and returns it. The stack calls it through
`xApplicationGetRandomNumber` and `ulApplicationGetNextSequenceNumber`, in any order and with any arguments; a call is one
step.

The word is a shift register (`randRegister`), and its period is `2 ^ 32 - 1`, the longest there can be
(`minimalPeriod_rand32`). So among that many calls in a row, wherever they begin, every word but zero is drawn once
(`FullPeriod`), and two calls for the initial sequence number of one connection give the same number only when they are
a multiple of that many calls apart.
-/

namespace Vek280Miner.Sw

open Function

/-- `miner_platform_rand32`: what becomes of `lfsr`, and what is returned. -/
def minerPlatformRand32 (lfsr : Word) : Word :=
  let lfsr := lfsr ^^^ lfsr <<< 13
  let lfsr := lfsr ^^^ lfsr >>> 17
  lfsr ^^^ lfsr <<< 5

/-- `lfsr` at start-up. -/
def lfsrInit : Word := 0x7a280001

inductive RandCall where
  | getRandomNumber
  | getNextSequenceNumber (srcAddr : Word) (srcPort : BitVec 16) (dstAddr : Word) (dstPort : BitVec 16)
deriving DecidableEq

/-- `xApplicationGetRandomNumber`, which writes the number and returns `pdTRUE`, and
`ulApplicationGetNextSequenceNumber`. -/
def RandCall.result (drawn : Word) : RandCall → Word
  | .getRandomNumber => drawn
  | .getNextSequenceNumber srcAddr srcPort dstAddr dstPort =>
    drawn ^^^ srcAddr ^^^ dstAddr ^^^ srcPort.setWidth 32 <<< 16 ^^^ dstPort.setWidth 32

/-- `lfsr`, and what the last call has returned. -/
structure RandState where
  lfsr : Word
  returned : Word

def RandState.step (call : RandCall) (s : RandState) : RandState :=
  let drawn := minerPlatformRand32 s.lfsr
  ⟨drawn, call.result drawn⟩

def RandState.reset : RandState := ⟨lfsrInit, 0⟩

/-- What the `n`-th call draws. -/
def drawnAt (calls : Nat → RandCall) (n : Nat) : Word :=
  (Clocked.run RandState.step calls RandState.reset (n + 1)).lfsr

/-- What the `n`-th call returns. -/
def returnedAt (calls : Nat → RandCall) (n : Nat) : Word :=
  (Clocked.run RandState.step calls RandState.reset (n + 1)).returned

/-! ## The step -/

/-- One of its statements. -/
def xorShl (n : Nat) (x : Word) : Word := x ^^^ x <<< n

def xorShr (n : Nat) (x : Word) : Word := x ^^^ x >>> n

theorem minerPlatformRand32_eq (x : Word) : minerPlatformRand32 x = xorShl 5 (xorShr 17 (xorShl 13 x)) := rfl

theorem xorShl_xor (n : Nat) (x y : Word) : xorShl n (x ^^^ y) = xorShl n x ^^^ xorShl n y := by
  unfold xorShl
  rw [BitVec.shiftLeft_xor_distrib]
  ac_rfl

theorem xorShr_xor (n : Nat) (x y : Word) : xorShr n (x ^^^ y) = xorShr n x ^^^ xorShr n y := by
  unfold xorShr
  rw [BitVec.ushiftRight_xor_distrib]
  ac_rfl

theorem minerPlatformRand32_xor (x y : Word) :
    minerPlatformRand32 (x ^^^ y) = minerPlatformRand32 x ^^^ minerPlatformRand32 y := by
  simp only [minerPlatformRand32_eq, xorShl_xor, xorShr_xor]

/-- The step on numbers. -/
def randNat (x : Nat) : Nat := (minerPlatformRand32 (BitVec.ofNat 32 x)).toNat

theorem randNat_xor (x y : Nat) : randNat (x ^^^ y) = randNat x ^^^ randNat y := by
  have h : BitVec.ofNat 32 (x ^^^ y) = BitVec.ofNat 32 x ^^^ BitVec.ofNat 32 y :=
    BitVec.eq_of_toNat_eq (by simp)
  unfold randNat
  rw [h, minerPlatformRand32_xor, BitVec.toNat_xor]

theorem randNat_toNat (x : Word) : randNat x.toNat = (minerPlatformRand32 x).toNat := by
  rw [randNat, BitVec.ofNat_toNat, BitVec.setWidth_eq]

theorem iterate_randNat (n : Nat) (x : Word) : randNat^[n] x.toNat = (minerPlatformRand32^[n] x).toNat := by
  induction n generalizing x with
  | zero => rfl
  | succ n ih => rw [iterate_succ_apply, randNat_toNat, ih, iterate_succ_apply]

/-! ## The period -/

/-- What `X ^ 32` is, by the powers below it. -/
def randPoly : Nat := 0x3ec241

def randRegister : ShiftRegister 32 :=
  ShiftRegister.ofPowers 32 randNat randPoly randNat_xor (fun _ => BitVec.isLt _) (by decide +kernel)

theorem randPower : powMod 32 randPoly 32 2 (2 ^ 32 - 1) = 1 := by
  decide +kernel

/-- The inverse of `X ^ n + 1`, as one of its powers. -/
def randInverse (n : Nat) : Nat :=
  powMod 32 randPoly 32 (powMod 32 randPoly 32 2 n ^^^ 1) (2 ^ 32 - 2)

theorem randInverse_mul : ∀ p ∈ [3, 5, 17, 257, 65537],
    mulMod 32 randPoly (randInverse ((2 ^ 32 - 1) / p)) (powMod 32 randPoly 32 2 ((2 ^ 32 - 1) / p) ^^^ 1) = 1 := by
  decide +kernel

theorem primes_period {p : Nat} (hp : p.Prime) (hdvd : p ∣ 2 ^ 32 - 1) : p ∈ [3, 5, 17, 257, 65537] := by
  rw [show 2 ^ 32 - 1 = 3 * 5 * 17 * 257 * 65537 from rfl] at hdvd
  have hfactor : ∀ q : Nat, q.Prime → p ∣ q → p = q := fun q hq h => (Nat.prime_dvd_prime_iff_eq hp hq).1 h
  simp only [List.mem_cons, List.not_mem_nil, or_false]
  rcases hp.dvd_mul.1 hdvd with h | h
  · rcases hp.dvd_mul.1 h with h | h
    · rcases hp.dvd_mul.1 h with h | h
      · rcases hp.dvd_mul.1 h with h | h
        · exact .inl (hfactor 3 (by norm_num) h)
        · exact .inr (.inl (hfactor 5 (by norm_num) h))
      · exact .inr (.inr (.inl (hfactor 17 (by norm_num) h)))
    · exact .inr (.inr (.inr (.inl (hfactor 257 (by norm_num) h))))
  · exact .inr (.inr (.inr (.inr (hfactor 65537 (by norm_num) h))))

theorem minimalPeriod_rand32 {x : Word} (hx : x ≠ 0) : minimalPeriod minerPlatformRand32 x = 2 ^ 32 - 1 := by
  have hnat : minimalPeriod randNat x.toNat = 2 ^ 32 - 1 :=
    randRegister.minimalPeriod_eq (by decide) (by decide) randPower
      (fun p hp hdvd => ⟨_, randInverse_mul p (primes_period hp hdvd)⟩) x.isLt fun h => hx (BitVec.eq_of_toNat_eq h)
  refine Nat.dvd_antisymm (IsPeriodicPt.minimalPeriod_dvd ?_) ?_
  · have hperiod := isPeriodicPt_minimalPeriod randNat x.toNat
    rw [hnat] at hperiod
    exact BitVec.eq_of_toNat_eq ((iterate_randNat _ x).symm.trans hperiod)
  · rw [← hnat]
    refine IsPeriodicPt.minimalPeriod_dvd ((iterate_randNat _ x).trans ?_)
    rw [(isPeriodicPt_minimalPeriod minerPlatformRand32 x).eq]

/-! ## The calls -/

section

variable (calls : Nat → RandCall)

theorem drawnAt_eq (n : Nat) : drawnAt calls n = minerPlatformRand32^[n] (minerPlatformRand32 lfsrInit) := by
  induction n with
  | zero => rfl
  | succ n ih =>
    rw [iterate_succ_apply', ← ih]
    rfl

theorem returnedAt_eq (n : Nat) : returnedAt calls n = (calls n).result (drawnAt calls n) := rfl

theorem period_lfsr : minimalPeriod minerPlatformRand32 (minerPlatformRand32 lfsrInit) = 2 ^ 32 - 1 :=
  minimalPeriod_rand32 (by decide)

theorem drawnAt_inj (m n : Nat) : drawnAt calls m = drawnAt calls n ↔ m ≡ n [MOD 2 ^ 32 - 1] := by
  rw [drawnAt_eq, drawnAt_eq, iterate_eq_iff_modEq, period_lfsr]
  rw [period_lfsr]
  decide

theorem drawnAt_ne_zero (n : Nat) : drawnAt calls n ≠ 0 := by
  intro h
  have hzero : ∀ k, minerPlatformRand32^[k] 0 = 0 := iterate_fixed (by decide)
  have hperiod : drawnAt calls n = drawnAt calls ((2 ^ 32 - 1) + n) :=
    (drawnAt_inj calls _ _).2 (by simp [Nat.ModEq])
  have hnext : drawnAt calls (n + 1) = drawnAt calls n := by
    rw [drawnAt_eq, iterate_succ_apply', ← drawnAt_eq calls, h]
    rfl
  have hmod := (drawnAt_inj calls _ _).1 hnext
  rw [Nat.ModEq] at hmod
  omega

/-- Among `2 ^ 32 - 1` calls in a row every word but zero is drawn, and each of them once. -/
theorem drawnAt_once (m : Nat) {y : Word} (hy : y ≠ 0) : ∃! i, i < 2 ^ 32 - 1 ∧ drawnAt calls (m + i) = y := by
  have hinj : ∀ i < 2 ^ 32 - 1, ∀ j < 2 ^ 32 - 1, drawnAt calls (m + i) = drawnAt calls (m + j) → i = j := by
    intro i hi j hj h
    have hmod := Nat.ModEq.add_left_cancel' m ((drawnAt_inj calls _ _).1 h)
    rwa [Nat.ModEq, Nat.mod_eq_of_lt hi, Nat.mod_eq_of_lt hj] at hmod
  have himage : (Finset.range (2 ^ 32 - 1)).image (fun i => (drawnAt calls (m + i)).toNat) = Finset.Ico 1 (2 ^ 32) := by
    refine Finset.eq_of_subset_of_card_le ?_ ?_
    · intro k hk
      obtain ⟨i, -, rfl⟩ := Finset.mem_image.1 hk
      have hne : (drawnAt calls (m + i)).toNat ≠ 0 := fun h => drawnAt_ne_zero calls _ (BitVec.eq_of_toNat_eq h)
      exact Finset.mem_Ico.2 ⟨Nat.one_le_iff_ne_zero.2 hne, BitVec.isLt _⟩
    · rw [Finset.card_image_of_injOn, Finset.card_range, Nat.card_Ico]
      intro i hi j hj h
      exact hinj i (Finset.mem_range.1 hi) j (Finset.mem_range.1 hj) (BitVec.eq_of_toNat_eq h)
  have hmem : y.toNat ∈ Finset.Ico 1 (2 ^ 32) :=
    Finset.mem_Ico.2 ⟨Nat.one_le_iff_ne_zero.2 fun h => hy (BitVec.eq_of_toNat_eq h), y.isLt⟩
  rw [← himage] at hmem
  obtain ⟨i, hi, hiy⟩ := Finset.mem_image.1 hmem
  have hdrawn : drawnAt calls (m + i) = y := BitVec.eq_of_toNat_eq hiy
  exact ⟨i, ⟨Finset.mem_range.1 hi, hdrawn⟩, fun j ⟨hj, hjy⟩ => hinj j hj i (Finset.mem_range.1 hi) (hjy.trans hdrawn.symm)⟩

/-- A call returns different numbers for different words drawn. -/
theorem RandCall.result_inj (call : RandCall) (x y : Word) : call.result x = call.result y ↔ x = y := by
  cases call with
  | getRandomNumber => exact Iff.rfl
  | getNextSequenceNumber => simp only [RandCall.result, BitVec.xor_left_inj]

/-- What the stack can rely on. -/
structure FullPeriod : Prop where
  once : ∀ m y, y ≠ 0 → ∃! i, i < 2 ^ 32 - 1 ∧ drawnAt calls (m + i) = y
  nonzero : ∀ n, drawnAt calls n ≠ 0
  returned : ∀ i j, calls i = calls j → (returnedAt calls i = returnedAt calls j ↔ i ≡ j [MOD 2 ^ 32 - 1])

/-- **The random numbers of the stack.** In every order of calls, with any arguments. -/
theorem random_numbers_full_period : FullPeriod calls where
  once m _ hy := drawnAt_once calls m hy
  nonzero := drawnAt_ne_zero calls
  returned i j h := by
    rw [returnedAt_eq, returnedAt_eq, h, RandCall.result_inj, drawnAt_inj]

end

end Vek280Miner.Sw
