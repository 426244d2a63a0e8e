import Mathlib.Algebra.Ring.Nat
import Mathlib.Data.List.Iterate
import Mathlib.Data.Nat.Bitwise
import Mathlib.Data.Nat.ModEq
import Mathlib.Data.Nat.Prime.Basic
import Mathlib.Dynamics.PeriodicPts.Defs

/-!
# Shift registers

A shift register walks through the words of `w` bits by a map that commutes with exclusive or, so a polynomial over the
field of two elements acts on the words: `eval` takes the exclusive or of the steps that the bits of the polynomial name.
The `w`-th power of the map is itself such a polynomial, `poly`, and so polynomials of `w` bits suffice. They are
multiplied as words (`eval_mulMod`), and a power of the map is found by squaring (`eval_powMod`).

When the power `N` is `1`, and for each prime divisor `p` of `N` the power `N / p` less `1` has an inverse, the period of
every word but zero is `N` (`minimalPeriod_eq`).
-/

namespace Vek280Miner

open Function

/-- The exclusive or of the words at the bits of `g`. -/
def xorAt : List Nat → Nat → Nat
  | [], _ => 0
  | c :: cs, g => g % 2 * c ^^^ xorAt cs (g / 2)

/-! ## Words at bits -/

@[simp] theorem xorAt_zero (cs : List Nat) : xorAt cs 0 = 0 := by
  induction cs with
  | nil => rfl
  | cons c cs ih => simp [xorAt, ih]

theorem xorAt_xor (cs : List Nat) (g h : Nat) : xorAt cs (g ^^^ h) = xorAt cs g ^^^ xorAt cs h := by
  induction cs generalizing g h with
  | nil => exact (Nat.xor_self 0).symm
  | cons c cs ih =>
    have hbit : (g ^^^ h) % 2 * c = g % 2 * c ^^^ h % 2 * c := by
      rw [show (g ^^^ h) % 2 = g % 2 ^^^ h % 2 from Nat.xor_mod_two_pow (n := 1)]
      rcases Nat.mod_two_eq_zero_or_one g with hg | hg <;> rcases Nat.mod_two_eq_zero_or_one h with hh | hh <;> simp [hg, hh]
    simp only [xorAt, Nat.xor_div_two, ih, hbit]
    ac_rfl

theorem xorAt_bit (cs : List Nat) (b c : Nat) : xorAt cs (b % 2 * c) = b % 2 * xorAt cs c := by
  rcases Nat.mod_two_eq_zero_or_one b with hb | hb <;> simp [hb]

/-- A map that commutes with exclusive or goes inside. -/
theorem xorAt_map {f : Nat → Nat} (hf : ∀ x y, f (x ^^^ y) = f x ^^^ f y) (cs : List Nat) (g : Nat) :
    xorAt (cs.map f) g = f (xorAt cs g) := by
  have h0 : f 0 = 0 := by simpa using hf 0 0
  induction cs generalizing g with
  | nil => exact h0.symm
  | cons c cs ih =>
    have hbit : f (g % 2 * c) = g % 2 * f c := by
      rcases Nat.mod_two_eq_zero_or_one g with hg | hg <;> simp [hg, h0]
    rw [List.map_cons, xorAt, xorAt, ih, hf, hbit]

theorem xorAt_mod (cs : List Nat) (g : Nat) : xorAt cs (g % 2 ^ cs.length) = xorAt cs g := by
  induction cs generalizing g with
  | nil => rfl
  | cons c cs ih =>
    have hbit : g % 2 ^ (cs.length + 1) % 2 = g % 2 := Nat.mod_mod_of_dvd g (Dvd.intro_left (2 ^ cs.length) rfl)
    have hrest : g % 2 ^ (cs.length + 1) / 2 = g / 2 % 2 ^ cs.length := by
      rw [Nat.pow_succ', Nat.mod_mul_right_div_self]
    rw [xorAt, xorAt, List.length_cons, hbit, hrest, ih]

theorem xorAt_append (cs ds : List Nat) (g : Nat) : xorAt (cs ++ ds) g = xorAt cs g ^^^ xorAt ds (g / 2 ^ cs.length) := by
  induction cs generalizing g with
  | nil => simp [xorAt]
  | cons c cs ih =>
    rw [List.cons_append, xorAt, xorAt, ih, List.length_cons, Nat.div_div_eq_div_mul, ← Nat.pow_succ', Nat.xor_assoc]

/-- Every word is put together from the powers of two. -/
theorem xorAt_powers {w x : Nat} (hx : x < 2 ^ w) : xorAt (List.iterate (2 * ·) 1 w) x = x := by
  induction w generalizing x with
  | zero =>
    obtain rfl : x = 0 := by simpa using hx
    rfl
  | succ w ih =>
    have hdouble : ∀ y z, 2 * (y ^^^ z) = 2 * y ^^^ 2 * z := by
      intro y z
      have := Nat.shiftLeft_xor_distrib (a := y) (b := z) (i := 1)
      simpa [Nat.shiftLeft_eq, Nat.mul_comm] using this
    have hmap : ∀ n a, List.iterate (2 * ·) (2 * a) n = (List.iterate (2 * ·) a n).map (2 * ·) := by
      intro n
      induction n with
      | zero => exact fun _ => rfl
      | succ n ihn => exact fun a => congrArg (2 * a :: ·) (ihn (2 * a))
    have hsplit : x % 2 ^^^ 2 * (x / 2) = x := by
      refine Nat.eq_of_testBit_eq fun i => ?_
      cases i with
      | zero => simp [Nat.testBit_zero]
      | succ i => simp [Nat.testBit_succ, Nat.xor_div_two]
    rw [List.iterate, xorAt, hmap, xorAt_map hdouble, ih (by rw [Nat.pow_succ] at hx; omega), Nat.mul_one, hsplit]

/-- Maps that commute with exclusive or are the same when they are so at the powers of two. -/
theorem eq_of_powers {f g : Nat → Nat} (hf : ∀ x y, f (x ^^^ y) = f x ^^^ f y) (hg : ∀ x y, g (x ^^^ y) = g x ^^^ g y)
    {w : Nat} (h : (List.iterate (2 * ·) 1 w).map f = (List.iterate (2 * ·) 1 w).map g) {x : Nat} (hx : x < 2 ^ w) :
    f x = g x := by
  rw [← xorAt_powers hx, ← xorAt_map hf, ← xorAt_map hg, h]

/-! ## The register -/

/-- A shift register of `w` bits. -/
structure ShiftRegister (w : Nat) where
  step : Nat → Nat
  poly : Nat
  step_xor : ∀ x y, step (x ^^^ y) = step x ^^^ step y
  step_lt : ∀ x, step x < 2 ^ w
  power : ∀ x < 2 ^ w, step^[w] x = xorAt (List.iterate step x w) poly

theorem iterate_xor {f : Nat → Nat} (hf : ∀ x y, f (x ^^^ y) = f x ^^^ f y) (n x y : Nat) :
    f^[n] (x ^^^ y) = f^[n] x ^^^ f^[n] y := by
  induction n generalizing x y with
  | zero => rfl
  | succ n ih => rw [iterate_succ_apply, hf, ih, ← iterate_succ_apply, ← iterate_succ_apply]

theorem xorAt_iterate_xor {f : Nat → Nat} (hf : ∀ x y, f (x ^^^ y) = f x ^^^ f y) (n g x y : Nat) :
    xorAt (List.iterate f (x ^^^ y) n) g = xorAt (List.iterate f x n) g ^^^ xorAt (List.iterate f y n) g := by
  induction n generalizing g x y with
  | zero => exact (Nat.xor_self 0).symm
  | succ n ih =>
    have hbit : g % 2 * (x ^^^ y) = g % 2 * x ^^^ g % 2 * y := by
      rcases Nat.mod_two_eq_zero_or_one g with hg | hg <;> simp [hg]
    simp only [List.iterate, xorAt, hf, ih, hbit]
    ac_rfl

/-- It is enough to look at the powers of two. -/
def ShiftRegister.ofPowers (w : Nat) (step : Nat → Nat) (poly : Nat)
    (step_xor : ∀ x y, step (x ^^^ y) = step x ^^^ step y) (step_lt : ∀ x, step x < 2 ^ w)
    (power : (List.iterate (2 * ·) 1 w).map step^[w] =
      (List.iterate (2 * ·) 1 w).map fun x => xorAt (List.iterate step x w) poly) : ShiftRegister w where
  step
  poly
  step_xor
  step_lt
  power _ hx := eq_of_powers (iterate_xor step_xor w) (xorAt_iterate_xor step_xor w poly) power hx

/-- The product with `X`. -/
def mulX (w poly g : Nat) : Nat := 2 * g % 2 ^ w ^^^ g / 2 ^ (w - 1) % 2 * poly

/-- The product of two polynomials. -/
def mulMod (w poly g h : Nat) : Nat := xorAt (List.iterate (mulX w poly) h w) g

/-- The power `n < 2 ^ k`, by squaring. -/
def powMod (w poly : Nat) : Nat → Nat → Nat → Nat
  | 0, _, _ => 1
  | k + 1, g, n =>
    let half := powMod w poly k (mulMod w poly g g) (n / 2)
    if n % 2 = 1 then mulMod w poly half g else half

namespace ShiftRegister

variable {w : Nat} (r : ShiftRegister w)

/-- What a polynomial makes of a word. -/
def eval (g x : Nat) : Nat := xorAt (List.iterate r.step x w) g

theorem map_iterate (x n : Nat) : (List.iterate r.step x n).map r.step = List.iterate r.step (r.step x) n := by
  induction n generalizing x with
  | zero => rfl
  | succ n ih => exact congrArg (r.step x :: ·) (ih (r.step x))

theorem eval_xor (g h x : Nat) : r.eval (g ^^^ h) x = r.eval g x ^^^ r.eval h x := xorAt_xor _ g h

@[simp] theorem step_zero : r.step 0 = 0 := by simpa using r.step_xor 0 0

@[simp] theorem eval_word_zero (g : Nat) : r.eval g 0 = 0 := by
  have hstep : (List.iterate r.step 0 w).map (fun _ => 0) = List.iterate r.step 0 w := by
    refine List.ext_getElem (by simp) fun i _ _ => ?_
    rw [List.getElem_map, List.getElem_iterate, iterate_fixed r.step_zero]
  unfold eval
  rw [← hstep, xorAt_map (f := fun _ => 0) (fun _ _ => (Nat.xor_self 0).symm)]

theorem eval_step (g x : Nat) : r.eval g (r.step x) = r.step (r.eval g x) := by
  unfold eval
  rw [← map_iterate, xorAt_map r.step_xor]

theorem eval_one (hw : 0 < w) (x : Nat) : r.eval 1 x = x := by
  obtain ⟨v, rfl⟩ : ∃ v, w = v + 1 := ⟨w - 1, by omega⟩
  simp [eval, List.iterate, xorAt]

theorem eval_X (hw : 1 < w) (x : Nat) : r.eval 2 x = r.step x := by
  obtain ⟨v, rfl⟩ : ∃ v, w = v + 2 := ⟨w - 2, by omega⟩
  simp [eval, List.iterate, xorAt]

theorem eval_mulX (hw : 0 < w) {x : Nat} (hx : x < 2 ^ w) (g : Nat) :
    r.eval (mulX w r.poly g) x = r.step (r.eval g x) := by
  have hpower := r.power x hx
  obtain ⟨v, rfl⟩ : ∃ v, w = v + 1 := ⟨w - 1, by omega⟩
  have hshift : r.eval (2 * g % 2 ^ (v + 1)) x = xorAt (List.iterate r.step (r.step x) v) g := by
    have hrest : 2 * g % 2 ^ (v + 1) / 2 = g % 2 ^ v := by
      rw [Nat.pow_succ', Nat.mod_mul_right_div_self, Nat.mul_div_cancel_left g (by decide)]
    have hbit : 2 * g % 2 ^ (v + 1) % 2 = 0 :=
      (Nat.mod_mod_of_dvd _ (Dvd.intro_left (2 ^ v) rfl)).trans (Nat.mul_mod_right 2 g)
    have hmod := xorAt_mod (List.iterate r.step (r.step x) v) g
    rw [List.length_iterate] at hmod
    rw [eval, List.iterate, xorAt, hbit, hrest, hmod, Nat.zero_mul, Nat.zero_xor]
  have hlast : r.eval g (r.step x) = xorAt (List.iterate r.step (r.step x) v) g ^^^ g / 2 ^ v % 2 * r.step^[v + 1] x := by
    rw [eval, List.iterate_add, xorAt_append, List.length_iterate]
    simp [List.iterate, xorAt]
  rw [← eval_step, hlast, mulX, eval_xor, hshift, Nat.add_sub_cancel, hpower]
  congr 1
  exact xorAt_bit _ _ _

theorem eval_mulMod (hw : 0 < w) {x : Nat} (hx : x < 2 ^ w) (g h : Nat) :
    r.eval (mulMod w r.poly g h) x = r.eval g (r.eval h x) := by
  have hmap : ∀ n h, (List.iterate (mulX w r.poly) h n).map (r.eval · x) = List.iterate r.step (r.eval h x) n := by
    intro n
    induction n with
    | zero => exact fun _ => rfl
    | succ n ih =>
      intro h
      rw [List.iterate, List.map_cons, ih, r.eval_mulX hw hx]
      rfl
  rw [mulMod, ← xorAt_map (f := (r.eval · x)) (fun g h => r.eval_xor g h x), hmap]
  rfl

theorem eval_powMod (hw : 0 < w) {k n : Nat} (hn : n < 2 ^ k) {g m : Nat} (hg : ∀ x < 2 ^ w, r.eval g x = r.step^[m] x)
    {x : Nat} (hx : x < 2 ^ w) : r.eval (powMod w r.poly k g n) x = r.step^[m * n] x := by
  induction k generalizing g m n x with
  | zero =>
    obtain rfl : n = 0 := by simpa using hn
    exact r.eval_one hw x
  | succ k ih =>
    have hlt : ∀ n x, x < 2 ^ w → r.step^[n] x < 2 ^ w := by
      intro n x hx
      cases n with
      | zero => exact hx
      | succ n =>
        rw [iterate_succ_apply']
        exact r.step_lt _
    have hsq : ∀ x < 2 ^ w, r.eval (mulMod w r.poly g g) x = r.step^[2 * m] x := by
      intro x hx
      rw [r.eval_mulMod hw hx, hg x hx, hg _ (hlt m x hx), ← iterate_add_apply, Nat.two_mul]
    have hhalf : ∀ {x : Nat}, x < 2 ^ w → r.eval (powMod w r.poly k (mulMod w r.poly g g) (n / 2)) x =
        r.step^[m * (2 * (n / 2))] x := by
      intro x hx
      rw [ih (by rw [Nat.pow_succ] at hn; omega) hsq hx, Nat.mul_left_comm, Nat.mul_assoc]
    unfold powMod
    dsimp only
    split
    · next hodd =>
      rw [r.eval_mulMod hw hx, hg x hx, hhalf (hlt m x hx), ← iterate_add_apply, ← Nat.mul_succ]
      congr 2
      omega
    · next heven =>
      rw [hhalf hx]
      congr 3
      omega

/-! ## The period -/

theorem minimalPeriod_eq (hw : 1 < w) {N : Nat} (hlt : N < 2 ^ w) (hN : powMod w r.poly w 2 N = 1)
    (hprime : ∀ p, p.Prime → p ∣ N → ∃ d, mulMod w r.poly d (powMod w r.poly w 2 (N / p) ^^^ 1) = 1) {x : Nat}
    (hx : x < 2 ^ w) (hx0 : x ≠ 0) : minimalPeriod r.step x = N := by
  have hw0 : 0 < w := Nat.zero_lt_of_lt hw
  have hpow : ∀ n < 2 ^ w, r.eval (powMod w r.poly w 2 n) x = r.step^[n] x := by
    intro n hn
    rw [r.eval_powMod (m := 1) hw0 hn (fun x _ => r.eval_X hw x) hx, Nat.one_mul]
  have hperiod : r.step^[N] x = x := by
    rw [← hpow N hlt, hN, r.eval_one hw0]
  obtain ⟨m, hm⟩ : minimalPeriod r.step x ∣ N := IsPeriodicPt.minimalPeriod_dvd hperiod
  by_contra hne
  have hm1 : m ≠ 1 := fun h => hne (by rw [hm, h, Nat.mul_one])
  obtain ⟨p, hp, k, rfl⟩ := Nat.exists_prime_and_dvd hm1
  have hdiv : N / p = minimalPeriod r.step x * k := by
    rw [hm, Nat.mul_left_comm, Nat.mul_div_cancel_left _ hp.pos]
  have hfix : r.step^[N / p] x = x := by
    rw [hdiv]
    exact (isPeriodicPt_minimalPeriod r.step x).mul_const k
  obtain ⟨d, hd⟩ := hprime p hp ⟨minimalPeriod r.step x * k, by rw [hm, Nat.mul_left_comm]⟩
  -- the inverse takes `x` to itself, and the word it is applied to is zero
  refine hx0 ?_
  rw [← r.eval_one hw0 x, ← hd, r.eval_mulMod hw0 hx, eval_xor, hpow _ ((Nat.div_le_self N p).trans_lt hlt), hfix,
    r.eval_one hw0, Nat.xor_self, eval_word_zero]

end ShiftRegister

theorem iterate_eq_iff_modEq {α : Type} {f : α → α} {x : α} {m n : Nat} (hpos : 0 < minimalPeriod f x) :
    f^[m] x = f^[n] x ↔ m ≡ n [MOD minimalPeriod f x] := by
  rw [← iterate_mod_minimalPeriod_eq, ← iterate_mod_minimalPeriod_eq (n := n)]
  exact iterate_eq_iterate_iff_of_lt_minimalPeriod (Nat.mod_lt m hpos) (Nat.mod_lt n hpos)

end Vek280Miner
