import Mathlib.Data.Nat.Digits.Lemmas
import Mathlib.Data.Rat.Floor
import Mathlib.Tactic.FieldSimp
import Mathlib.Tactic.Linarith
import Mathlib.Tactic.Ring

/-!
# Long division

Numbers as rows of digits, the first digit most significant (`digitsNat`), and the division of a row by a number from
its first digit on, with the remainder that is carried (`longDiv`). The row of quotients is the quotient
(`digitsNat_longDiv`), and its digits are digits again (`longDiv_lt`). `div_le_div_iff_sub_le` compares a quotient that
is rounded down with the quotient by a larger number.
-/

namespace Vek280Miner

/-! ## Rows of digits -/

/-- The number of a row of digits to the base `b`. -/
def digitsNat (b : Nat) (l : List Nat) : Nat := Nat.ofDigits b l.reverse

theorem digitsNat_append (b : Nat) (l l' : List Nat) :
    digitsNat b (l ++ l') = digitsNat b l * b ^ l'.length + digitsNat b l' := by
  rw [digitsNat, List.reverse_append, Nat.ofDigits_append, List.length_reverse, Nat.add_comm, Nat.mul_comm]
  rfl

theorem digitsNat_cons (b x : Nat) (l : List Nat) : digitsNat b (x :: l) = x * b ^ l.length + digitsNat b l := by
  rw [← List.singleton_append, digitsNat_append, digitsNat, List.reverse_singleton, Nat.ofDigits_singleton]

/-! ## Division -/

/-- The quotients of a row by `d`, with the remainder of what stands in front of it. -/
def longDiv (b d : Nat) : Nat → List Nat → List Nat
  | _, [] => []
  | r, x :: l => (r * b + x) / d :: longDiv b d ((r * b + x) % d) l

@[simp] theorem length_longDiv (b d r : Nat) (l : List Nat) : (longDiv b d r l).length = l.length := by
  induction l generalizing r with
  | nil => rfl
  | cons x l ih => rw [longDiv, List.length_cons, ih, List.length_cons]

/-- The row of quotients is the quotient. -/
theorem digitsNat_longDiv (b : Nat) {d : Nat} : ∀ {r : Nat} (l : List Nat), r < d →
    digitsNat b (longDiv b d r l) = (r * b ^ l.length + digitsNat b l) / d
  | r, [], hr => by simp [longDiv, digitsNat, Nat.div_eq_of_lt hr]
  | r, x :: l, hr => by
    have hd : 0 < d := by omega
    have hsplit : r * b ^ (x :: l).length + digitsNat b (x :: l) =
        ((r * b + x) % d * b ^ l.length + digitsNat b l) + d * ((r * b + x) / d * b ^ l.length) := by
      have hdm := Nat.div_add_mod (r * b + x) d
      rw [List.length_cons, digitsNat_cons, pow_succ]
      calc r * (b ^ l.length * b) + (x * b ^ l.length + digitsNat b l)
          = (r * b + x) * b ^ l.length + digitsNat b l := by ring
        _ = (d * ((r * b + x) / d) + (r * b + x) % d) * b ^ l.length + digitsNat b l := by rw [hdm]
        _ = _ := by ring
    rw [longDiv, digitsNat_cons, length_longDiv, digitsNat_longDiv b l (Nat.mod_lt _ hd), hsplit,
      Nat.add_mul_div_left _ _ hd, Nat.add_comm]

/-- Quotients are digits. -/
theorem longDiv_lt {b d : Nat} : ∀ {r : Nat} {l : List Nat}, r < d → (∀ x ∈ l, x < b) → ∀ q ∈ longDiv b d r l, q < b
  | _, [], _, _, q, hq => by cases hq
  | r, x :: l, hr, hl, q, hq => by
    have hd : 0 < d := by omega
    have hx := hl x List.mem_cons_self
    rcases List.mem_cons.1 hq with rfl | hq
    · rw [Nat.div_lt_iff_lt_mul hd]
      calc r * b + x < r * b + b := by omega
        _ = (r + 1) * b := by ring
        _ ≤ d * b := Nat.mul_le_mul_right b hr
        _ = b * d := Nat.mul_comm _ _
    · exact longDiv_lt (Nat.mod_lt _ hd) (fun y hy => hl y (List.mem_cons_of_mem x hy)) q hq

/-! ## Rounding -/

/-- A quotient that is rounded down is at most the quotient by a larger number `D` exactly when `D` exceeds the divisor
by no more than the remainder makes up for. -/
theorem div_le_div_iff_sub_le {n d : Nat} {D : ℚ} (hD : 0 < D) (hq : 0 < n / d) :
    ((n / d : Nat) : ℚ) ≤ n / D ↔ D - d ≤ (n % d : Nat) / (n / d : Nat) := by
  have hq' : (0 : ℚ) < (n / d : Nat) := by exact_mod_cast hq
  have hn : (n : ℚ) = d * (n / d : Nat) + (n % d : Nat) := by exact_mod_cast (Nat.div_add_mod n d).symm
  rw [le_div_iff₀ hD, le_div_iff₀ hq', hn]
  constructor <;> intro h <;> linarith

end Vek280Miner
