import Mathlib.Algebra.BigOperators.Group.Finset.Basic
import Mathlib.Algebra.Order.Group.Multiset
import Vek280Miner.Lib.Events

/-!
# Balances of clocked machines

What a machine holds is counted by a function `stock` into a commutative monoid, and each edge has a gain and a loss. If
the books balance at every edge of a run, they balance over the run. What a machine puts out is counted in the same way
(`coe_events`).
-/

namespace Vek280Miner.Clocked

variable {ι σ M : Type} [AddCommMonoid M] {step : ι → σ → σ}

/-- What was there and what came in is what is there and what went out. -/
theorem run_balance (stock : σ → M) (gain loss : ι → σ → M) {inp : Nat → ι} {s : σ} {n : Nat}
    (h : ∀ t < n, stock (run step inp s (t + 1)) + loss (inp t) (run step inp s t) =
      stock (run step inp s t) + gain (inp t) (run step inp s t)) :
    ∀ t ≤ n, stock s + ∑ u ∈ Finset.range t, gain (inp u) (run step inp s u) =
      stock (run step inp s t) + ∑ u ∈ Finset.range t, loss (inp u) (run step inp s u)
  | 0, _ => by simp
  | t + 1, ht => by
    have ih := run_balance stock gain loss h t (by omega)
    rw [Finset.sum_range_succ, Finset.sum_range_succ, ← add_assoc, ih]
    have hstep := h t ht
    calc stock (run step inp s t) + ∑ u ∈ Finset.range t, loss (inp u) (run step inp s u) + gain (inp t) (run step inp s t)
        = stock (run step inp s t) + gain (inp t) (run step inp s t) +
            ∑ u ∈ Finset.range t, loss (inp u) (run step inp s u) := add_right_comm _ _ _
      _ = stock (run step inp s (t + 1)) + loss (inp t) (run step inp s t) +
            ∑ u ∈ Finset.range t, loss (inp u) (run step inp s u) := by rw [hstep]
      _ = stock (run step inp s (t + 1)) +
            (∑ u ∈ Finset.range t, loss (inp u) (run step inp s u) + loss (inp t) (run step inp s t)) := by
          rw [add_assoc, add_comm (loss _ _)]

/-- The events of a run, counted edge by edge. -/
theorem coe_events {β : Type} (out : ι → σ → Option β) (inp : Nat → ι) (s : σ) : ∀ n, (events step out inp s n : Multiset β) =
    ∑ t ∈ Finset.range n, ((out (inp t) (run step inp s t)).toList : Multiset β)
  | 0 => rfl
  | n + 1 => by rw [Finset.sum_range_succ, ← coe_events out inp s n, events_succ, Multiset.coe_add]

end Vek280Miner.Clocked
