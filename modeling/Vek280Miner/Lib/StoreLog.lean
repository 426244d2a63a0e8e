import Mathlib.Data.List.Basic
import Mathlib.Logic.Function.Basic

/-!
# Logs of stores

A log lists the stores into a memory one after the other, each with its value and its index. Where a memory is filled
from its beginning on, the stores of the next values extend what has been filled (`cells_store`).
-/

namespace Vek280Miner

variable {α : Type}

/-- The memory after the stores of a log. -/
def storeLog (mem : Nat → α) (log : List (α × Nat)) : Nat → α :=
  log.foldl (fun mem store => Function.update mem store.2 store.1) mem

/-- The first `n` cells. -/
def cells (mem : Nat → α) (n : Nat) : List α := (List.range n).map mem

theorem take_cells {mem : Nat → α} {n m : Nat} (h : n ≤ m) : (cells mem m).take n = cells mem n := by
  rw [cells, ← List.map_take, List.take_range, Nat.min_eq_left h, cells]

/-- A store behind the first `n` cells leaves them alone. -/
theorem cells_update {mem : Nat → α} {n i : Nat} (h : n ≤ i) (v : α) : cells (Function.update mem i v) n = cells mem n :=
  List.map_congr_left fun _ hj => Function.update_of_ne (Nat.ne_of_lt (Nat.lt_of_lt_of_le (List.mem_range.1 hj) h)) _ _

@[simp] theorem storeLog_nil (mem : Nat → α) : storeLog mem [] = mem := rfl

theorem storeLog_append (mem : Nat → α) (log log' : List (α × Nat)) :
    storeLog mem (log ++ log') = storeLog (storeLog mem log) log' := List.foldl_append

/-- Values that are stored behind the first `off` cells. -/
theorem cells_store (mem : Nat → α) (off : Nat) (values : List α) :
    cells (storeLog mem (values.zipIdx off)) (off + values.length) = cells mem off ++ values := by
  induction values generalizing mem off with
  | nil => simp
  | cons v values ih =>
    have hfirst : cells (Function.update mem off v) (off + 1) = cells mem off ++ [v] := by
      rw [cells, List.range_succ, List.map_append, List.map_singleton, Function.update_self]
      exact congrArg (· ++ [v]) (cells_update (Nat.le_refl off) v)
    have hrest := ih (Function.update mem off v) (off + 1)
    rw [hfirst, List.append_assoc, List.singleton_append] at hrest
    rw [List.zipIdx_cons, List.length_cons, show off + (values.length + 1) = off + 1 + values.length by omega]
    exact hrest

end Vek280Miner
