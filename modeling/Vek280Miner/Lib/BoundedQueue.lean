import Vek280Miner.Lib.Events
import Vek280Miner.Lib.Ring

/-!
# Bounded queues

A queue of at most `D` entries that takes a push and a pop in one cycle, or is emptied. It refuses a push when it is
full and not popped in this cycle, and forgets it. A pop shows the oldest entry, in the cycle in which the queue is
emptied too.

Between two emptyings the entries that are popped and those still in the queue are the ones that were there and the
pushes that were not refused, in order (`popped_append`); over any run they are among them (`popped_sublist`). A ring
buffer is such a queue (`Ring.toList_update_eq`).
-/

namespace Vek280Miner

/-- What is asked of a queue in one cycle. -/
structure QueueIn (α : Type) where
  push : Option α
  pop : Bool
  clear : Bool

namespace BoundedQueue

variable {α : Type} {D : Nat}

/-- The queue is full and not popped. -/
def refuses (D : Nat) (i : QueueIn α) (q : List α) : Bool := decide (q.length = D) && !i.pop

/-- The entry that a push adds. -/
def pushed (D : Nat) (i : QueueIn α) (q : List α) : Option α := if refuses D i q then none else i.push

/-- The entry that a pop shows. -/
def popped (i : QueueIn α) (q : List α) : Option α := if i.pop then q.head? else none

/-- The queue after a cycle. -/
def step (D : Nat) (i : QueueIn α) (q : List α) : List α :=
  if i.clear then [] else (if i.pop then q.tail else q) ++ (pushed D i q).toList

theorem popped_append_tail (i : QueueIn α) (q : List α) : (popped i q).toList ++ (if i.pop then q.tail else q) = q := by
  unfold popped
  split
  · cases q <;> rfl
  · rfl

/-- The books of one cycle. -/
theorem step_balance {i : QueueIn α} {q : List α} (h : i.clear = false) :
    q ++ (pushed D i q).toList = (popped i q).toList ++ step D i q := by
  rw [step, h, if_neg Bool.false_ne_true, ← List.append_assoc, popped_append_tail]

theorem step_sublist (i : QueueIn α) (q : List α) :
    ((popped i q).toList ++ step D i q).Sublist (q ++ i.push.toList) := by
  cases h : i.clear with
  | true =>
    have hpop : (popped i q).toList.Sublist q := by
      have hsub := List.sublist_append_left (popped i q).toList (if i.pop then q.tail else q)
      rwa [popped_append_tail] at hsub
    rw [step, h, if_pos rfl, List.append_nil]
    exact hpop.trans (List.sublist_append_left _ _)
  | false =>
    rw [← step_balance h]
    refine List.Sublist.append (List.Sublist.refl q) ?_
    unfold pushed
    split
    · exact List.nil_sublist _
    · exact List.Sublist.refl _

/-- Without emptying, what is popped and what is in the queue is what was there and what was pushed, in order. -/
theorem popped_append {inp : Nat → QueueIn α} {q : List α} {n : Nat} (h : ∀ t < n, (inp t).clear = false) :
    Clocked.events (step D) popped inp q n ++ Clocked.run (step D) inp q n =
      q ++ Clocked.events (step D) (pushed D) inp q n :=
  (@Clocked.events_conserved_of_lt _ _ _ _ inp q _ _ id n fun t ht => step_balance (h t ht)).symm

/-- What is popped, and what is in the queue then, was there or was to be pushed, in this order. -/
theorem popped_sublist (inp : Nat → QueueIn α) (q : List α) (n : Nat) :
    (Clocked.events (step D) popped inp q n ++ Clocked.run (step D) inp q n).Sublist
      (q ++ Clocked.events (step D) (fun i _ => i.push) inp q n) :=
  @Clocked.events_sublist _ _ _ _ inp q _ _ id (fun t => step_sublist (inp t) _) n

end BoundedQueue

/-! ## Ring buffers -/

namespace Ring

variable {α : Type} {D : Nat} (r : Ring α D) (i : QueueIn α)

theorem popped_toList : BoundedQueue.popped i r.toList = if r.doPop i.pop then some r.head else none := by
  unfold BoundedQueue.popped doPop
  by_cases hc : r.count = 0
  · simp [hc, (toList_eq_nil_iff r).2 hc]
  · simp [hc, r.head_eq hc]

theorem doPush_eq : r.doPush i.push i.pop = (i.push.isSome && !BoundedQueue.refuses D i r.toList) := by
  have hle := r.count_le
  have hD : 0 < D := Nat.zero_lt_of_lt r.rdPtr.isLt
  have hroom : (decide (r.count < D) || r.doPop i.pop) = !BoundedQueue.refuses D i r.toList := by
    rw [BoundedQueue.refuses, length_toList, doPop, Bool.eq_iff_iff]
    cases i.pop <;> simp <;> omega
  rw [doPush, hroom]

/-- A step of the ring is a cycle of the queue. -/
theorem toList_update_eq (h : i.clear = false) :
    (r.update i.push i.pop).toList = BoundedQueue.step D i r.toList := by
  rw [toList_update, BoundedQueue.step, h, if_neg Bool.false_ne_true, doPush_eq]
  congr 1
  · unfold doPop
    by_cases hc : r.count = 0
    · simp [hc, (toList_eq_nil_iff r).2 hc]
    · simp [hc]
  · unfold BoundedQueue.pushed
    cases i.push <;> cases BoundedQueue.refuses D i r.toList <;> rfl

end Ring

end Vek280Miner
