import Mathlib.Data.List.Range
import Mathlib.Logic.Function.Basic

/-!
# Ring buffers

A ring of `D` slots with a read pointer, a write pointer and a count that agree by construction. `update` pushes and
pops in one step, the way a synchronous FIFO does; `toList` is the queue it holds and `toList_update` says what a step
does to it.
-/

namespace Vek280Miner

variable {α β : Type} {D : Nat}

/-- The slot after `p`, the first one after the last. -/
def nextSlot (p : Fin D) : Fin D :=
  if h : p.val + 1 < D then ⟨p.val + 1, h⟩ else ⟨0, Nat.zero_lt_of_lt p.isLt⟩

theorem val_nextSlot (p : Fin D) : (nextSlot p).val = (p.val + 1) % D := by
  unfold nextSlot
  split
  · rw [Nat.mod_eq_of_lt ‹_›]
  · have := p.isLt
    rw [show p.val + 1 = D by omega, Nat.mod_self]

/-- A ring buffer; the pointers and the count agree. -/
@[ext] structure Ring (α : Type) (D : Nat) where
  mem : Fin D → α
  rdPtr : Fin D
  wrPtr : Fin D
  count : Nat
  count_le : count ≤ D
  wr_eq : wrPtr.val = (rdPtr.val + count) % D

namespace Ring

/-- The slot of the `i`-th entry. -/
def slot (r : Ring α D) (i : Nat) : Fin D := ⟨(r.rdPtr.val + i) % D, Nat.mod_lt _ (Nat.zero_lt_of_lt r.rdPtr.isLt)⟩

/-- The queue in the ring, oldest entry first. -/
def toList (r : Ring α D) : List α := (List.range r.count).map fun i => r.mem (r.slot i)

/-- The entry at the read pointer; only meaningful when the ring is not empty. -/
def head (r : Ring α D) : α := r.mem r.rdPtr

@[simp] theorem length_toList (r : Ring α D) : r.toList.length = r.count := by simp [toList]

theorem toList_eq_nil_iff (r : Ring α D) : r.toList = [] ↔ r.count = 0 := by
  rw [← List.length_eq_zero_iff, length_toList]

/-- The ring with no entries; the memory keeps its contents. -/
def clear (r : Ring α D) : Ring α D :=
  { r with
    rdPtr := ⟨0, Nat.zero_lt_of_lt r.rdPtr.isLt⟩, wrPtr := ⟨0, Nat.zero_lt_of_lt r.rdPtr.isLt⟩, count := 0
    count_le := Nat.zero_le _, wr_eq := (Nat.zero_mod _).symm }

@[simp] theorem toList_clear (r : Ring α D) : r.clear.toList = [] := rfl

/-- A pop takes effect. -/
def doPop (r : Ring α D) (pop : Bool) : Bool := pop && r.count != 0

/-- A push takes effect. -/
def doPush (r : Ring α D) (push : Option α) (pop : Bool) : Bool :=
  push.isSome && (decide (r.count < D) || r.doPop pop)

/-- One step with an optional push and an optional pop. -/
def update (r : Ring α D) (push : Option α) (pop : Bool) : Ring α D where
  mem := match push with
    | some x => if r.doPush push pop then Function.update r.mem r.wrPtr x else r.mem
    | none => r.mem
  wrPtr := if r.doPush push pop then nextSlot r.wrPtr else r.wrPtr
  rdPtr := if r.doPop pop then nextSlot r.rdPtr else r.rdPtr
  count :=
    if r.doPush push pop && !r.doPop pop then r.count + 1
    else if !r.doPush push pop && r.doPop pop then r.count - 1
    else r.count
  count_le := by
    have hc := r.count_le
    cases hp : r.doPop pop <;> cases hq : r.doPush push pop <;> simp <;> try omega
    simp only [doPush, hp, Bool.or_false, Bool.and_eq_true, decide_eq_true_eq] at hq
    omega
  wr_eq := by
    have hw := r.wr_eq
    have hpos : r.doPop pop = true → r.count ≠ 0 := by
      intro h
      simp only [doPop, Bool.and_eq_true, bne_iff_ne] at h
      exact h.2
    cases hp : r.doPop pop <;> cases hq : r.doPush push pop <;> simp [val_nextSlot, hw, Nat.add_assoc]
    · have := hpos hp
      rw [show 1 + (r.count - 1) = r.count by omega]
    · rw [Nat.add_comm 1]

theorem slot_ne (r : Ring α D) {i k : Nat} (h : i < k) (hk : k < D + i) : r.slot i ≠ r.slot k := by
  intro he
  have hmod : (r.rdPtr.val + i) % D = (r.rdPtr.val + k) % D := congrArg Fin.val he
  have h0 := Nat.sub_mod_eq_zero_of_mod_eq hmod.symm
  rw [Nat.add_sub_add_left, Nat.mod_eq_of_lt (by omega)] at h0
  omega

theorem wrPtr_eq (r : Ring α D) : r.wrPtr = r.slot r.count := Fin.ext r.wr_eq

theorem slot_update (r : Ring α D) (push : Option α) (pop : Bool) (i : Nat) :
    (r.update push pop).slot i = if r.doPop pop then r.slot (i + 1) else r.slot i := by
  apply Fin.ext
  cases hp : r.doPop pop with
  | false => simp [slot, update, hp]
  | true =>
    simp only [slot, update, hp, if_true, val_nextSlot, Nat.mod_add_mod]
    congr 1
    omega

/-- The queue without its oldest entry. -/
theorem tail_toList (r : Ring α D) : r.toList.tail = (List.range (r.count - 1)).map fun i => r.mem (r.slot (i + 1)) := by
  cases hc : r.count with
  | zero => simp [toList, hc]
  | succ n =>
    rw [toList, hc, List.range_succ_eq_map]
    simp [Function.comp_def]

/-- Writing at the write pointer leaves the entries alone. -/
theorem update_mem_slot (r : Ring α D) (x : α) {i : Nat} (h : i < r.count) (hD : r.count < D + i) :
    Function.update r.mem r.wrPtr x (r.slot i) = r.mem (r.slot i) := by
  rw [wrPtr_eq]
  exact Function.update_of_ne (r.slot_ne h hD) _ _

/-- A step without a push. -/
theorem toList_update_pop (r : Ring α D) {push : Option α} {pop : Bool} (hq : r.doPush push pop = false) :
    (r.update push pop).toList = if r.doPop pop then r.toList.tail else r.toList := by
  have hm : (r.update push pop).mem = r.mem := by cases push <;> simp [update, hq]
  rw [toList, hm]
  simp only [slot_update]
  cases hp : r.doPop pop with
  | false => simp [update, hp, hq, toList]
  | true => simp [update, hp, hq, tail_toList]

/-- A step with a push. -/
theorem toList_update_push (r : Ring α D) {x : α} {pop : Bool} (hq : r.doPush (some x) pop = true) :
    (r.update (some x) pop).toList = (if r.doPop pop then r.toList.tail else r.toList) ++ [x] := by
  have hle := r.count_le
  have hm : (r.update (some x) pop).mem = Function.update r.mem r.wrPtr x := by simp [update, hq]
  have hlast : Function.update r.mem r.wrPtr x (r.slot r.count) = x := by rw [wrPtr_eq, Function.update_self]
  rw [toList, hm]
  simp only [slot_update]
  cases hp : r.doPop pop with
  | false =>
    have hlt : r.count < D := by simpa [doPush, hp] using hq
    have hrest : ∀ i ∈ List.range r.count, Function.update r.mem r.wrPtr x (r.slot i) = r.mem (r.slot i) := by
      intro i hi
      exact r.update_mem_slot x (List.mem_range.1 hi) (by omega)
    have hc : (r.update (some x) pop).count = r.count + 1 := by simp [update, hp, hq]
    simp only [hc, Bool.false_eq_true, if_false]
    rw [List.range_succ, List.map_append, List.map_congr_left hrest]
    simp [hlast, toList]
  | true =>
    have hpos : r.count ≠ 0 := by
      simp only [doPop, Bool.and_eq_true, bne_iff_ne] at hp
      exact hp.2
    obtain ⟨n, hn⟩ := Nat.exists_eq_succ_of_ne_zero hpos
    have hrest : ∀ i ∈ List.range n, Function.update r.mem r.wrPtr x (r.slot (i + 1)) = r.mem (r.slot (i + 1)) := by
      intro i hi
      have := List.mem_range.1 hi
      exact r.update_mem_slot x (by omega) (by omega)
    have hc : (r.update (some x) pop).count = n + 1 := by simp [update, hp, hq, hn]
    rw [hn] at hlast
    simp only [hc, if_true]
    rw [List.range_succ, List.map_append, List.map_congr_left hrest, tail_toList, hn]
    simp [hlast]

/-- **One step of the queue.** A pop drops the oldest entry, a push appends the new one. -/
theorem toList_update (r : Ring α D) (push : Option α) (pop : Bool) :
    (r.update push pop).toList =
      (if r.doPop pop then r.toList.tail else r.toList) ++ (if r.doPush push pop then push.toList else []) := by
  cases hq : r.doPush push pop with
  | false => simp [toList_update_pop r hq]
  | true =>
    cases push with
    | none => simp [doPush] at hq
    | some x => simp [toList_update_push r hq]

/-- The ring with a function applied to what it holds. -/
def map (f : α → β) (r : Ring α D) : Ring β D := ⟨f ∘ r.mem, r.rdPtr, r.wrPtr, r.count, r.count_le, r.wr_eq⟩

theorem map_update (f : α → β) (r : Ring α D) (push : Option α) (pop : Bool) :
    (r.update push pop).map f = (r.map f).update (push.map f) pop := by
  cases push with
  | none => rfl
  | some x =>
    refine Ring.ext ?_ rfl rfl rfl
    show f ∘ (if r.doPush (some x) pop then Function.update r.mem r.wrPtr x else r.mem) =
      if r.doPush (some x) pop then Function.update (f ∘ r.mem) r.wrPtr (f x) else f ∘ r.mem
    split
    · exact Function.comp_update f r.mem r.wrPtr x
    · rfl

/-- What a ring holds after a step it held before or is pushed. -/
theorem mem_toList_update {r : Ring α D} {push : Option α} {pop : Bool} {x : α} (h : x ∈ (r.update push pop).toList) :
    x ∈ r.toList ∨ push = some x := by
  rw [toList_update] at h
  rcases List.mem_append.1 h with h | h
  · refine .inl ?_
    split at h
    · exact List.mem_of_mem_tail h
    · exact h
  · split at h
    · exact .inr (by simpa using h)
    · simp at h

/-- The entry that a pop takes. -/
theorem head_eq (r : Ring α D) (h : r.count ≠ 0) : r.toList.head? = some r.head := by
  obtain ⟨n, hn⟩ := Nat.exists_eq_succ_of_ne_zero h
  have h0 : r.slot 0 = r.rdPtr := Fin.ext (Nat.mod_eq_of_lt r.rdPtr.isLt)
  rw [toList, hn, List.range_succ_eq_map]
  simp [h0, head]

end Ring

end Vek280Miner
