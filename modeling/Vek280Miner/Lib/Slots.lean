import Vek280Miner.Lib.Ring
import Mathlib.Algebra.Ring.Nat
import Mathlib.Data.Fintype.Basic
import Mathlib.Data.Multiset.Bind

/-!
# Parties on a ring

Several parties walk round one ring of `D` slots, each behind the next. They are told apart by how many slots they have
passed: the `k`-th slot of the walk is slot `slotOf D k` of the ring. `Window f P lo hi` says what the slots between two
parties hold; a write at a slot outside leaves it alone (`Window.outside`), one at the next slot makes it longer
(`Window.push`), and one inside changes what one slot holds (`Window.inside`).

`contents f` is what the slots hold together; a write exchanges one item for another (`contents_update`).
-/

namespace Vek280Miner

variable {α : Type} {D : Nat} [NeZero D]

/-- The slot of the ring that is the `k`-th of the walk. -/
def slotOf (D : Nat) [NeZero D] (k : Nat) : Fin D := Fin.ofNat D k

theorem val_slotOf (k : Nat) : (slotOf D k).val = k % D := rfl

theorem nextSlot_slotOf (k : Nat) : nextSlot (slotOf D k) = slotOf D (k + 1) := by
  apply Fin.ext
  rw [val_nextSlot, val_slotOf, val_slotOf, Nat.mod_add_mod]

/-- The walk comes back to a slot after `D` steps, ... -/
theorem slotOf_add (k : Nat) : slotOf D (k + D) = slotOf D k := by
  apply Fin.ext
  rw [val_slotOf, val_slotOf, Nat.add_mod_right]

/-- ... and not before. -/
theorem slotOf_inj {j k : Nat} (h : slotOf D j = slotOf D k) (hj : j ≤ k) (hk : k < j + D) : j = k := by
  have hmod : j % D = k % D := congrArg Fin.val h
  have h0 := Nat.sub_mod_eq_zero_of_mod_eq hmod.symm
  rw [Nat.mod_eq_of_lt (by omega)] at h0
  omega

theorem slotOf_ne {j k : Nat} (hj : j < k) (hk : k < j + D) : slotOf D j ≠ slotOf D k :=
  fun h => absurd (slotOf_inj h (Nat.le_of_lt hj) hk) (Nat.ne_of_lt hj)

/-! ## Windows -/

/-- What the slots from the `lo`-th up to the `hi`-th hold. -/
def Window (f : Fin D → α) (P : Nat → α → Prop) (lo hi : Nat) : Prop := ∀ k, lo ≤ k → k < hi → P k (f (slotOf D k))

namespace Window

variable {f : Fin D → α} {P Q : Nat → α → Prop} {lo hi j : Nat} {x : α}

theorem empty (f : Fin D → α) (P : Nat → α → Prop) (lo : Nat) : Window f P lo lo :=
  fun _ hlo hhi => absurd hhi (Nat.not_lt.2 hlo)

/-- A part of a window. -/
theorem sub {lo' hi' : Nat} (h : Window f P lo hi) (hlo : lo ≤ lo') (hhi : hi' ≤ hi) : Window f P lo' hi' :=
  fun k h1 h2 => h k (hlo.trans h1) (h2.trans_le hhi)

theorem imp (h : Window f P lo hi) (hPQ : ∀ k x, lo ≤ k → k < hi → P k x → Q k x) : Window f Q lo hi :=
  fun k h1 h2 => hPQ k _ h1 h2 (h k h1 h2)

theorem snoc (h : Window f P lo hi) (hx : P hi (f (slotOf D hi))) : Window f P lo (hi + 1) := by
  intro k h1 h2
  by_cases hk : k = hi
  · rw [hk]
    exact hx
  · exact h k h1 (by omega)

/-- A write behind the window, less than a round away. -/
theorem outside (h : Window f P lo hi) (hj : hi ≤ j) (hround : j < lo + D) :
    Window (Function.update f (slotOf D j) x) P lo hi := by
  intro k h1 h2
  rw [Function.update_of_ne (slotOf_ne (by omega) (by omega))]
  exact h k h1 h2

/-- A write in front of it. -/
theorem before (h : Window f P lo hi) (hj : j < lo) (hround : hi ≤ j + D) :
    Window (Function.update f (slotOf D j) x) P lo hi := by
  intro k h1 h2
  rw [Function.update_of_ne (slotOf_ne (by omega) (by omega)).symm]
  exact h k h1 h2

/-- A write at the next slot. -/
theorem push (h : Window f P lo hi) (hround : hi < lo + D) (hx : P hi x) :
    Window (Function.update f (slotOf D hi) x) P lo (hi + 1) := by
  refine (h.outside (Nat.le_refl hi) hround).snoc ?_
  rwa [Function.update_self]

/-- A write inside. -/
theorem inside (h : Window f P lo hi) (hround : hi ≤ lo + D) (hlo : lo ≤ j) (hhi : j < hi) (hx : Q j x)
    (hPQ : ∀ k x, k ≠ j → P k x → Q k x) : Window (Function.update f (slotOf D j) x) Q lo hi := by
  intro k h1 h2
  rcases lt_trichotomy k j with hk | rfl | hk
  · rw [Function.update_of_ne (slotOf_ne hk (by omega))]
    exact hPQ k _ (Nat.ne_of_lt hk) (h k h1 h2)
  · rw [Function.update_self]
    exact hx
  · rw [Function.update_of_ne (slotOf_ne hk (by omega)).symm]
    exact hPQ k _ (Nat.ne_of_gt hk) (h k h1 h2)

end Window

/-! ## Contents -/

omit [NeZero D]

/-- What is in the slots. -/
def contents (f : Fin D → α) : Multiset α := Finset.univ.val.map f

theorem contents_eq_coe (f : Fin D → α) : contents f = ↑(List.ofFn f) := Fin.univ_val_map f

theorem contents_eq_cons (f : Fin D → α) (i : Fin D) : contents f = f i ::ₘ (Finset.univ.erase i).val.map f := by
  rw [contents, ← Multiset.map_cons, Finset.erase_val, Multiset.cons_erase (Finset.mem_univ i)]

theorem mem_contents (f : Fin D → α) (i : Fin D) : f i ∈ contents f := Multiset.mem_map_of_mem f (Finset.mem_univ i)

/-- A write puts one item in and takes one out. -/
theorem contents_update (f : Fin D → α) (i : Fin D) (x : α) :
    contents (Function.update f i x) + {f i} = contents f + {x} := by
  have hrest : (Finset.univ.erase i).val.map (Function.update f i x) = (Finset.univ.erase i).val.map f := by
    refine Multiset.map_congr rfl fun j hj => ?_
    exact Function.update_of_ne (Finset.ne_of_mem_erase (Finset.mem_def.2 hj)) _ _
  rw [contents_eq_cons (Function.update f i x) i, contents_eq_cons f i, hrest, Function.update_self,
    Multiset.add_comm _ {f i}, Multiset.add_comm _ {x}, Multiset.singleton_add, Multiset.singleton_add,
    Multiset.cons_swap]

/-- Where no item is in two slots, the item names its slot. -/
theorem slot_of_nodup {f : Fin D → α} (h : (contents f).Nodup) {i j : Fin D} (hij : f i = f j) : i = j :=
  Multiset.inj_on_of_nodup_map h i (Finset.mem_univ i) j (Finset.mem_univ j) hij

end Vek280Miner
