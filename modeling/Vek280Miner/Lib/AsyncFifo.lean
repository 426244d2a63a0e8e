import Mathlib.Data.List.Basic

/-!
# A queue between two clocks

`AsyncFifo α σ` is a first-in-first-out queue with a port on each of two clocks, by what is promised of it: nothing is
lost, nothing is repeated, and the order is kept. How long its flags lag behind the contents, and when it is in reset,
is left open; the state may hold whatever decides that.

The word that a write brings in and the one that a read takes out are `pushed` and `popped`; between them and the
contents the balance is kept at every instant (`contents_balance`). `Prompt` says of a run that the flags do not lag for
ever.
-/

namespace Vek280Miner

/-- A queue between two clocks. At one instant `edge w r` the write clock has an edge if `w` is there, with the enable
and the word on the port, and the read clock if `r` is, with its enable; the word in front is on the read port before it
is read. -/
structure AsyncFifo (α σ : Type) where
  full : σ → Bool
  wrRstBusy : σ → Bool
  empty : σ → Bool
  rdRstBusy : σ → Bool
  dout : σ → α
  edge : Option (Bool × α) → Option Bool → σ → σ
  reset : σ
  contents : σ → List α
  contents_reset : contents reset = []
  /-- The word in front, if there is one, is on the port. -/
  contents_dout : ∀ s, empty s = false → contents s = dout s :: (contents s).tail
  /-- A read takes the word in front unless the queue is empty, and a write adds one unless it is full or in reset. -/
  contents_edge : ∀ w r s, contents (edge w r s) =
    (if r = some true ∧ empty s = false then (contents s).tail else contents s) ++
      (if full s || wrRstBusy s then [] else (w.filter Prod.fst).toList.map Prod.snd)

namespace AsyncFifo

variable {α σ : Type} (F : AsyncFifo α σ)

/-- The word that a write adds. -/
def pushed (w : Option (Bool × α)) (s : σ) : Option α :=
  if F.full s || F.wrRstBusy s then none else (w.filter Prod.fst).map Prod.snd

/-- The word that a read takes. -/
def popped (r : Option Bool) (s : σ) : Option α := if r = some true ∧ F.empty s = false then some (F.dout s) else none

/-- What is in the queue and what comes in is what goes out and what is in the queue then. -/
theorem contents_balance (w : Option (Bool × α)) (r : Option Bool) (s : σ) :
    F.contents s ++ (F.pushed w s).toList = (F.popped r s).toList ++ F.contents (F.edge w r s) := by
  have hpush : (F.pushed w s).toList =
      if F.full s || F.wrRstBusy s then [] else (w.filter Prod.fst).toList.map Prod.snd := by
    rw [pushed]
    split
    · rfl
    · cases w.filter Prod.fst <;> rfl
  rw [F.contents_edge, ← hpush, ← List.append_assoc, popped]
  congr 1
  split
  · rename_i h
    exact F.contents_dout s h.2
  · rfl

/-- An empty queue can be written at some later edge of the write clock, and what is in the queue can be read at some
later edge of the read clock. -/
structure Prompt (wrClk rdClk : Nat → Bool) (s : Nat → σ) : Prop where
  writable : ∀ n, F.contents (s n) = [] → ∃ u ≥ n, wrClk u = true ∧ F.full (s u) = false ∧ F.wrRstBusy (s u) = false
  readable : ∀ n, F.contents (s n) ≠ [] → ∃ u ≥ n, rdClk u = true ∧ F.empty (s u) = false ∧ F.rdRstBusy (s u) = false

/-- The flag of an empty queue is up. -/
theorem empty_of_contents {s : σ} (h : F.contents s = []) : F.empty s = true := by
  by_contra he
  have hdout := F.contents_dout s (eq_false_of_ne_true he)
  rw [h] at hdout
  cases hdout

/-- A queue whose flags do not lag. -/
def queue [Inhabited α] (depth : Nat) : AsyncFifo α (List α) where
  full s := depth ≤ s.length
  wrRstBusy _ := false
  empty s := s.isEmpty
  rdRstBusy _ := false
  dout s := s.headD default
  edge w r s := (if r = some true ∧ s.isEmpty = false then s.tail else s) ++
    if depth ≤ s.length then [] else (w.filter Prod.fst).toList.map Prod.snd
  reset := []
  contents s := s
  contents_reset := rfl
  contents_dout s h := by
    cases s with
    | nil => cases h
    | cons x s => rfl
  contents_edge _ _ _ := by simp only [Bool.or_false, decide_eq_true_eq]

theorem queue_prompt [Inhabited α] {depth : Nat} (hd : 0 < depth) (s : Nat → List α) :
    (queue depth : AsyncFifo α (List α)).Prompt (fun _ => true) (fun _ => true) s := by
  refine ⟨fun n hn => ⟨n, Nat.le_refl n, rfl, ?_, rfl⟩, fun n hn => ⟨n, Nat.le_refl n, rfl, ?_, rfl⟩⟩
  · have hs : s n = [] := hn
    simp [queue, hs, Nat.pos_iff_ne_zero.1 hd]
  · exact List.isEmpty_eq_false_iff.2 hn

end AsyncFifo

end Vek280Miner
