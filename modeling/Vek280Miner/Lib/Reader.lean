import Mathlib.Data.List.Basic

/-!
# Machines that read a list until they stop

`read i s` is what a machine puts out when it reads `i` in state `s`, and the state after it, or `none` when it stops.

* `loop read l s` reads a list; a list is read in parts (`loop_append_of_some`, `loop_append_of_none`).
* What every read keeps holds as long as the machine runs, and of all that it puts out (`loop_invariant`).
* `passed pass l p` is what a filter with states of its own lets through. A machine that is a filter before another one
  does what that one does on what is let through (`loop_passed`).
-/

namespace Vek280Miner.Reader

variable {ι κ ω σ τ π : Type} {read : ι → σ → List ω × Option σ}

/-- Reads a list until the machine stops. -/
def loop (read : ι → σ → List ω × Option σ) : List ι → σ → List ω × Option σ
  | [], s => ([], some s)
  | i :: rest, s =>
    match read i s with
    | (out, none) => (out, none)
    | (out, some s') => (out ++ (loop read rest s').1, (loop read rest s').2)

@[simp] theorem loop_nil (s : σ) : loop read [] s = ([], some s) := rfl

theorem loop_cons_of_none {i : ι} {s : σ} (h : (read i s).2 = none) (l : List ι) :
    loop read (i :: l) s = ((read i s).1, none) := by
  rw [loop]
  rcases hr : read i s with ⟨out, s'⟩
  rw [hr] at h
  cases h
  rfl

theorem loop_cons_of_some {i : ι} {s s' : σ} (h : (read i s).2 = some s') (l : List ι) :
    loop read (i :: l) s = ((read i s).1 ++ (loop read l s').1, (loop read l s').2) := by
  rw [loop]
  rcases hr : read i s with ⟨out, s''⟩
  rw [hr] at h
  cases h
  rfl

theorem loop_append_of_none {s : σ} :
    ∀ {l : List ι}, (loop read l s).2 = none → ∀ l', loop read (l ++ l') s = loop read l s := by
  intro l
  induction l generalizing s with
  | nil => exact fun h => by cases h
  | cons i l ih =>
    intro h l'
    cases hr : (read i s).2 with
    | none => rw [List.cons_append, loop_cons_of_none hr, loop_cons_of_none hr]
    | some s' =>
      rw [loop_cons_of_some hr] at h ⊢
      rw [List.cons_append, loop_cons_of_some hr, ih h]

/-- A list is read in parts. -/
theorem loop_append_of_some {s s' : σ} : ∀ {l : List ι}, (loop read l s).2 = some s' →
    ∀ l', loop read (l ++ l') s = ((loop read l s).1 ++ (loop read l' s').1, (loop read l' s').2) := by
  intro l
  induction l generalizing s with
  | nil =>
    intro h l'
    obtain rfl := Option.some.inj h
    rfl
  | cons i l ih =>
    intro h l'
    cases hr : (read i s).2 with
    | none =>
      rw [loop_cons_of_none hr] at h
      cases h
    | some s'' =>
      rw [loop_cons_of_some hr] at h ⊢
      rw [List.cons_append, loop_cons_of_some hr, ih h, List.append_assoc]

/-- What every read keeps holds of the state, and what every read puts out has the property that it has. -/
theorem loop_invariant {I : σ → Prop} {P : ω → Prop}
    (h : ∀ i s, I s → (∀ o ∈ (read i s).1, P o) ∧ ∀ s', (read i s).2 = some s' → I s') : ∀ (l : List ι) (s : σ), I s →
      (∀ o ∈ (loop read l s).1, P o) ∧ ∀ s', (loop read l s).2 = some s' → I s'
  | [], s, hs => ⟨fun o ho => absurd ho List.not_mem_nil, fun s' hs' => by rwa [← Option.some.inj hs']⟩
  | i :: l, s, hs => by
    obtain ⟨hout, hnext⟩ := h i s hs
    cases hr : (read i s).2 with
    | none =>
      rw [loop_cons_of_none hr]
      exact ⟨hout, fun s' hs' => by cases hs'⟩
    | some s' =>
      obtain ⟨hrest, hlast⟩ := loop_invariant h l s' (hnext s' hr)
      rw [loop_cons_of_some hr]
      exact ⟨fun o ho => (List.mem_append.1 ho).elim (hout o) (hrest o), hlast⟩

/-! ## Filters -/

/-- What a filter lets through, and its state after it. -/
def passed (pass : ι → π → Option κ × π) : List ι → π → List κ × π
  | [], p => ([], p)
  | i :: l, p => ((pass i p).1.toList ++ (passed pass l (pass i p).2).1, (passed pass l (pass i p).2).2)

theorem passed_append (pass : ι → π → Option κ × π) : ∀ (l l' : List ι) (p : π),
    passed pass (l ++ l') p = ((passed pass l p).1 ++ (passed pass l' (passed pass l p).2).1,
      (passed pass l' (passed pass l p).2).2)
  | [], _, _ => rfl
  | i :: l, l', p => by simp only [List.cons_append, passed, passed_append pass l l', List.append_assoc]

/-- The machine is the filter `pass` before the machine `read'`, but for what `keep` leaves out. -/
structure Filters (pass : ι → π → Option κ × π) (read : ι → σ → List ω × Option σ) (read' : κ → τ → List ω × Option τ)
    (proj : σ → π) (view : σ → τ) (keep : ω → Bool) : Prop where
  held : ∀ i s, (pass i (proj s)).1 = none → (read i s).1.filter keep = [] ∧
    ∃ s', (read i s).2 = some s' ∧ view s' = view s ∧ proj s' = (pass i (proj s)).2
  let_through : ∀ i s k, (pass i (proj s)).1 = some k → (read i s).1.filter keep = (read' k (view s)).1.filter keep ∧
    (read i s).2.map view = (read' k (view s)).2 ∧ ∀ s', (read i s).2 = some s' → proj s' = (pass i (proj s)).2

section Filters

variable {pass : ι → π → Option κ × π} {read' : κ → τ → List ω × Option τ} {proj : σ → π} {view : σ → τ}
  {keep : ω → Bool}

/-- A machine behind a filter does what it does on what is let through. -/
theorem loop_passed (h : Filters pass read read' proj view keep) : ∀ (l : List ι) (s : σ),
    (loop read l s).1.filter keep = (loop read' (passed pass l (proj s)).1 (view s)).1.filter keep ∧
      (loop read l s).2.map view = (loop read' (passed pass l (proj s)).1 (view s)).2 ∧
      ∀ s', (loop read l s).2 = some s' → proj s' = (passed pass l (proj s)).2
  | [], s => ⟨rfl, rfl, fun s' hs' => by rw [← Option.some.inj hs']; rfl⟩
  | i :: l, s => by
    cases hp : (pass i (proj s)).1 with
    | none =>
      obtain ⟨hout, s', hr, hview, hproj⟩ := h.held i s hp
      obtain ⟨ih1, ih2, ih3⟩ := loop_passed h l s'
      rw [loop_cons_of_some hr, passed, hp, List.filter_append, hout, ← hproj, ← hview]
      exact ⟨ih1, ih2, ih3⟩
    | some k =>
      obtain ⟨hout, hmap, hproj⟩ := h.let_through i s k hp
      rw [passed, hp, Option.toList_some, List.singleton_append]
      cases hr : (read i s).2 with
      | none =>
        rw [hr, Option.map_none] at hmap
        rw [loop_cons_of_none hr, loop_cons_of_none hmap.symm]
        exact ⟨hout, rfl, fun s' hs' => by cases hs'⟩
      | some s' =>
        rw [hr, Option.map_some] at hmap
        obtain ⟨ih1, ih2, ih3⟩ := loop_passed h l s'
        rw [hproj s' hr] at ih1 ih2 ih3
        rw [loop_cons_of_some hr, loop_cons_of_some hmap.symm, List.filter_append, List.filter_append, hout, ih1]
        exact ⟨rfl, ih2, ih3⟩

end Filters

end Vek280Miner.Reader
