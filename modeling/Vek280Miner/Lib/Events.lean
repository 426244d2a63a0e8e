import Vek280Miner.Lib.Clocked

/-!
# What a clocked machine puts out

`events step out inp s n` lists what `out` observes at the first `n` edges of a run, in order. Two such lists are
related edge by edge:

* one is the image of the other, at the same edge (`events_map`) or one edge later (`events_delayed`);
* what goes in comes out in order, but for what the state still holds (`events_conserved`, `length_events`); or what
  comes out went in before, in this order (`events_sublist`), as with a mailbox that is overwritten (`events_mailbox`).
-/

namespace Vek280Miner.Clocked

variable {ι σ β γ : Type} {step : ι → σ → σ}

/-- What `out` observes at the first `n` edges. -/
def events (step : ι → σ → σ) (out : ι → σ → Option β) (inp : Nat → ι) (s : σ) : Nat → List β
  | 0 => []
  | n + 1 => events step out inp s n ++ (out (inp n) (run step inp s n)).toList

@[simp] theorem events_zero (out : ι → σ → Option β) (inp : Nat → ι) (s : σ) : events step out inp s 0 = [] := rfl

theorem events_succ (out : ι → σ → Option β) (inp : Nat → ι) (s : σ) (n : Nat) :
    events step out inp s (n + 1) = events step out inp s n ++ (out (inp n) (run step inp s n)).toList := rfl

variable {inp : Nat → ι} {s : σ}

theorem events_map {out : ι → σ → Option β} {out' : ι → σ → Option γ} {f : β → γ}
    (h : ∀ t, out' (inp t) (run step inp s t) = (out (inp t) (run step inp s t)).map f) :
    ∀ n, events step out' inp s n = (events step out inp s n).map f
  | 0 => rfl
  | n + 1 => by
    rw [events_succ, events_succ, List.map_append, events_map h n, h n]
    cases out (inp n) (run step inp s n) <;> rfl

/-- Every event is followed by its image at the next edge, and there are no others. -/
theorem events_delayed {out : ι → σ → Option β} {out' : ι → σ → Option γ} {f : β → γ} (h0 : out' (inp 0) s = none)
    (h : ∀ t, out' (inp (t + 1)) (run step inp s (t + 1)) = (out (inp t) (run step inp s t)).map f) :
    ∀ n, events step out' inp s (n + 1) = (events step out inp s n).map f
  | 0 => by
    rw [events_succ, run_zero, h0]
    rfl
  | n + 1 => by
    rw [events_succ, events_delayed h0 h n, h n, events_succ, List.map_append]
    cases out (inp n) (run step inp s n) <;> rfl

/-- Two runs put out the same as long as they do so at every edge. -/
theorem events_congr {κ τ : Type} {step' : κ → τ → τ} {out : ι → σ → Option β} {out' : κ → τ → Option β} {inp' : Nat → κ}
    {s' : τ} : ∀ {n : Nat}, (∀ t < n, out (inp t) (run step inp s t) = out' (inp' t) (run step' inp' s' t)) →
      events step out inp s n = events step' out' inp' s' n
  | 0, _ => rfl
  | n + 1, h => by
    rw [events_succ, events_succ, events_congr fun t ht => h t (by omega), h n (by omega)]

/-- What goes in at the first edges comes out in order, but for what the state holds before and after them. -/
theorem events_conserved_of_lt {ins outs : ι → σ → Option β} {held : σ → List β} :
    ∀ {n : Nat}, (∀ t < n, held (run step inp s t) ++ (ins (inp t) (run step inp s t)).toList =
      (outs (inp t) (run step inp s t)).toList ++ held (run step inp s (t + 1))) →
      held s ++ events step ins inp s n = events step outs inp s n ++ held (run step inp s n)
  | 0, _ => by simp
  | n + 1, h => by
    rw [events_succ, events_succ, ← List.append_assoc, events_conserved_of_lt fun t ht => h t (by omega),
      List.append_assoc, h n (by omega), List.append_assoc]

/-- What goes in at an edge comes out in order, but for what the state holds. -/
theorem events_conserved {ins outs : ι → σ → Option β} {held : σ → List β} (h0 : held s = [])
    (h : ∀ t, held (run step inp s t) ++ (ins (inp t) (run step inp s t)).toList =
      (outs (inp t) (run step inp s t)).toList ++ held (run step inp s (t + 1))) (n : Nat) :
    events step ins inp s n = events step outs inp s n ++ held (run step inp s n) := by
  rw [← events_conserved_of_lt fun t _ => h t, h0, List.nil_append]

/-- What comes out, and what the state holds then, went in or was there before. -/
theorem events_sublist {ins outs : ι → σ → Option β} {held : σ → List β}
    (h : ∀ t, ((outs (inp t) (run step inp s t)).toList ++ held (run step inp s (t + 1))).Sublist
      (held (run step inp s t) ++ (ins (inp t) (run step inp s t)).toList)) :
    ∀ n, (events step outs inp s n ++ held (run step inp s n)).Sublist (held s ++ events step ins inp s n)
  | 0 => by simp
  | n + 1 => by
    rw [events_succ, events_succ, List.append_assoc, ← List.append_assoc (held s)]
    have hnext := List.Sublist.append (List.Sublist.refl (events step outs inp s n)) (h n)
    rw [← List.append_assoc _ (held _)] at hnext
    exact hnext.trans (List.Sublist.append (events_sublist h n) (List.Sublist.refl _))

/-- The same for a part `f` of what goes in. -/
theorem events_conserved_map {ins : ι → σ → Option β} {outs : ι → σ → Option γ} {f : β → γ} {held : σ → List γ}
    (h0 : held s = []) (h : ∀ t, held (run step inp s t) ++ ((ins (inp t) (run step inp s t)).map f).toList =
      (outs (inp t) (run step inp s t)).toList ++ held (run step inp s (t + 1))) (n : Nat) :
    (events step ins inp s n).map f = events step outs inp s n ++ held (run step inp s n) := by
  rw [← @events_map _ _ _ _ _ _ _ _ (fun i s => (ins i s).map f) f (fun _ => rfl) n]
  exact events_conserved h0 h n

/-- Counting what goes in and what comes out. -/
theorem length_events {ins : ι → σ → Option β} {outs : ι → σ → Option γ} (stock : σ → Nat) (h0 : stock s = 0)
    (h : ∀ t, stock (run step inp s t) + (ins (inp t) (run step inp s t)).isSome.toNat =
      (outs (inp t) (run step inp s t)).isSome.toNat + stock (run step inp s (t + 1))) :
    ∀ n, (events step ins inp s n).length = (events step outs inp s n).length + stock (run step inp s n)
  | 0 => by simp [h0]
  | n + 1 => by
    have hlen : ∀ {α : Type} (o : Option α), o.toList.length = o.isSome.toNat := fun o => by cases o <;> rfl
    have ih := length_events stock h0 h n
    have hn := h n
    rw [events_succ, events_succ, List.length_append, List.length_append, hlen, hlen]
    omega

/-- A mailbox that is overwritten: what comes out went in, in order, and what comes out or is held last went in last. -/
theorem events_mailbox {ins outs : ι → σ → Option β} {held : σ → Option β}
    (hheld : ∀ t, held (run step inp s (t + 1)) = (ins (inp t) (run step inp s t)).or
      (if (outs (inp t) (run step inp s t)).isSome then none else held (run step inp s t)))
    (hout : ∀ t b, outs (inp t) (run step inp s t) = some b →
      ins (inp t) (run step inp s t) = none ∧ held (run step inp s t) = some b) (n : Nat) :
    (events step outs inp s n ++ (held (run step inp s n)).toList).Sublist
        ((held s).toList ++ events step ins inp s n) ∧
      (events step outs inp s n ++ (held (run step inp s n)).toList).getLast? =
        ((held s).toList ++ events step ins inp s n).getLast? := by
  constructor
  · refine @events_sublist _ _ _ step inp s ins outs (fun s => (held s).toList) (fun t => ?_) n
    rw [hheld t]
    cases ho : outs (inp t) (run step inp s t) with
    | some b =>
      obtain ⟨hi, hb⟩ := hout t b ho
      rw [hi, hb]
      exact .refl _
    | none =>
      cases ins (inp t) (run step inp s t) with
      | none => exact (List.append_nil _).symm ▸ .refl _
      | some a => exact List.sublist_append_right _ _
  · induction n with
    | zero => simp
    | succ n ih =>
      rw [events_succ, events_succ, hheld n, ← List.append_assoc, List.append_assoc (events step outs inp s n)]
      cases ho : outs (inp n) (run step inp s n) with
      | some b =>
        obtain ⟨hi, hb⟩ := hout n b ho
        rw [hb] at ih
        simpa [hi] using ih
      | none =>
        cases ins (inp n) (run step inp s n) with
        | none => simpa using ih
        | some a => simp

end Vek280Miner.Clocked
