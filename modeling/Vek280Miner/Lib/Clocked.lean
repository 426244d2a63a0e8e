import Mathlib.Logic.Function.Basic

/-!
# Clocked machines

A clocked machine is a function `step : ι → σ → σ` from the inputs sampled at a clock edge and the registers before the
edge to the registers after it.

* `run step inp s n` is the state `n` edges after `s` when edge `t` samples `inp t`; runs split (`run_add`) and depend
  only on the inputs they sample (`run_congr`).
* `Reachable step init s`: some run from an initial state ends in `s`. What the initial states have and every edge keeps
  holds in every reachable state (`Reachable.invariant`).
* `Along step P l s`: `P` holds at every step of the run over the inputs `l`; it is decidable when `P` is.
* A property that is indexed by the age of a run is proved edge by edge (`run_indexed`).
* What is waited for comes, when a rank says how far it is (`ranked_until`).
-/

namespace Vek280Miner.Clocked

variable {ι σ τ : Type} {step : ι → σ → σ}

/-- The state `n` edges after `s`. -/
def run (step : ι → σ → σ) (inp : Nat → ι) (s : σ) : Nat → σ
  | 0 => s
  | n + 1 => step (inp n) (run step inp s n)

@[simp] theorem run_zero (inp : Nat → ι) (s : σ) : run step inp s 0 = s := rfl

theorem run_succ (inp : Nat → ι) (s : σ) (n : Nat) : run step inp s (n + 1) = step (inp n) (run step inp s n) := rfl

/-- A run splits at any edge. -/
theorem run_add (inp : Nat → ι) (s : σ) (m : Nat) :
    ∀ n, run step inp s (m + n) = run step (fun t => inp (m + t)) (run step inp s m) n
  | 0 => rfl
  | n + 1 => by rw [← Nat.add_assoc, run_succ, run_succ, run_add inp s m n]

/-- The first edge, then the rest. -/
theorem run_succ' (inp : Nat → ι) (s : σ) (n : Nat) :
    run step inp s (n + 1) = run step (fun t => inp (t + 1)) (step (inp 0) s) n := by
  rw [Nat.add_comm, run_add]
  simp only [Nat.add_comm 1]
  rfl

/-- A run depends only on the inputs it samples. -/
theorem run_congr {inp inp' : Nat → ι} {s : σ} :
    ∀ {n : Nat}, (∀ t < n, inp t = inp' t) → run step inp s n = run step inp' s n
  | 0, _ => rfl
  | n + 1, h => by
    rw [run_succ, run_succ, run_congr (fun t ht => h t (by omega)), h n (by omega)]

/-- A property indexed by age, kept by each edge before `n`, holds after `n` edges. -/
theorem run_indexed {inp : Nat → ι} {s : σ} {P : Nat → σ → Prop} {n : Nat} (h0 : P 0 s)
    (hs : ∀ t < n, ∀ s, P t s → P (t + 1) (step (inp t) s)) : ∀ t ≤ n, P t (run step inp s t)
  | 0, _ => h0
  | t + 1, ht => hs t (by omega) _ (run_indexed h0 hs t (by omega))

/-- What every edge keeps holds throughout a run. -/
theorem run_invariant {inp : Nat → ι} {s : σ} {P : σ → Prop} (h0 : P s) (hs : ∀ i s, P s → P (step i s)) (n : Nat) :
    P (run step inp s n) :=
  run_indexed (n := n) (P := fun _ => P) h0 (fun _ _ _ h => hs _ _ h) n (Nat.le_refl n)

/-- What every edge keeps under a condition on its input holds throughout a run that meets the condition. -/
theorem run_guarded {inp : Nat → ι} {s : σ} {I : σ → Prop} {G : ι → σ → Prop} {n : Nat} (h0 : I s)
    (hs : ∀ i s, I s → G i s → I (step i s)) (hG : ∀ t < n, G (inp t) (run step inp s t)) : ∀ t ≤ n, I (run step inp s t)
  | 0, _ => h0
  | t + 1, ht => hs _ _ (run_guarded h0 hs hG t (by omega)) (hG t ht)

/-- A run over the inputs of a list. -/
theorem run_getD (d : ι) : ∀ (l : List ι) (s : σ),
    run step (fun t => l.getD t d) s l.length = l.foldl (fun s i => step i s) s
  | [], _ => rfl
  | i :: l, s => by
    rw [List.length_cons, run_succ']
    exact run_getD d l (step i s)

/-- `P` holds of every input of a list and the state that it finds. -/
def Along (step : ι → σ → σ) (P : ι → σ → Prop) : List ι → σ → Prop
  | [], _ => True
  | i :: l, s => P i s ∧ Along step P l (step i s)

instance Along.decidable {P : ι → σ → Prop} [∀ i s, Decidable (P i s)] : ∀ l s, Decidable (Along step P l s)
  | [], _ => .isTrue trivial
  | i :: l, s => @instDecidableAnd _ _ _ (Along.decidable l (step i s))

/-- What holds of the inputs in any state holds along every run over them. -/
theorem along_of_forall {P : ι → σ → Prop} : ∀ {l : List ι}, (∀ i ∈ l, ∀ s, P i s) → ∀ s, Along step P l s
  | [], _, _ => trivial
  | i :: _, h, s => ⟨h i (List.mem_cons_self ..) s, along_of_forall (fun j hj => h j (List.mem_cons_of_mem i hj)) _⟩

theorem along_append {P : ι → σ → Prop} : ∀ {l l' : List ι} {s : σ}, Along step P l s →
    Along step P l' (l.foldl (fun s i => step i s) s) → Along step P (l ++ l') s
  | [], _, _, _, h' => h'
  | _ :: _, _, _, h, h' => ⟨h.1, along_append h.2 h'⟩

theorem along_guarded {I : σ → Prop} {G : ι → σ → Prop} (hs : ∀ i s, I s → G i s → I (step i s)) :
    ∀ {l : List ι} {s : σ}, I s → Along step G l s → I (l.foldl (fun s i => step i s) s)
  | [], _, h, _ => h
  | _ :: l, _, h, hG => along_guarded (l := l) hs (hs _ _ h hG.1) hG.2

/-- What holds in the states that the edges under `G` keep holds along a run that meets `G`. -/
theorem along_imp {I : σ → Prop} {G P : ι → σ → Prop} (hs : ∀ i s, I s → G i s → I (step i s))
    (hP : ∀ i s, I s → G i s → P i s) : ∀ {l : List ι} {s : σ}, I s → Along step G l s → Along step P l s
  | [], _, _, _ => trivial
  | _ :: _, _, h, hG => ⟨hP _ _ h hG.1, along_imp hs hP (hs _ _ h hG.1) hG.2⟩

theorem along_run {P : ι → σ → Prop} (d : ι) : ∀ {l : List ι} {s : σ}, Along step P l s →
    ∀ t < l.length, P (l.getD t d) (run step (fun t => l.getD t d) s t)
  | [], _, _, t, ht => absurd ht (Nat.not_lt_zero t)
  | _ :: _, _, h, 0, _ => h.1
  | _ :: l, _, h, t + 1, ht => by
    rw [run_succ']
    exact along_run d h.2 t (Nat.lt_of_succ_lt_succ ht)

/-- What waits for an event that comes does not wait for ever. -/
theorem waits_until {P Q E : Nat → Prop} {n : Nat} (hP : P n) (hE : ∃ u ≥ n, E u)
    (hs : ∀ u ≥ n, P u → (¬ E u ∧ P (u + 1)) ∨ Q (u + 1)) : ∃ u > n, Q u := by
  by_contra hno
  have hwait : ∀ k, P (n + k) := by
    intro k
    induction k with
    | zero => exact hP
    | succ k ih =>
      obtain h | h := hs (n + k) (by omega) ih
      · exact h.2
      · exact absurd ⟨n + k + 1, by omega, h⟩ hno
  obtain ⟨u, hu, he⟩ := hE
  obtain ⟨k, rfl⟩ := Nat.exists_eq_add_of_le hu
  obtain h | h := hs (n + k) hu (hwait k)
  · exact h.1 he
  · exact hno ⟨n + k + 1, by omega, h⟩

/-- What comes closer at every such event, and never goes back, arrives. -/
theorem ranked_until {P Q E : Nat → Prop} (rank : Nat → Nat) (hE : ∀ u, P u → ∃ v ≥ u, E v)
    (hs : ∀ u, P u → Q (u + 1) ∨ P (u + 1) ∧ rank (u + 1) ≤ rank u ∧ (E u → rank (u + 1) < rank u)) {n : Nat}
    (hP : P n) : ∃ u > n, Q u := by
  induction hk : rank n using Nat.strongRecOn generalizing n with
  | ind k ih =>
    have hwait : ∀ u ≥ n, P u ∧ rank u ≤ k →
        (¬E u ∧ P (u + 1) ∧ rank (u + 1) ≤ k) ∨ (Q (u + 1) ∨ P (u + 1) ∧ rank (u + 1) < k) := by
      rintro u - ⟨hPu, hle⟩
      obtain hQ | ⟨hP', hrank, hless⟩ := hs u hPu
      · exact .inr (.inl hQ)
      · by_cases he : E u
        · exact .inr (.inr ⟨hP', Nat.lt_of_lt_of_le (hless he) hle⟩)
        · exact .inl ⟨he, hP', Nat.le_trans hrank hle⟩
    obtain ⟨u, hu, hQ | ⟨hP', hlt⟩⟩ := @waits_until (fun u => P u ∧ rank u ≤ k) (fun u => Q u ∨ P u ∧ rank u < k) E n
      ⟨hP, Nat.le_of_eq hk⟩ (hE n hP) hwait
    · exact ⟨u, hu, hQ⟩
    · obtain ⟨v, hv, hQ⟩ := ih (rank u) hlt hP' rfl
      exact ⟨v, Nat.lt_trans hu hv, hQ⟩

/-- A projection that commutes with the edges maps runs to runs. -/
theorem run_map {κ : Type} {step' : κ → τ → τ} {f : σ → τ} {g : Nat → κ} {inp : Nat → ι}
    (h : ∀ t s, f (step (inp t) s) = step' (g t) (f s)) (s : σ) :
    ∀ n, f (run step inp s n) = run step' g (f s) n
  | 0 => rfl
  | n + 1 => by rw [run_succ, run_succ, h, run_map h s n]

/-- The states some run from an initial state ends in. -/
inductive Reachable (step : ι → σ → σ) (init : σ → Prop) : σ → Prop
  | init {s : σ} : init s → Reachable step init s
  | step {s : σ} (i : ι) : Reachable step init s → Reachable step init (step i s)

/-- What the initial states have and every edge keeps holds in every reachable state. -/
theorem Reachable.invariant {init P : σ → Prop} (h0 : ∀ s, init s → P s) (hs : ∀ i s, P s → P (step i s)) {s : σ}
    (h : Reachable step init s) : P s := by
  induction h with
  | init h => exact h0 _ h
  | step i _ ih => exact hs i _ ih

/-- Runs from a reachable state reach reachable states. -/
theorem Reachable.run {init : σ → Prop} {s : σ} (h : Reachable step init s) (inp : Nat → ι) (n : Nat) :
    Reachable step init (run step inp s n) :=
  run_invariant h (fun i _ hs => .step i hs) n

end Vek280Miner.Clocked
