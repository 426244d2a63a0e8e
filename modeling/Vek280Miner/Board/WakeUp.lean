import Vek280Miner.Board.IrqLine

/-!
# Masked sources and the worker's next pass

The handler masks the instances only after it has set `g_irq_masked`, and gives `g_irq_sem` before it returns. The
worker takes the semaphore, and clears the flag only to unmask all instances at once. So a source that is masked is
ahead of the worker in its unmask loop, or the flag is set; and while the flag is set the semaphore is given, the
handler is running, or the worker is on its way to clear the flag (`Waking`). A handler that breaks into the unmask loop
sets the flag and gives the semaphore again, which makes up for the instances behind the worker.
-/

namespace Vek280Miner

open Rtl Sw

variable {α : Type} {host : HostCfg} {cfg : MinerCfg}

/-! ## Places of the worker -/

namespace Pc

variable {K : Nat}

/-- From taking `g_irq_sem` to clearing `g_irq_masked`. -/
def Drains : Pc α K → Prop
  | .resultStatus _ | .resultNonce .. | .resultEngine .. | .resultClear .. | .sendEvent .. | .testMasked | .clear _ => True
  | _ => False

/-- In `miner_irq_unmask_all`, with instance `k` still to come. -/
def Unmasks (k : Nat) : Pc α K → Prop
  | .unmask _ inst => inst ≤ k
  | .unmaskWrite _ inst _ => inst.val ≤ k
  | _ => False

/-- Before the main loop. -/
def Boots : Pc α K → Prop
  | .init _ => True
  | .unmask boot _ | .unmaskWrite boot _ _ => boot = true
  | _ => False

/-- Between taking `g_irq_sem` and the end of `miner_irq_unmask_all`. -/
def Serves : Pc α K → Prop
  | .unmask boot _ | .unmaskWrite boot _ _ => boot = false
  | pc => pc.Drains

theorem Drains.serves : ∀ {pc : Pc α K}, pc.Drains → pc.Serves
  | .resultStatus _, h | .resultNonce .., h | .resultEngine .., h | .resultClear .., h | .sendEvent .., h
  | .testMasked, h | .clear _, h => h

/-- The unmask loop outside a pass is the one before the main loop. -/
theorem Unmasks.boots {k : Nat} : ∀ {pc : Pc α K}, pc.Unmasks k → ¬pc.Serves → pc.Boots
  | .unmask _ _, _, h | .unmaskWrite _ _ _, _, h => eq_true_of_ne_false h

end Pc

namespace Board

/-! ## One access of the worker -/

section Advance

variable (s : Board α host cfg) (view : α → Word) (now : Word)

/-- What one access can do to the flag, the semaphore and the interrupt enable, with the place it leads to. -/
inductive Passes (s s' : Board α host cfg) : Prop
  /-- Anywhere but in the places below. -/
  | other : s'.gIrqMasked = s.gIrqMasked → s'.gIrqSem = s.gIrqSem → s'.irqEnabled = s.irqEnabled →
      (∀ k, ¬s.pc.Unmasks k) → (s.pc.Drains → s.gIrqMasked = true → s'.pc.Drains) → (s'.pc.Boots → s.pc.Boots) →
      Passes s s'
  | flag (boot : Bool) : s'.gIrqMasked = false → s'.irqEnabled = s.irqEnabled → s'.pc = .unmask boot 0 →
      (boot = true → s.pc.Boots) → Passes s s'
  | sem : s.pc = .takeSem → s.gIrqSem = true → s'.gIrqMasked = s.gIrqMasked → s'.irqEnabled = s.irqEnabled →
      s'.pc = .resultStatus 0 → Passes s s'
  | unmask (boot : Bool) (inst : Fin host.instances) (control : Word) : s.pc = .unmask boot inst →
      s' = { s with pc := .unmaskWrite boot inst control } → Passes s s'
  | unmaskWrite (boot : Bool) (inst : Fin host.instances) (control : Word) : s.pc = .unmaskWrite boot inst control →
      s' = { s with pc := .unmask boot (inst + 1) } → Passes s s'
  | unmasked (boot : Bool) (inst : Nat) : s.pc = .unmask boot inst → host.instances ≤ inst →
      s' = { s with irqEnabled := s.irqEnabled || boot, pc := .receive } → Passes s s'

variable {s view} {p q : Pc α host.instances}

/-- A pass ends early only where the flag is found clear. -/
theorem Leads.drains (h : s.Leads view p q) (hm : p.movesFlag = false) (hd : p.Drains) (hf : s.gIrqMasked = true) :
    q.Drains := by
  cases h with
  | unmasked hclear =>
    rw [hclear] at hf
    cases hf
  | clearDone => cases hm
  | noResult | result | drained | resultNonce | resultEngine | resultClear | sendEvent | masked | clearWrite => trivial
  | _ => exact hd.elim

/-- There is no way back before the main loop. -/
theorem Leads.boots (h : s.Leads view p q) (hm : p.movesFlag = false) (hq : q.Boots) : p.Boots := by
  cases h with
  | initWrite => trivial
  | initDone | unmaskRead | clearDone => cases hm
  | unmaskWrite => exact hq
  | _ => exact hq.elim

variable (s view)

theorem passes_advance : Passes s (s.advance view now) := by
  have hleads := leads_advance s view now
  have hother : s.pc.movesFlag = false → s.pc ≠ .takeSem → (∀ k, ¬s.pc.Unmasks k) → Passes s (s.advance view now) :=
    fun hm hsem hu =>
    have hflags := flags_advance s view now hm
    .other hflags.1 (sem_advance s view now hsem) hflags.2 hu (hleads.drains hm) (hleads.boots hm)
  cases hpc : s.pc with
  | init l =>
    cases l with
    | nil =>
      simp only [advance, hpc]
      exact .flag true rfl rfl rfl fun _ => by rw [hpc]; trivial
    | cons w l => exact hother (by rw [hpc]; rfl) (by simp [hpc]) fun k => by rw [hpc]; exact id
  | unmask boot inst =>
    simp only [advance, hpc]
    split
    · exact .unmask boot ⟨inst, ‹_›⟩ _ hpc rfl
    · exact .unmasked boot inst hpc (Nat.le_of_not_lt ‹_›) rfl
  | unmaskWrite boot inst control =>
    simp only [advance, hpc]
    exact .unmaskWrite boot inst control hpc rfl
  | takeSem =>
    simp only [advance, hpc]
    split
    · exact .sem hpc ‹_› rfl rfl rfl
    · exact .other rfl rfl rfl (fun k => by rw [hpc]; exact id) (fun hd => by rw [hpc] at hd; exact hd.elim) fun hb => hb.elim
  | clear l =>
    cases l with
    | nil =>
      simp only [advance, hpc]
      exact .flag false rfl rfl rfl fun h => by cases h
    | cons w l => exact hother (by rw [hpc]; rfl) (by simp [hpc]) fun k => by rw [hpc]; exact id
  | _ => exact hother (by rw [hpc]; rfl) (by simp [hpc]) fun k => by rw [hpc]; exact id

end Advance

/-! ## The invariant -/

/-- Every masked source has a pass of the worker coming. -/
structure Waking (s : Board α host cfg) : Prop where
  /-- A masked source has the flag set, or the unmask loop ahead of it. -/
  flag : ∀ k, (s.hw k).irqMaskQ = true → s.gIrqMasked = true ∨ s.pc.Unmasks k
  /-- Somebody sees to the flag. -/
  due : s.gIrqMasked = true → s.gIrqSem = true ∨ s.isr ≠ none ∨ s.pc.Drains
  /-- The handler masks behind the flag. -/
  masking : ∀ i, s.isr = some i → i = .enter ∨ s.gIrqMasked = true
  /-- Until the interrupt is enabled there is nothing to see to. -/
  boot : s.pc.Boots → s.irqEnabled = false
  disabled : s.irqEnabled = false → s.isr = none ∧ ∀ k, (s.hw k).irqMaskQ = false

variable [Inhabited α] {obs : Engine → α} {view : α → Word} {s : Board α host cfg}

theorem waking_reset (engines : Fin host.instances → Fin cfg.numEngines → Engine) :
    (reset engines : Board α host cfg).Waking where
  flag := fun _ h => by cases h
  due := fun h => by cases h
  masking := fun _ h => by cases h
  boot := fun _ => rfl
  disabled := fun _ => ⟨rfl, fun _ => rfl⟩

theorem flags_apply (s : Board α host cfg) (w : Option (RegWrite host.instances)) :
    (s.apply obs w).gIrqMasked = s.gIrqMasked ∧ (s.apply obs w).gIrqSem = s.gIrqSem ∧
      (s.apply obs w).irqEnabled = s.irqEnabled := by
  rw [apply_eq]
  exact ⟨rfl, rfl, rfl⟩

omit [Inhabited α] in
/-- The queues and counters do not matter. -/
theorem Waking.congr {s' : Board α host cfg} (h : s.Waking) (hw : s'.hw = s.hw) (hf : s'.gIrqMasked = s.gIrqMasked)
    (hs : s'.gIrqSem = s.gIrqSem) (he : s'.irqEnabled = s.irqEnabled) (hpc : s'.pc = s.pc) (hi : s'.isr = s.isr) :
    s'.Waking := by
  obtain ⟨h1, h2, h3, h4, h5⟩ := h
  constructor <;> simp only [hw, hf, hs, he, hpc, hi] <;> assumption

/-- The worker's write in the unmask loop. -/
theorem mask_unmaskWrite {boot : Bool} {k : Fin host.instances} {control : Word} (hi : s.isr = none)
    (hpc : s.pc = .unmaskWrite boot k control) (now : Word) :
    ((s.step obs view (.worker now)).hw k).irqMaskQ = false := by
  rw [hw_step]
  simp only [edgeOf, hi, hpc, Pc.write, Option.map_some, Option.elim_some, writeTo_some, if_true]
  simp [MinerCore.step, RegWrite.write, minerRegIrqControl, writeSel, minerIrqControlMask]

omit [Inhabited α] in
/-- Where a masked source stands after an access of the worker. -/
theorem Passes.flag_step {s s' : Board α host cfg} (h : Passes s s') {k : Fin host.instances}
    (hk : s.gIrqMasked = true ∨ s.pc.Unmasks k) (hne : ∀ boot control, s.pc ≠ .unmaskWrite boot k control) :
    s'.gIrqMasked = true ∨ s'.pc.Unmasks k := by
  cases h with
  | other hf _ _ hu _ _ =>
    rw [hf]
    exact .inl (hk.resolve_right (hu k))
  | flag boot _ _ hpc _ =>
    rw [hpc]
    exact .inr (Nat.zero_le k)
  | sem hpc _ hf _ _ =>
    rw [hf]
    exact .inl (hk.resolve_right (by rw [hpc]; exact id))
  | unmask boot inst control hpc hs =>
    subst hs
    rw [hpc] at hk
    exact hk
  | unmaskWrite boot inst control hpc hs =>
    subst hs
    rw [hpc] at hk
    refine hk.imp id fun hle => ?_
    have hlt : inst.val ≠ k.val := fun heq => hne boot control (by rw [hpc, Fin.ext heq])
    show inst.val + 1 ≤ k.val
    exact Nat.lt_of_le_of_ne hle hlt
  | unmasked boot inst hpc hle hs =>
    subst hs
    rw [hpc] at hk
    refine .inl (hk.resolve_right fun hik => ?_)
    have hik : inst ≤ k.val := hik
    omega

omit [Inhabited α] in
/-- Who sees to the flag after an access of the worker. -/
theorem Passes.due_step {s s' : Board α host cfg} (h : Passes s s')
    (hdue : s.gIrqMasked = true → s.gIrqSem = true ∨ s.pc.Drains) (hf' : s'.gIrqMasked = true) :
    s'.gIrqSem = true ∨ s'.pc.Drains := by
  cases h with
  | other hf hs _ _ hd _ =>
    rw [hf] at hf'
    rw [hs]
    exact (hdue hf').imp id fun h => hd h hf'
  | flag boot hf _ _ _ =>
    rw [hf] at hf'
    cases hf'
  | sem _ _ _ _ hpc =>
    rw [hpc]
    exact .inr trivial
  | unmask boot inst control hpc hs =>
    subst hs
    exact .inl ((hdue hf').resolve_right (by rw [hpc]; exact id))
  | unmaskWrite boot inst control hpc hs =>
    subst hs
    exact .inl ((hdue hf').resolve_right (by rw [hpc]; exact id))
  | unmasked boot inst hpc _ hs =>
    subst hs
    exact .inl ((hdue hf').resolve_right (by rw [hpc]; exact id))

omit [Inhabited α] in
/-- The interrupt is enabled at the end of the first unmask loop. -/
theorem Passes.boot_step {s s' : Board α host cfg} (h : Passes s s') (hboot : s.pc.Boots → s.irqEnabled = false) :
    (s'.pc.Boots → s'.irqEnabled = false) ∧ (s'.irqEnabled = false → s.irqEnabled = false) := by
  cases h with
  | other _ _ he _ _ hb =>
    rw [he]
    exact ⟨fun h => hboot (hb h), id⟩
  | flag boot _ he hpc hb =>
    rw [he, hpc]
    exact ⟨fun h => hboot (hb h), id⟩
  | sem _ _ _ he hpc =>
    rw [he, hpc]
    exact ⟨fun h => absurd h id, id⟩
  | unmask boot inst control hpc hs =>
    subst hs
    rw [hpc] at hboot
    exact ⟨hboot, id⟩
  | unmaskWrite boot inst control hpc hs =>
    subst hs
    rw [hpc] at hboot
    exact ⟨hboot, id⟩
  | unmasked boot inst _ _ hs =>
    subst hs
    exact ⟨fun h => absurd h id, fun h => (Bool.or_eq_false_iff.1 h).1⟩

/-- An access of the worker. -/
theorem Waking.worker (h : s.Waking) (hl : s.pc.Lists NotIrq) (hi : s.isr = none) (now : Word) :
    (s.step obs view (.worker now)).Waking := by
  have hmask : ∀ k, ((s.step obs view (.worker now)).hw k).irqMaskQ = true →
      (s.hw k).irqMaskQ = true ∧ ∀ boot control, s.pc ≠ .unmaskWrite boot k control := by
    intro k hk
    refine ⟨?_, fun boot control hpc => ?_⟩
    · obtain hsame | ⟨ha, -⟩ | ⟨-, -, -, hclear⟩ := mask_step obs view (.worker now) hl k
      · rwa [hsame] at hk
      · cases ha
      · rw [hclear] at hk
        cases hk
    · rw [mask_unmaskWrite hi hpc] at hk
      cases hk
  have hstep : s.step obs view (.worker now) = (s.advance view now).apply obs s.pc.write := by simp only [step, hi]
  obtain ⟨hf, hs, he⟩ := @flags_apply _ _ _ _ obs (s.advance view now) s.pc.write
  obtain ⟨hpc, hisr⟩ := frame_apply (s.advance view now) obs s.pc.write
  rw [(frame_advance s view now).2, hi] at hisr
  rw [← hstep] at hf hs he hpc hisr
  have hpass := passes_advance s view now
  obtain ⟨hboot, henabled⟩ := hpass.boot_step h.boot
  refine ⟨fun k hk => ?_, fun hflag => ?_, fun i hsome => ?_, fun hb => ?_, fun hd => ?_⟩
  · rw [hf, hpc]
    obtain ⟨hk, hne⟩ := hmask k hk
    exact hpass.flag_step (h.flag k hk) hne
  · rw [hs, hpc]
    refine (hpass.due_step (fun hflag => ?_) (hf ▸ hflag)).imp id .inr
    exact (h.due hflag).imp id fun h => h.resolve_left fun hne => hne hi
  · rw [hisr] at hsome
    cases hsome
  · rw [he]
    exact hboot (hpc ▸ hb)
  · refine ⟨hisr, fun k => ?_⟩
    by_contra hk
    have hk := (hmask k (eq_true_of_ne_false hk)).1
    rw [(h.disabled (henabled (he ▸ hd))).2 k] at hk
    cases hk

/-- An access of the handler. -/
theorem Waking.handler (h : s.Waking) {i : IsrPc host.instances} (hi : s.isr = some i) :
    (s.step obs view .handler).Waking := by
  have hstep : s.step obs view .handler = (s.handle view i).apply obs i.write := by simp only [step, hi]
  have hflag : (s.handle view i).gIrqMasked = true := by
    cases i with
    | enter => simp only [handle]; split <;> [assumption; rfl]
    | mask inst =>
      have hm := (h.masking _ hi).resolve_left (by simp)
      simp only [handle]
      split <;> exact hm
    | maskWrite inst control => exact (h.masking _ hi).resolve_left (by simp)
    | give => exact (h.masking _ hi).resolve_left (by simp)
  have hsem : (s.handle view i).gIrqSem = true ∨ (s.handle view i).isr ≠ none := by
    cases i with
    | enter => simp only [handle]; split <;> exact .inr (by simp)
    | mask inst => simp only [handle]; split <;> exact .inr (by simp)
    | maskWrite inst control => exact .inr (by simp [handle])
    | give => exact .inl rfl
  have henabled : (s.handle view i).irqEnabled = s.irqEnabled := by
    cases i <;> simp only [handle] <;> first | rfl | (split <;> rfl)
  obtain ⟨hf, hs, he⟩ := @flags_apply _ _ _ _ obs (s.handle view i) i.write
  obtain ⟨hpc, hisr⟩ := frame_apply (s.handle view i) obs i.write
  rw [hstep]
  refine ⟨fun k _ => .inl (hf.trans hflag), fun _ => ?_, fun _ _ => .inr (hf.trans hflag), fun hb => ?_, fun hd => ?_⟩
  · rw [hs, hisr]
    exact hsem.imp id .inl
  · rw [hpc, (frame_handle s view i).2.1] at hb
    rw [he, henabled]
    exact h.boot hb
  · rw [he, henabled] at hd
    rw [(h.disabled hd).1] at hi
    cases hi

theorem waking_step (a : Action host.instances) (h : s.Waking) (hl : s.pc.Lists NotIrq) : (s.step obs view a).Waking := by
  cases hi : s.isr with
  | none =>
    cases a with
    | worker now => exact h.worker hl hi now
    | edge => exact ⟨h.flag, h.due, h.masking, h.boot, h.disabled⟩
    | interrupt =>
      simp only [step, hi]
      split
      · rename_i hline
        simp only [Bool.and_eq_true] at hline
        refine ⟨h.flag, fun _ => .inr (.inl (by simp)), fun i hi => .inl (Option.some.inj hi).symm, h.boot, fun hd => ?_⟩
        rw [hline.1] at hd
        cases hd
      · exact h
    | service inst w =>
      have hmask : ∀ k, ((s.step obs view (.service inst w)).hw k).irqMaskQ = (s.hw k).irqMaskQ := by
        intro k
        obtain hsame | ⟨ha, -⟩ | ⟨-, ⟨now, ha⟩, -⟩ := mask_step obs view (.service inst w) hl k
        · exact hsame
        · cases ha
        · cases ha
      have hstep : s.step obs view (.service inst w) = s.apply obs (some (w.regWrite inst)) := by simp only [step, hi]
      rw [hstep] at hmask ⊢
      refine ⟨fun k hk => ?_, h.due, h.masking, h.boot, fun hd => ?_⟩
      · rw [hmask] at hk
        exact h.flag k hk
      · exact ⟨(h.disabled hd).1, fun k => (hmask k).trans ((h.disabled hd).2 k)⟩
    | handler => simp only [step, hi]; exact h
    | _ =>
      apply h.congr
      all_goals simp only [step, hi]
  | some i =>
    cases a with
    | handler => exact h.handler hi
    | edge => exact ⟨h.flag, h.due, h.masking, h.boot, h.disabled⟩
    | _ => simp only [step, hi]; exact h

/-- The handler gives the semaphore before it returns. -/
theorem gIrqSem_of_return (a : Action host.instances) (h : s.isr ≠ none) (h' : (s.step obs view a).isr = none) :
    (s.step obs view a).gIrqSem = true := by
  obtain ⟨i, hi⟩ := Option.ne_none_iff_exists'.1 h
  cases a with
  | handler =>
    simp only [step, hi] at h' ⊢
    rw [(frame_apply _ obs _).2] at h'
    rw [(flags_apply _ _).2.1]
    cases i with
    | give => rfl
    | enter => simp only [handle] at h'; split at h' <;> cases h'
    | mask inst => simp only [handle] at h'; split at h' <;> cases h'
    | maskWrite inst control => cases h'
  | edge => exact absurd h' h
  | _ => simp only [step, hi] at h'; exact absurd h' (by simp)

section Run

variable (obs : Engine → α) (view : α → Word) (engines : Fin host.instances → Fin cfg.numEngines → Engine)
  (acts : Nat → Action host.instances)

theorem waking_run (t : Nat) : (Clocked.run (step obs view) acts (reset engines : Board α host cfg) t).Waking := by
  induction t with
  | zero => exact waking_reset engines
  | succ t ih => exact waking_step (acts t) ih (lists_run engines acts t)

/-- **No lost wake-up.** Whenever a source is masked while the worker is not between taking `g_irq_sem` and the end of
its unmask loop, `g_irq_masked` is set, so that the next pass will unmask it, and `g_irq_sem` is given; a handler that
is still at work, which no task can observe, gives it before it returns. -/
theorem masked_source_has_pass (t : Nat)
    (hmask : ∃ k, ((Clocked.run (step obs view) acts (reset engines : Board α host cfg) t).hw k).irqMaskQ = true)
    (hpc : ¬(Clocked.run (step obs view) acts (reset engines : Board α host cfg) t).pc.Serves) :
    (Clocked.run (step obs view) acts (reset engines : Board α host cfg) t).gIrqMasked = true ∧
      ((Clocked.run (step obs view) acts (reset engines : Board α host cfg) t).isr = none →
        (Clocked.run (step obs view) acts (reset engines : Board α host cfg) t).gIrqSem = true) ∧
      ∀ u, t < u → (∀ v, t ≤ v → v < u → (Clocked.run (step obs view) acts (reset engines : Board α host cfg) v).isr ≠ none) →
        (Clocked.run (step obs view) acts (reset engines : Board α host cfg) u).isr = none →
        (Clocked.run (step obs view) acts (reset engines : Board α host cfg) u).gIrqSem = true := by
  obtain ⟨k, hk⟩ := hmask
  have h := waking_run obs view engines acts t
  have hflag : (Clocked.run (step obs view) acts (reset engines : Board α host cfg) t).gIrqMasked = true := by
    refine (h.flag k hk).resolve_right fun hu => ?_
    rw [(h.disabled (h.boot (hu.boots hpc))).2 k] at hk
    cases hk
  refine ⟨hflag, fun hi => ?_, fun u htu hv hu => ?_⟩
  · exact (h.due hflag).resolve_right fun h => h.elim (fun hne => hne hi) fun hd => hpc hd.serves
  · obtain ⟨v, rfl⟩ : ∃ v, u = v + 1 := ⟨u - 1, by omega⟩
    exact gIrqSem_of_return _ (hv v (by omega) (by omega)) hu

end Run

end Board

/-! ## An instance masked behind the worker -/

/-- The instances are stopped again before the second one is unmasked, and the worker finishes its loop. -/
def maskedBehind : List (Action twoInstances.instances) :=
  bootActions ++ stopAll ++ maskActions ++ unmaskFirst ++ stopAll ++ maskActions ++ List.replicate 3 (.worker 0)

/-- The board after `t` of these actions. -/
def maskedBehindAt (t : Nat) : Board Word twoInstances twoEngines :=
  Clocked.run (Board.step Engine.resultNonceO id) (fun t => maskedBehind.getD t .edge) (Board.reset fun _ _ => default) t

/-- The first instance is masked and the second one is not. -/
theorem maskedBehind_state : ((maskedBehindAt 48).hw ⟨0, by decide⟩).irqMaskQ = true ∧
    ((maskedBehindAt 48).hw ⟨1, by decide⟩).irqMaskQ = false ∧ (maskedBehindAt 48).pc = .receive ∧
    (maskedBehindAt 48).isr = none := by
  decide +kernel

/-- The worker is in its main loop and the semaphore is given. -/
theorem maskedBehind_has_pass : (maskedBehindAt 48).pc = .receive ∧ (maskedBehindAt 48).gIrqSem = true := by
  obtain ⟨hmask, -, hpc, hisr⟩ := maskedBehind_state
  refine ⟨hpc, ?_⟩
  have hserves : ¬(maskedBehindAt 48).pc.Serves := by
    rw [hpc]
    exact id
  exact (Board.masked_source_has_pass Engine.resultNonceO id (fun _ _ => default) (fun t => maskedBehind.getD t .edge) 48
    ⟨_, hmask⟩ hserves).2.1 hisr

end Vek280Miner
