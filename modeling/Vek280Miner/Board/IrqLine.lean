import Vek280Miner.Board.Instances
import Vek280Miner.Lib.Clocked
import Vek280Miner.Rtl.StopWrite
import Vek280Miner.Software.ProgramJob

/-!
# The interrupt line behind the handler

`g_irq_masked` stands for the mask bits of all instances. The worker clears it before it unmasks the instances one by
one, so a handler that comes in between sets it again while the worker goes on to unmask the rest: the flag is then set
although instances are unmasked, and the next handler masks nothing. In every run the line is low behind a handler, and
stays low until the worker unmasks an instance, exactly when the handler found the flag clear (`line_low_iff`).
-/

namespace Vek280Miner

open Rtl Sw

variable {α : Type} [Inhabited α] {host : HostCfg} {cfg : MinerCfg} {obs : Engine → α}

/-! ## One instance -/

section Core

variable {m : MinerCore α cfg} {w : Option Write}

/-- Only a write to `IRQ_CONTROL` changes the mask. -/
theorem irqMask_step (hw : ∀ v, w = some v → v.sel ≠ .irqControl) : (m.step obs w).irqMaskQ = m.irqMaskQ := by
  cases w with
  | none => rfl
  | some v =>
    obtain ⟨sel, data, strb⟩ := v
    cases sel <;> first | rfl | exact absurd rfl (hw _ rfl)

/-- What is pending stays pending at an edge without a write. -/
theorem irqO_step (h : m.irqO = true) : (m.step obs none).irqO = true := by
  simp only [MinerCore.irqO, Bool.and_eq_true, Bool.not_eq_true', Bool.or_eq_true] at h ⊢
  obtain ⟨hmask, ((hf | hv) | ho) | hd⟩ := h
  · exact ⟨hmask, .inl (.inl (.inl hf))⟩
  · refine ⟨hmask, .inl (.inl (.inr ?_))⟩
    simp [MinerCore.step, MinerCore.startsLoad, hv]
  · refine ⟨hmask, .inl (.inr ?_)⟩
    simp [MinerCore.step, MinerCore.startsLoad, ho]
  · refine ⟨hmask, .inr ?_⟩
    simp [MinerCore.step, MinerCore.startsLoad, hd]

end Core

namespace Board

variable {s : Board α host cfg} {view : α → Word} {a : Action host.instances}

omit [Inhabited α] in
theorem irqLine_iff : s.irqLine = true ↔ ∃ k, (s.hw k).irqO = true := decide_eq_true_iff

/-- The line stays up at an edge without a write. -/
theorem irqLine_clockEdge (h : s.irqLine = true) : (s.clockEdge obs none).irqLine = true := by
  obtain ⟨k, hk⟩ := irqLine_iff.1 h
  exact irqLine_iff.2 ⟨k, irqO_step hk⟩

/-- Every source is masked. -/
def AllMasked (s : Board α host cfg) : Prop := ∀ k, (s.hw k).irqMaskQ = true

omit [Inhabited α] in
theorem AllMasked.irqLine (h : s.AllMasked) : s.irqLine = false := by
  rw [← Bool.not_eq_true, irqLine_iff]
  rintro ⟨k, hk⟩
  simp [MinerCore.irqO, h k] at hk

/-! ## Who writes `IRQ_CONTROL` -/

/-- The worker unmasks an instance. -/
def Unmasks (a : Action host.instances) (s : Board α host cfg) : Prop :=
  s.isr = none ∧ ∃ now boot inst control, a = .worker now ∧ s.pc = .unmaskWrite boot inst control

end Board

/-- A write to another register than `IRQ_CONTROL`. -/
def NotIrq {K : Nat} (w : RegWrite K) : Prop := w.write.sel ≠ .irqControl

section Lists

variable {K : Nat}

theorem notIrq_control (inst : Fin K) (value : Word) : NotIrq ⟨inst, minerRegControl, value⟩ :=
  show writeSel minerRegControl ≠ .irqControl by decide

theorem notIrq_resultStatus (inst : Fin K) (value : Word) : NotIrq ⟨inst, minerRegResultStatus, value⟩ :=
  show writeSel minerRegResultStatus ≠ .irqControl by decide

theorem notIrq_minerClear : ∀ w ∈ (minerClear : List (RegWrite K)), NotIrq w := by
  intro w hw
  obtain ⟨inst, -, hw⟩ := List.mem_flatMap.1 hw
  simp only [List.mem_cons, List.not_mem_nil, or_false] at hw
  rcases hw with rfl | rfl
  · exact notIrq_control inst _
  · exact notIrq_resultStatus inst _

theorem notIrq_minerInit : ∀ w ∈ (minerInit : List (RegWrite K)), NotIrq w := by
  intro w hw
  rcases List.mem_append.1 hw with hw | hw
  · obtain ⟨inst, -, rfl⟩ := List.mem_map.1 hw
    exact notIrq_control inst _
  · exact notIrq_minerClear w hw

theorem notIrq_startRangeLoop (baseCount remainder : Word) : ∀ (insts : List (Fin K)) (rangeStart : Word),
    ∀ w ∈ startRangeLoop baseCount remainder insts rangeStart, NotIrq w
  | [], _, _, hw => by simp [startRangeLoop] at hw
  | inst :: insts, rangeStart, w, hw => by
    rcases List.mem_append.1 hw with hw | hw
    · simp only [startInstance, List.mem_cons, List.not_mem_nil, or_false] at hw
      rcases hw with rfl | rfl | rfl
      · exact show writeSel minerRegNonceStart ≠ .irqControl by decide
      · exact show writeSel minerRegNonceCount ≠ .irqControl by decide
      · exact notIrq_control inst _
    · exact notIrq_startRangeLoop baseCount remainder insts _ w hw

theorem notIrq_request (request : JobRequest) : ∀ w ∈ (request.writes : List (RegWrite K)), NotIrq w := by
  intro w hw
  rcases List.mem_append.1 hw with hw | hw
  · obtain ⟨inst, -, hw⟩ := List.mem_flatMap.1 hw
    simp only [programInstance, List.mem_append, List.mem_flatMap, List.mem_map, List.mem_cons, List.not_mem_nil,
      or_false] at hw
    rcases hw with ⟨i, -, rfl | rfl⟩ | ⟨i, -, rfl⟩
    · simp [NotIrq, RegWrite.write, writeSel_midstate]
    · simp [NotIrq, RegWrite.write, writeSel_target]
    · simp [NotIrq, RegWrite.write, writeSel_headerTail]
  · exact notIrq_startRangeLoop _ _ _ _ w hw

end Lists

namespace Board

variable {s : Board α host cfg} {view : α → Word} {a : Action host.instances}

/-- In every run the writes that the worker has listed leave `IRQ_CONTROL` alone. -/
theorem lists_run (engines : Fin host.instances → Fin cfg.numEngines → Engine) (acts : Nat → Action host.instances) (t : Nat) :
    (Clocked.run (step obs view) acts (reset engines : Board α host cfg) t).pc.Lists NotIrq :=
  Clocked.run_invariant (P := fun s : Board α host cfg => s.pc.Lists NotIrq) (s := reset engines) notIrq_minerInit
    (fun a _ h => lists_step notIrq_minerClear notIrq_request h obs view a) t

/-- A mask bit is written by the handler, which sets it, and by the unmask loop, which clears it. -/
theorem mask_step (obs : Engine → α) (view : α → Word) (a : Action host.instances) (hl : s.pc.Lists NotIrq)
    (k : Fin host.instances) :
    ((s.step obs view a).hw k).irqMaskQ = (s.hw k).irqMaskQ ∨
      (a = .handler ∧ (∃ control, s.isr = some (.maskWrite k control)) ∧ ((s.step obs view a).hw k).irqMaskQ = true) ∨
      (s.isr = none ∧ (∃ now, a = .worker now) ∧ (∃ boot control, s.pc = .unmaskWrite boot k control) ∧
        ((s.step obs view a).hw k).irqMaskQ = false) := by
  rcases inst_step s obs view a k with hk | ⟨w, hk, hw⟩
  · rw [hk]
    exact .inl rfl
  · rw [hk]
    cases w with
    | none => exact .inl rfl
    | some v =>
      obtain ⟨r, hr, rfl, rfl⟩ := hw v rfl
      by_cases hsel : r.write.sel = .irqControl
      · cases hi : s.isr with
        | some i =>
          cases a <;> simp only [edgeOf, hi, reduceCtorEq, Option.some.injEq] at hr
          cases i <;> simp only [IsrPc.write, Option.map_none, Option.map_some, reduceCtorEq, Option.some.injEq] at hr
          subst hr
          refine .inr (.inl ⟨rfl, ⟨_, rfl⟩, ?_⟩)
          simp [MinerCore.step, RegWrite.write, minerRegIrqControl, writeSel, minerIrqControlMask]
        | none =>
          cases a <;> simp only [edgeOf, hi, reduceCtorEq, Option.some.injEq] at hr
          case worker now =>
            obtain ⟨r', hr', hrr⟩ := Option.map_eq_some_iff.1 hr
            obtain rfl := Option.some.inj hrr
            cases hpc : s.pc <;> rw [hpc] at hl hr' <;> simp only [Pc.write, reduceCtorEq, Option.some.injEq] at hr'
            case init l => exact absurd hsel (hl _ (List.mem_of_mem_head? hr'))
            case program request l => exact absurd hsel (hl _ (List.mem_of_mem_head? hr'))
            case clear l => exact absurd hsel (hl _ (List.mem_of_mem_head? hr'))
            case unmaskWrite boot inst control =>
              subst hr'
              refine .inr (.inr ⟨rfl, ⟨now, rfl⟩, ⟨boot, control, rfl⟩, ?_⟩)
              simp [MinerCore.step, RegWrite.write, minerRegIrqControl, writeSel, minerIrqControlMask]
            case resultClear inst result tag =>
              subst hr'
              exact absurd hsel (notIrq_resultStatus inst _)
          case service inst w =>
            subst hr
            cases w with
            | stop => exact absurd hsel (notIrq_control inst _)
            | clear => exact absurd hsel (notIrq_control inst _)
            | clearStatus => exact absurd hsel (notIrq_resultStatus inst _)
      · refine .inl (irqMask_step fun u hu => ?_)
        obtain rfl := Option.some.inj hu
        exact hsel

theorem allMasked_step (h : s.AllMasked) (hl : s.pc.Lists NotIrq) (ha : ¬ Unmasks a s) : (s.step obs view a).AllMasked := by
  intro k
  obtain hk | ⟨-, -, hk⟩ | ⟨hi, ⟨now, rfl⟩, ⟨boot, control, hpc⟩, -⟩ := mask_step obs view a hl k
  · rw [hk]
    exact h k
  · exact hk
  · exact absurd ⟨hi, now, boot, k, control, rfl, hpc⟩ ha

/-! ## One execution of the handler -/

/-- An execution of the handler that found `g_irq_masked` to be `flag`: it masks one instance after the other, or
nothing, and the line stays up. -/
inductive Handling (flag : Bool) (s : Board α host cfg) : Prop
  | enter : s.isr = some .enter → s.gIrqMasked = flag → s.irqLine = true → Handling flag s
  | mask (i : Nat) : s.isr = some (.mask i) → flag = false → (∀ k : Fin host.instances, k.val < i → (s.hw k).irqMaskQ = true) →
      Handling flag s
  | maskWrite (i : Fin host.instances) (control : Word) : s.isr = some (.maskWrite i control) → flag = false →
      (∀ k : Fin host.instances, k.val < i.val → (s.hw k).irqMaskQ = true) → Handling flag s
  | give : s.isr = some .give ∨ s.isr = none → (flag = true → s.irqLine = true) → (flag = false → s.AllMasked) → Handling flag s

/-- The handler is entered because the line is up. -/
theorem step_enter (h : s.isr = none) (h' : (s.step obs view a).isr ≠ none) :
    s.irqLine = true ∧ s.step obs view a = { s with isr := some .enter } := by
  have hacts := acts_step s obs view a
  generalize s.step obs view a = s' at hacts h' ⊢
  cases hacts with
  | interrupt hisr henabled hline => exact ⟨hline, rfl⟩
  | worker now hisr =>
    rw [apply_eq] at h'
    exact absurd ((frame_advance s view now).2.trans h) h'
  | handler i hi =>
    rw [h] at hi
    cases hi
  | _ => exact absurd h h'

/-- An edge within the handler. -/
theorem Handling.edge {flag : Bool} (h : Handling flag s) : Handling flag (s.clockEdge obs none) := by
  have hmask : ∀ k, ((s.clockEdge obs none).hw k).irqMaskQ = (s.hw k).irqMaskQ := fun k => rfl
  cases h with
  | enter hi hg hl => exact .enter hi hg (irqLine_clockEdge hl)
  | mask i hi hf hk => exact .mask i hi hf fun k hlt => (hmask k).trans (hk k hlt)
  | maskWrite i control hi hf hk => exact .maskWrite i control hi hf fun k hlt => (hmask k).trans (hk k hlt)
  | give hi hl hm => exact .give hi (fun hf => irqLine_clockEdge (hl hf)) fun hf k => (hmask k).trans (hm hf k)

/-- An access of the handler. -/
theorem Handling.access {flag : Bool} (h : Handling flag s) (hi : s.isr ≠ none) :
    Handling flag (s.step obs view .handler) := by
  cases h with
  | enter he hg hl =>
    simp only [step, he, handle, IsrPc.write, Board.apply]
    cases hf : flag with
    | true =>
      rw [hg, hf, if_pos rfl]
      exact .give (.inl rfl) (fun _ => hl) fun h => by cases h
    | false =>
      rw [hg, hf, if_neg (by simp)]
      exact .mask 0 rfl rfl fun k hk => absurd hk (Nat.not_lt_zero _)
  | mask i he hf hk =>
    simp only [step, he, handle, IsrPc.write, Board.apply]
    split
    · exact .maskWrite _ _ rfl hf hk
    · refine .give (.inl rfl) (fun h => by rw [hf] at h; cases h) fun _ k => hk k ?_
      have := k.isLt
      omega
  | maskWrite i control he hf hk =>
    simp only [step, he, handle, IsrPc.write, Board.apply]
    refine .mask (i + 1) rfl hf fun k hlt => ?_
    show (MinerCore.step obs (writeTo k (some _)) (s.hw k)).irqMaskQ = true
    rw [writeTo_some]
    by_cases hki : i = k
    · simp [hki, MinerCore.step, RegWrite.write, minerRegIrqControl, writeSel, minerIrqControlMask]
    · have hne : k.val ≠ i.val := fun h => hki (Fin.ext h.symm)
      rw [if_neg hki]
      exact hk k (by omega)
  | give he hl hm =>
    rcases he with he | he
    · simp only [step, he, handle, IsrPc.write, Board.apply]
      exact .give (.inr rfl) hl hm
    · exact absurd he hi

theorem handling_step {flag : Bool} (h : Handling flag s) (hi : s.isr ≠ none) : Handling flag (s.step obs view a) := by
  obtain ⟨i, hisr⟩ := Option.ne_none_iff_exists'.1 hi
  cases a with
  | edge => exact h.edge
  | handler => exact h.access hi
  | _ => simp only [step, hisr]; exact h

/-! ## Runs -/

/-- The handler is entered at `t` and has returned at `u`. -/
structure Handles (st : Nat → Board α host cfg) (t u : Nat) : Prop where
  long : t + 1 < u
  before : (st t).isr = none
  inside : ∀ v, t < v → v < u → (st v).isr ≠ none
  after : (st u).isr = none

/-- What an execution of the handler that has returned at `u` is to leave behind: the line is low, and stays low until
the worker unmasks an instance. -/
def LineLow (acts : Nat → Action host.instances) (st : Nat → Board α host cfg) (u : Nat) : Prop :=
  ∀ v, u ≤ v → (∀ x, u ≤ x → x < v → ¬ Unmasks (acts x) (st x)) → (st v).irqLine = false

/-- **The line behind the handler.** In every run of the board, every execution of the handler leaves the line low
exactly when it found `g_irq_masked` clear. -/
theorem line_low_iff (engines : Fin host.instances → Fin cfg.numEngines → Engine) (acts : Nat → Action host.instances)
    (t u : Nat) (h : Handles (Clocked.run (step obs view) acts (reset engines : Board α host cfg)) t u) :
    LineLow acts (Clocked.run (step obs view) acts (reset engines : Board α host cfg)) u ↔
      (Clocked.run (step obs view) acts (reset engines : Board α host cfg) t).gIrqMasked = false := by
  have hhandling : ∀ v, t + 1 ≤ v → v ≤ u →
      Handling (Clocked.run (step obs view) acts (reset engines : Board α host cfg) t).gIrqMasked
        (Clocked.run (step obs view) acts (reset engines : Board α host cfg) v) := by
    intro v htv
    induction v, htv using Nat.le_induction with
    | base =>
      intro _
      obtain ⟨hline, hstep⟩ := step_enter h.before (h.inside (t + 1) (by omega) h.long)
      rw [Clocked.run_succ, hstep]
      exact .enter rfl rfl hline
    | succ v htv ih => exact fun hv => handling_step (ih (by omega)) (h.inside v htv hv)
  obtain ⟨hline, hmask⟩ : ((Clocked.run (step obs view) acts (reset engines : Board α host cfg) t).gIrqMasked = true →
      (Clocked.run (step obs view) acts (reset engines : Board α host cfg) u).irqLine = true) ∧
      ((Clocked.run (step obs view) acts (reset engines : Board α host cfg) t).gIrqMasked = false →
        (Clocked.run (step obs view) acts (reset engines : Board α host cfg) u).AllMasked) := by
    have hlong := h.long
    have hafter := h.after
    cases hhandling u (by omega) le_rfl with
    | enter hi => rw [hafter] at hi; cases hi
    | mask i hi => rw [hafter] at hi; cases hi
    | maskWrite i control hi => rw [hafter] at hi; cases hi
    | give hi hl hm => exact ⟨hl, hm⟩
  constructor
  · intro hlow
    rw [← Bool.not_eq_true]
    intro hflag
    have hu := hlow u le_rfl fun x hx hx' => by omega
    rw [hline hflag] at hu
    cases hu
  · intro hflag v huv hno
    have hall : (Clocked.run (step obs view) acts (reset engines : Board α host cfg) v).AllMasked := by
      induction v, huv using Nat.le_induction with
      | base => exact hmask hflag
      | succ v huv ih =>
        exact allMasked_step (ih fun x hx hx' => hno x hx (by omega)) (lists_run engines acts v) (hno v huv (by omega))
    exact hall.irqLine

end Board

/-! ## An interrupt while the worker unmasks -/

/-- Two instances. -/
def twoInstances : HostCfg :=
  ⟨2, 2, 2 * 2 * 250000000 / 512, 1000, Nat.two_pos, twoEngines.numEngines_lt, appConfig.tickRateHz_pos⟩

/-- The operator stops all instances. -/
def stopAll : List (Action twoInstances.instances) := [.service ⟨0, by decide⟩ .stop, .service ⟨1, by decide⟩ .stop]

/-- `miner_task` up to its main loop. -/
def bootActions : List (Action twoInstances.instances) := List.replicate 12 (.worker 0)

/-- An interrupt and the accesses of a handler that masks. -/
def maskActions : List (Action twoInstances.instances) := .interrupt :: List.replicate 7 .handler

/-- Woken, the worker drains, clears, and unmasks the first instance. -/
def unmaskFirst : List (Action twoInstances.instances) := List.replicate 13 (.worker 0)

/-- The instances are stopped again before the second one is unmasked. -/
def unmaskRace : List (Action twoInstances.instances) :=
  bootActions ++ stopAll ++ maskActions ++ unmaskFirst ++ stopAll ++ maskActions ++ [.worker 0, .worker 0] ++
    [.interrupt, .handler, .handler]

/-- The board after `t` actions of the race. -/
def raceAt (t : Nat) : Board Word twoInstances twoEngines :=
  Clocked.run (Board.step Engine.resultNonceO id) (fun t => unmaskRace.getD t .edge) (Board.reset fun _ _ => default) t

/-- The first handler finds the flag clear and leaves the line low. -/
theorem first_handler_masks : Board.LineLow (fun t => unmaskRace.getD t .edge) raceAt 22 := by
  have hinside : ∀ v < 22, 14 < v → (raceAt v).isr ≠ none := by decide +kernel
  exact (Board.line_low_iff (fun _ _ => default) (fun t => unmaskRace.getD t .edge) 14 22
    ⟨by decide, by decide +kernel, fun v hv hv' => hinside v hv' hv, by decide +kernel⟩).2 (by decide +kernel)

/-- The last handler finds the flag set behind the worker's back and masks nothing. -/
theorem late_handler_leaves_line_high : ¬ ∀ (host : HostCfg) (cfg : MinerCfg)
    (engines : Fin host.instances → Fin cfg.numEngines → Engine) (acts : Nat → Action host.instances) (t u : Nat),
    Board.Handles (Clocked.run (Board.step Engine.resultNonceO id) acts (Board.reset engines : Board Word host cfg)) t u →
    (Clocked.run (Board.step Engine.resultNonceO id) acts (Board.reset engines : Board Word host cfg) u).irqLine = false := by
  intro h
  have hinside : ∀ v < 50, 47 < v → (raceAt v).isr ≠ none := by decide +kernel
  have hlow := h twoInstances twoEngines (fun _ _ => default) (fun t => unmaskRace.getD t .edge) 47 50
    ⟨by decide, by decide +kernel, fun v hv hv' => hinside v hv' hv, by decide +kernel⟩
  revert hlow
  decide +kernel

end Vek280Miner
