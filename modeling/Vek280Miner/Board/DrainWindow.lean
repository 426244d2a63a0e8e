import Mathlib.Algebra.BigOperators.Intervals
import Mathlib.Data.Multiset.OrderedMonoid
import Vek280Miner.Board.Instances
import Vek280Miner.Board.ResultEvents
import Vek280Miner.Rtl.DiscardResults
import Vek280Miner.Rtl.PendingResults

/-!
# Results between the drain and the unmask

The worker drains the instances until `miner_read_result` finds nothing, then clears and unmasks them. A result that
becomes visible in an instance after the drain has looked at it for the last time is to be there when the instance is
unmasked. The clear discards it: `CONTROL.clear` empties the result register and, two edges later, the FIFOs, and the
write to `RESULT_STATUS` that follows empties the register again. As long as these find nothing to discard, nothing is
lost (`candidates_kept`). A result that reaches the register between the drain and the clear is lost
(`late_result_discarded`).
-/

namespace Vek280Miner

open Rtl Sw

namespace Board

variable {α : Type} {host : HostCfg} {cfg : MinerCfg} {s : Board α host cfg} {view : α → Word} {obs : Engine → α}
  {a : Action host.instances} {k : Fin host.instances}

/-- The engine number that `miner_read_result` returns for an engine of instance `k`. -/
def hostEngine (host : HostCfg) (k : Fin host.instances) (engine : Word) : Word :=
  engine + BitVec.ofNat 32 k * host.enginesPerInstance

/-- The results that can be read from instance `k`, as `miner_read_result` would return them. -/
def visible (view : α → Word) (k : Fin host.instances) (s : Board α host cfg) : Multiset (Word × Word) :=
  (s.hw k).pending.map fun x => (hostEngine host k x.1, view x.2)

/-- The worker acknowledges the result that it has read from instance `k`. -/
def Acks (k : Fin host.instances) (a : Action host.instances) (s : Board α host cfg) : Prop :=
  s.isr = none ∧ ∃ now result tag, a = .worker now ∧ s.pc = .resultClear k result tag

/-- What `miner_read_result` returns from instance `k` with an action. -/
def returned (k : Fin host.instances) (a : Action host.instances) (s : Board α host cfg) : Multiset (Word × Word) :=
  match a, s.isr, s.pc with
  | .worker _, none, .resultClear inst result _ => if inst = k then {(result.engine, result.nonce)} else 0
  | _, _, _ => 0

/-- An action that discards nothing that can be read from instance `k`: a write that empties the result register, other
than the acknowledgement of the worker, finds it empty, and an edge at which a FIFO is cleared finds nothing in it but
what it captures. -/
structure Spares (k : Fin host.instances) (a : Action host.instances) (s : Board α host cfg) : Prop where
  register : ∀ w, s.edgeOf a = some (some w) → w.inst = k → ¬ Acks k a s → (s.hw k).empties (some w.write) = true →
    (s.hw k).resultValidQ = false
  fifos : (s.edgeOf a).isSome = true → (s.hw k).cleared = 0

/-- What the worker has read of instance `k` is in the result register. -/
def ReadsHeld (view : α → Word) (k : Fin host.instances) (s : Board α host cfg) : Prop :=
  match s.pc with
  | .resultNonce inst _ => inst = k → (s.hw k).resultValidQ = true
  | .resultEngine inst _ nonce _ => inst = k → (s.hw k).resultValidQ = true ∧ nonce = view (s.hw k).resultNonceQ
  | .resultClear inst result _ => inst = k → (s.hw k).resultValidQ = true ∧ result.nonce = view (s.hw k).resultNonceQ ∧
      result.engine = hostEngine host k (s.hw k).resultEngineQ
  | _ => True

/-- The worker is not reading a result of instance `k`. -/
def NotReading (k : Fin host.instances) (s : Board α host cfg) : Prop :=
  match s.pc with
  | .resultNonce inst _ | .resultEngine inst _ _ _ | .resultClear inst _ _ => inst ≠ k
  | _ => True

section Steps

variable [Inhabited α]

/-- A result that is being read stays in the register. -/
theorem held_step (hs : Spares k a s) (hna : ¬ Acks k a s) (hv : (s.hw k).resultValidQ = true) :
    ((s.step obs view a).hw k).resultValidQ = true ∧
      ((s.step obs view a).hw k).resultPair = (s.hw k).resultPair := by
  rcases inst_step s obs view a k with hk | ⟨w, hk, hw⟩
  · rw [hk]
    exact ⟨hv, rfl⟩
  · rw [hk]
    refine ⟨?_, (resultPair_step hv).1⟩
    have hc : (s.hw k).capture = none := by simp [MinerCore.capture, hv]
    have he : (s.hw k).empties w = false := by
      rw [← Bool.not_eq_true]
      intro he
      cases w with
      | none => simp [MinerCore.empties, MinerCore.startsLoad] at he
      | some v =>
        obtain ⟨r, hr, hinst, rfl⟩ := hw v rfl
        rw [hs.register r hr hinst hna he] at hv
        cases hv
    simp only [MinerCore.empties, Bool.or_eq_false_iff] at he
    simp [MinerCore.step, hc, hv, he]

/-- Without a write an action of the worker leaves the instances alone. -/
theorem hw_worker {now : Word} (hi : s.isr = none) (hw : s.pc.write = none) :
    (s.step obs view (.worker now)).hw = s.hw := by
  rw [hw_step]
  simp [edgeOf, hi, hw]

/-- After the acknowledgement the result is sent. -/
theorem pc_acks (h : Acks k a s) : ∃ result tag, (s.step obs view a).pc = .sendEvent result tag := by
  obtain ⟨hi, now, result, tag, rfl, hpc⟩ := h
  refine ⟨result, tag, ?_⟩
  simp only [step, hi]
  rw [(frame_apply _ obs _).1]
  simp only [advance, hpc]

theorem readsHeld_step (hs : Spares k a s) (h : ReadsHeld view k s) : ReadsHeld view k (s.step obs view a) := by
  by_cases hack : Acks k a s
  · obtain ⟨result, tag, hpc⟩ := @pc_acks _ _ _ _ view obs _ _ _ hack
    unfold ReadsHeld
    rw [hpc]
    trivial
  rcases pc_step s obs view a with hpc | ⟨now, rfl, hi, hpc⟩
  · -- the worker stays where it is
    have hstay := fun hv => @held_step _ _ _ _ view obs _ _ _ hs hack hv
    unfold ReadsHeld at h ⊢
    rw [hpc]
    cases hpc' : s.pc with
    | resultNonce inst status =>
      rw [hpc'] at h
      exact fun hk => (hstay (h hk)).1
    | resultEngine inst status nonce tag =>
      rw [hpc'] at h
      intro hk
      obtain ⟨hv, hn⟩ := h hk
      obtain ⟨hv', hp⟩ := hstay hv
      exact ⟨hv', hn.trans (congrArg (fun p => view p.2) hp).symm⟩
    | resultClear inst result tag =>
      rw [hpc'] at h
      intro hk
      obtain ⟨hv, hn, he⟩ := h hk
      obtain ⟨hv', hp⟩ := hstay hv
      exact ⟨hv', hn.trans (congrArg (fun p => view p.2) hp).symm,
        he.trans (congrArg (fun p => hostEngine host k p.1) hp).symm⟩
    | _ => trivial
  · have hr := reads_advance s view now
    unfold ReadsHeld
    rw [hpc]
    generalize (s.advance view now).pc = pc' at hr
    cases pc' with
    | resultNonce inst status =>
      obtain ⟨hpc', hread, hbit⟩ := hr
      rintro rfl
      rw [hw_worker hi (by rw [hpc']; rfl)]
      rw [← hread] at hbit
      exact (readReg_resultStatus view _).1 hbit
    | resultEngine inst status nonce tag =>
      obtain ⟨hpc', hread, htag⟩ := hr
      rintro rfl
      unfold ReadsHeld at h
      rw [hpc'] at h
      rw [hw_worker hi (by rw [hpc']; rfl)]
      exact ⟨h rfl, hread.symm⟩
    | resultClear inst result tag =>
      obtain ⟨hpc', hread⟩ := hr
      rintro rfl
      unfold ReadsHeld at h
      rw [hpc'] at h
      rw [hw_worker hi (by rw [hpc']; rfl)]
      exact ⟨(h rfl).1, (h rfl).2, hread.symm⟩
    | _ => trivial

theorem notReading_step (h : NotReading k s) (ha : ∀ now, a = .worker now → s.pc ≠ .resultStatus k) :
    NotReading k (s.step obs view a) := by
  rcases pc_step s obs view a with hpc | ⟨now, rfl, hi, hpc⟩
  · unfold NotReading at h ⊢
    rwa [hpc]
  · have hr := reads_advance s view now
    unfold NotReading at h ⊢
    rw [hpc]
    generalize (s.advance view now).pc = pc' at hr
    cases pc' with
    | resultNonce inst status =>
      rintro rfl
      exact ha now rfl hr.1
    | resultEngine inst status nonce tag =>
      rw [hr.1] at h
      exact h
    | resultClear inst result tag =>
      rw [hr.1] at h
      exact h
    | _ => trivial

/-- The results that reach a FIFO of instance `k` with an action. -/
def reaching (view : α → Word) (k : Fin host.instances) (a : Action host.instances) (s : Board α host cfg) :
    Multiset (Word × Word) :=
  if (s.edgeOf a).isSome then (s.hw k).arriving.map fun x => (hostEngine host k x.1, view x.2) else 0

omit [Inhabited α] in
theorem returned_of_not_acks (h : ¬ Acks k a s) : returned k a s = 0 := by
  unfold returned
  split
  · rename_i now inst result tag hi hpc
    refine if_neg fun hk => h ⟨hi, now, result, tag, rfl, ?_⟩
    rw [← hk]
    exact hpc
  · rfl

/-- **The books of an action.** -/
theorem visible_balance (hp : (s.hw k).PopHeld) (hs : Spares k a s) (hr : ReadsHeld view k s) :
    visible view k (s.step obs view a) + returned k a s = visible view k s + reaching view k a s := by
  unfold visible reaching
  rw [hw_step]
  cases he : s.edgeOf a with
  | none =>
    have hna : ¬ Acks k a s := by
      rintro ⟨hi, now, result, tag, rfl, hpc⟩
      simp [edgeOf, hi, hpc, Pc.write] at he
    rw [returned_of_not_acks hna]
    rfl
  | some w =>
    have hbal := @MinerCore.pending_balance _ _ _ _ obs (writeTo k w) hp
    rw [hs.fifos (by rw [he]; rfl), add_zero] at hbal
    by_cases hack : Acks k a s
    · -- the acknowledgement takes what has been read
      obtain ⟨hi, now, result, tag, rfl, hpc⟩ := hack
      unfold ReadsHeld at hr
      rw [hpc] at hr
      obtain ⟨hv, hn, hen⟩ := hr rfl
      have hw : w = some ⟨k, minerRegResultStatus, minerResultStatusResult⟩ := by
        simpa [edgeOf, hi, hpc, Pc.write] using he.symm
      have hempties : (s.hw k).empties (writeTo k w) = true := by
        have hclear : (⟨writeSel minerRegResultStatus, minerResultStatusResult, 0xf⟩ : Write).clearValid = true := by decide
        rw [hw, writeTo_some, if_pos rfl]
        simp only [MinerCore.empties, Option.any_some, Bool.or_eq_true]
        exact .inl (.inl hclear)
      have hreturned : returned k (.worker now) s = (s.hw k).held.map fun x => (hostEngine host k x.1, view x.2) := by
        simp [returned, hi, hpc, MinerCore.held, hv, MinerCore.resultPair, hn, hen]
      rw [hempties, if_pos rfl] at hbal
      rw [hreturned]
      simp only [Option.elim_some, Option.isSome_some, if_true]
      rw [← Multiset.map_add, hbal, Multiset.map_add]
    · have hkept : (if (s.hw k).empties (writeTo k w) then (s.hw k).held else 0) = 0 := by
        cases hem : (s.hw k).empties (writeTo k w) with
        | false => rfl
        | true =>
          cases w with
          | none => simp [writeTo, MinerCore.empties, MinerCore.startsLoad] at hem
          | some r =>
            rw [writeTo_some] at hem
            by_cases hk : r.inst = k
            · rw [if_pos hk] at hem
              simp [MinerCore.held, hs.register r he hk hack hem]
            · simp [hk, MinerCore.empties, MinerCore.startsLoad] at hem
      rw [hkept, add_zero] at hbal
      rw [returned_of_not_acks hack, add_zero]
      simp only [Option.elim_some, Option.isSome_some, if_true]
      rw [hbal, Multiset.map_add]

/-! ## A pass of the worker -/

/-- The worker looks at instance `k` for the last time at `t0`, where it finds no result, and unmasks it at `t2`. -/
structure Pass (acts : Nat → Action host.instances) (st : Nat → Board α host cfg) (k : Fin host.instances) (t0 t2 : Nat) :
    Prop where
  lt : t0 < t2
  examines : ∃ now, acts t0 = .worker now ∧ (st t0).isr = none ∧ (st t0).pc = .resultStatus k
  nothing : ((st t0).hw k).resultValidQ = false
  last : ∀ t, t0 < t → t < t2 → ∀ now, acts t = .worker now → (st t).pc ≠ .resultStatus k
  unmasks : ∃ now control, acts t2 = .worker now ∧ (st t2).isr = none ∧ (st t2).pc = .unmaskWrite false k control

theorem popHeld_run (engines : Fin host.instances → Fin cfg.numEngines → Engine) (acts : Nat → Action host.instances) (t : Nat)
    (k : Fin host.instances) : ((Clocked.run (step obs view) acts (reset engines : Board α host cfg) t).hw k).PopHeld := by
  refine Clocked.run_invariant (P := fun s : Board α host cfg => (s.hw k).PopHeld) (s := reset engines)
    (MinerCore.popHeld_reset (engines k)) (fun a s h => ?_) t
  rcases inst_step s obs view a k with hk | ⟨w, hk, -⟩
  · rw [hk]
    exact h
  · rw [hk]
    exact MinerCore.popHeld_step (s.hw k)

/-- **Nothing is lost.** In every run and for every pass of the worker over an instance: while every action spares what
can be read from the instance, what becomes visible there after the drain has looked for the last time is visible when
the instance is unmasked, and from then on it stays visible until `miner_read_result` returns it. -/
theorem candidates_kept (engines : Fin host.instances → Fin cfg.numEngines → Engine) (acts : Nat → Action host.instances)
    (k : Fin host.instances) (t0 t2 t3 : Nat)
    (hpass : Pass acts (Clocked.run (step obs view) acts (reset engines : Board α host cfg)) k t0 t2) (h23 : t2 ≤ t3)
    (hs : ∀ t, t0 ≤ t → t < t3 →
      Spares k (acts t) (Clocked.run (step obs view) acts (reset engines : Board α host cfg) t)) :
    let st := Clocked.run (step obs view) acts (reset engines : Board α host cfg)
    (∀ t, t0 ≤ t → t ≤ t2 → visible view k (st t) ≤ visible view k (st t2)) ∧
      visible view k (st t2) ≤ visible view k (st t3) + ∑ t ∈ Finset.Ico t2 t3, returned k (acts t) (st t) := by
  intro st
  obtain ⟨now0, ha0, hi0, hpc0⟩ := hpass.examines
  have hreads : ∀ t, t0 ≤ t → t ≤ t3 → ReadsHeld view k (st t) := by
    intro t ht
    induction t, ht using Nat.le_induction with
    | base =>
      intro _
      unfold ReadsHeld
      rw [show (st t0).pc = _ from hpc0]
      trivial
    | succ t ht ih => exact fun ht' => readsHeld_step (hs t ht ht') (ih (by omega))
  have hbal : ∀ t, t0 ≤ t → t < t3 →
      visible view k (st (t + 1)) + returned k (acts t) (st t) = visible view k (st t) + reaching view k (acts t) (st t) :=
    fun t ht ht' => visible_balance (popHeld_run engines acts t k) (hs t ht ht') (hreads t ht (by omega))
  -- over any part of the window, what was visible is visible or has been returned
  have hpart : ∀ a b, t0 ≤ a → a ≤ b → b ≤ t3 →
      visible view k (st a) ≤ visible view k (st b) + ∑ t ∈ Finset.Ico a b, returned k (acts t) (st t) := by
    intro a b ha hab
    induction b, hab using Nat.le_induction with
    | base => simp
    | succ b hab ih =>
      intro hb
      have hstep := hbal b (by omega) (by omega)
      rw [Finset.sum_Ico_succ_top hab]
      calc visible view k (st a)
          ≤ visible view k (st b) + ∑ t ∈ Finset.Ico a b, returned k (acts t) (st t) := ih (by omega)
        _ ≤ visible view k (st b) + reaching view k (acts b) (st b) + ∑ t ∈ Finset.Ico a b, returned k (acts t) (st t) :=
            add_le_add_left le_self_add _
        _ = _ := by rw [← hstep, add_assoc, add_comm (returned k (acts b) (st b))]
  -- between the two the worker reads no result of the instance
  have hnot : ∀ t, t0 + 1 ≤ t → t ≤ t2 → NotReading k (st t) := by
    intro t ht
    induction t, ht using Nat.le_induction with
    | base =>
      intro _
      have hpc : (st (t0 + 1)).pc = ((st t0).advance view now0).pc := by
        show (step obs view (acts t0) (st t0)).pc = _
        rw [ha0]
        simp only [step, show (st t0).isr = none from hi0]
        exact (frame_apply _ obs _).1
      unfold NotReading
      rw [hpc]
      have hread := reads_advance (st t0) view now0
      generalize ((st t0).advance view now0).pc = pc' at hread
      cases pc' with
      | resultNonce inst status =>
        obtain ⟨hpc', hstatus, hbit⟩ := hread
        rintro rfl
        rw [← hstatus] at hbit
        have hv := (readReg_resultStatus view _).1 hbit
        rw [show ((st t0).hw inst).resultValidQ = false from hpass.nothing] at hv
        cases hv
      | resultEngine inst status nonce tag => exact absurd (hread.1.symm.trans hpc0) (by simp)
      | resultClear inst result tag => exact absurd (hread.1.symm.trans hpc0) (by simp)
      | _ => trivial
    | succ t ht ih => exact fun ht' => notReading_step (ih (by omega)) (hpass.last t ht ht')
  refine ⟨fun t ht ht2 => ?_, hpart t2 t3 (by have := hpass.lt; omega) h23 le_rfl⟩
  have hsum : ∑ u ∈ Finset.Ico t t2, returned k (acts u) (st u) = 0 := by
    refine Finset.sum_eq_zero fun u hu => returned_of_not_acks ?_
    rintro ⟨-, now, result, tag, -, hpc⟩
    obtain ⟨htu, hut⟩ := Finset.mem_Ico.1 hu
    rcases Nat.eq_or_lt_of_le (Nat.le_trans ht htu) with rfl | hlt
    · exact absurd (hpc.symm.trans hpc0) (by simp)
    · have hno := hnot u hlt (by omega)
      unfold NotReading at hno
      rw [hpc] at hno
      exact hno rfl
  have h := hpart t t2 ht ht2 h23
  rwa [hsum, add_zero] at h

end Steps

end Board

open Board

/-- An instance from which nothing can be read is spared by every action. -/
theorem spares_of_empty {α : Type} {host : HostCfg} {cfg : MinerCfg} {s : Board α host cfg} {k : Fin host.instances}
    {a : Action host.instances} (hpath : AllResults (fun _ => False) (s.hw k)) (hv : (s.hw k).resultValidQ = false) :
    Spares k a s := by
  refine ⟨fun _ _ _ _ _ => hv, fun _ => Finset.sum_eq_zero fun c _ => ?_⟩
  have hring : ((s.hw k).fifos c).ring.toList = [] :=
    (ClusterFifo.inFlight_eq_zero.1 (ClusterFifo.all_false_iff.1 (hpath c))).2.2
  simp [ClusterFifo.cleared, ClusterFifo.queue, hring]

/-- Only `CONTROL` and `RESULT_STATUS` empty the register. -/
theorem empties_of_sel {α : Type} {cfg : MinerCfg} {m : MinerCore α cfg} {w : Write} (hc : w.sel ≠ .control)
    (hr : w.sel ≠ .resultStatus) : m.empties (some w) = false := by
  simp [MinerCore.empties, MinerCore.startsLoad, Write.clearValid, Write.clearResults, Write.start, hc, hr]

/-- An action that writes nothing which empties the register, at an edge at which no FIFO is cleared, spares all. -/
theorem spares_of_noClear {α : Type} {host : HostCfg} {cfg : MinerCfg} {s : Board α host cfg} {k : Fin host.instances}
    {a : Action host.instances} (hw : ∀ w, s.edgeOf a = some (some w) → (s.hw k).empties (some w.write) = false)
    (hno : NoClear (s.hw k)) : Spares k a s := by
  refine ⟨fun w he _ _ hem => ?_, fun _ => Finset.sum_eq_zero fun c _ => ?_⟩
  · rw [hw w he] at hem
    cases hem
  · simp [ClusterFifo.cleared, hno.fifos c]

/-! ## One nonce on its way to the register -/

section Evaluation

variable {L : Latched} {n r : Word} {d : Words 8} {a : Nat} {m : MinerCore Traced oneEngine}

/-- With nothing in flight and nothing in the register there is nothing to read. -/
theorem pending_of_empty {α : Type} {cfg : MinerCfg} {s : MinerCore α cfg} (hz : s.inFlight = 0) (hv : s.resultValidQ = false) :
    s.pending = 0 := by
  have hq : ∀ c, (s.fifos c).queue (s.clusterPopQ c) = [] := fun c =>
    (ClusterFifo.inFlight_eq_zero.1 (inFlight_eq_zero_iff.1 hz c)).2.2
  simp [MinerCore.pending, MinerCore.held, hv, hq]

/-- The engine is `a` edges into the evaluation of a nonce and is not stopped. -/
def Scanning (a : Nat) (m : MinerCore Traced oneEngine) : Prop :=
  m.engineStopQ engine0 = false ∧ ∃ L n r d, EvalAt oneEngine.engine L n r d a (m.engines engine0)

/-- No engine is stopped by a write that does not stop. -/
theorem engineStopQ_step {w : Option Write} (hw : ∀ v, w = some v → v.stop = false) :
    (m.step traced w).engineStopQ engine0 = false := by
  cases w with
  | none => rfl
  | some v => exact hw v rfl

theorem Scanning.step (h : Scanning a m) (ha : a < reportAge) {w : Option Write} (hw : ∀ v, w = some v → v.stop = false) :
    Scanning (a + 1) (m.step traced w) := by
  obtain ⟨hstop, L, n, r, d, heval⟩ := h
  exact ⟨engineStopQ_step hw, L, n, r, d, evalAt_step heval hstop ha⟩

theorem Scanning.silent (h : Scanning a m) (ha : a < reportAge) : Silent m := by
  obtain ⟨-, L, n, r, d, heval⟩ := h
  intro e
  rw [eq_engine0 e, ← Bool.not_eq_true]
  intro hv
  exact absurd (heval.valid_iff.1 hv).1 ha.ne

/-- While the engine evaluates, nothing gets under way, whatever is written but a stop. -/
theorem evaluates {w : Nat → Option Write} (hw : ∀ t v, w t = some v → v.stop = false)
    (heval : EvalAt oneEngine.engine L n r d 0 (m.engines engine0)) (hstop : m.engineStopQ engine0 = false)
    (hpath : AllResults (fun _ => False) m) (hv : m.resultValidQ = false) {t : Nat} (ht : t ≤ reportAge) :
    let mt := Clocked.run (MinerCore.step traced) w m t
    (EvalAt oneEngine.engine L n r d t (mt.engines engine0) ∧ mt.engineStopQ engine0 = false) ∧
      AllResults (fun _ => False) mt ∧ mt.resultValidQ = false := by
  induction t with
  | zero => exact ⟨⟨heval, hstop⟩, hpath, hv⟩
  | succ t ih =>
    obtain ⟨⟨he, hs⟩, hp, hv'⟩ := ih (by omega)
    have hsilent := Scanning.silent ⟨hs, L, n, r, d, he⟩ (show t < reportAge by omega)
    exact ⟨⟨evalAt_step he hs (show t < reportAge by omega), engineStopQ_step (hw t)⟩, empty_step hsilent hp hv'⟩

/-- The engine reports at most one result at an edge. -/
theorem card_raised_le (m : MinerCore Traced oneEngine) : (m.raised traced).card ≤ 1 := by
  have huniv : (Finset.univ : Finset (Fin oneEngine.numEngines)) = {engine0} := by decide
  unfold MinerCore.raised
  rw [huniv, Finset.sum_singleton]
  split <;> simp

theorem raised_of_silent (h : Silent m) : m.raised traced = 0 := by
  rw [← MinerCore.sum_reports]
  exact Finset.sum_eq_zero fun c _ => h.reports c

/-- A nonce that meets the target when it is checked is alone in the result register four edges later. -/
theorem report_held (hno : NoClear m) (hp : m.PopHeld) (heval : EvalAt oneEngine.engine L n r d reportAge (m.engines engine0))
    (hstop : m.engineStopQ engine0 = false) (hpath : AllResults (fun _ => False) m) (hv : m.resultValidQ = false)
    (hr : ¬ r ≤ 1) (hL : beValue (pass2Digest d) ≤ beValue L.target) :
    let m4 := (((m.step traced none).step traced none).step traced none).step traced none
    m4.resultValidQ = true ∧ m4.inFlight = 0 ∧ NoClear m4 ∧ Scanning 3 m4 := by
  intro m4
  have hage : 4 < reportAge := by decide
  have hrep : ¬ Silent m := by
    intro hs
    have hlow := hs engine0
    rw [heval.valid_iff.2 ⟨rfl, hL⟩] at hlow
    cases hlow
  have hscan1 : Scanning 0 (m.step traced none) := ⟨rfl, _, _, _, _, evalAt_next heval hstop hr⟩
  have hscan2 := hscan1.step (w := none) (by omega) (by simp)
  have hscan3 := hscan2.step (w := none) (by omega) (by simp)
  have hno1 : NoClear (m.step traced none) := noClear_step hno (by simp)
  have hno2 := @noClear_step _ _ _ traced none _ hno1 (by simp)
  have hno3 := @noClear_step _ _ _ traced none _ hno2 (by simp)
  obtain ⟨-, hcap⟩ := @report_queued _ _ _ traced _ hno hpath hv hrep
  obtain ⟨c, hc⟩ := Option.ne_none_iff_exists'.1 hcap
  refine ⟨(step_of_capture traced none hc).1, ?_, noClear_step hno3 (by simp), hscan3.step (by omega) (by simp)⟩
  -- one result has been reported and it has been captured
  have hz := inFlight_of_empty hp hpath hv
  have hb0 := congrArg Multiset.card (@MinerCore.core_balance _ _ _ traced none _ hp hno.fifos)
  have hb1 := congrArg Multiset.card (@MinerCore.core_balance _ _ _ traced none _ (MinerCore.popHeld_step m) hno1.fifos)
  have hb2 := congrArg Multiset.card (@MinerCore.core_balance _ _ _ traced none _ (MinerCore.popHeld_step _) hno2.fifos)
  have hb3 := congrArg Multiset.card (@MinerCore.core_balance _ _ _ traced none _ (MinerCore.popHeld_step _) hno3.fifos)
  have hraised := card_raised_le m
  have hcaptured : Multiset.card (((m.step traced none).step traced none).step traced none).captured = 1 := by
    simp [MinerCore.captured, hc]
  rw [raised_of_silent (hscan1.silent (by omega))] at hb1
  rw [raised_of_silent (hscan2.silent (by omega))] at hb2
  rw [raised_of_silent (hscan3.silent (by omega))] at hb3
  simp only [Multiset.card_add, Multiset.card_zero, hz] at hb0 hb1 hb2 hb3
  refine Multiset.card_eq_zero.1 ?_
  show Multiset.card ((((m.step traced none).step traced none).step traced none).step traced none).inFlight = 0
  omega

/-- Two edges after the last write no FIFO is being cleared. -/
theorem noClear_behind {w : Nat → Option Write} {t : Nat} (hw : ∀ u, t ≤ u → w u = none) {u : Nat} (hu : t + 2 ≤ u) :
    NoClear (Clocked.run (MinerCore.step traced) w m u) := by
  obtain ⟨k, rfl⟩ : ∃ k, u = k + 2 := ⟨u - 2, by omega⟩
  rw [Clocked.run_succ, Clocked.run_succ, hw k (by omega), hw (k + 1) (by omega)]
  exact ⟨rfl, rfl, rfl, fun c => ClusterFifo.clearQ_step _⟩

/-- A nonce that meets the target is alone in the result register four edges after its check. -/
theorem evaluation_held {w : Nat → Option Write} {t : Nat} (hw : ∀ u, t ≤ u → w u = none) (hr : ¬ r ≤ 1)
    (hL : beValue (pass2Digest d) ≤ beValue L.target) {u : Nat} (hu : t + 2 ≤ u) :
    let mt := Clocked.run (MinerCore.step traced) w m
    EvalAt oneEngine.engine L n r d reportAge ((mt u).engines engine0) → (mt u).engineStopQ engine0 = false →
      AllResults (fun _ => False) (mt u) → (mt u).resultValidQ = false →
      (mt (u + 4)).PopHeld ∧ (mt (u + 4)).resultValidQ = true ∧ (mt (u + 4)).inFlight = 0 ∧ NoClear (mt (u + 4)) ∧
        Scanning 3 (mt (u + 4)) := by
  intro mt heval hstop hpath hv
  have hstep : ∀ v, t ≤ v → mt (v + 1) = (mt v).step traced none := by
    intro v hv
    show (mt v).step traced (w v) = _
    rw [hw v hv]
  have hpop : (mt u).PopHeld := by
    obtain ⟨k, rfl⟩ : ∃ k, u = k + 1 := ⟨u - 1, by omega⟩
    exact MinerCore.popHeld_step _
  have hheld := report_held (noClear_behind hw hu) hpop heval hstop hpath hv hr hL
  rw [← hstep u (by omega), ← hstep (u + 1) (by omega), ← hstep (u + 2) (by omega), ← hstep (u + 3) (by omega)] at hheld
  exact ⟨MinerCore.popHeld_step _, hheld⟩

/-- The two writes of the clear leave nothing that could be read. -/
theorem cleared_of_held (hp : m.PopHeld) (hno : NoClear m) (hscan : Scanning 3 m) (hv : m.resultValidQ = true)
    (hz : m.inFlight = 0) {w v : Write} (hw : w.clearResults = true) (hs : w.stop = false) :
    ((m.step traced (some w)).step traced (some v)).pending = 0 := by
  have hage : 4 < reportAge := by decide
  have hcap : m.capture = none := by simp [MinerCore.capture, hv]
  have hpath1 : AllResults (fun _ => False) (m.step traced (some w)) :=
    allResults_of_inFlight hp hno.fifos (hscan.silent (by omega)) hz hcap
  have hv1 : (m.step traced (some w)).resultValidQ = false := by simp [MinerCore.step, hcap, hw]
  have hscan1 : Scanning 4 (m.step traced (some w)) := by
    refine hscan.step (by omega) fun u hu => ?_
    obtain rfl := Option.some.inj hu
    exact hs
  obtain ⟨hpath2, hv2⟩ := @empty_step _ _ _ traced (some v) _ (hscan1.silent hage) hpath1 hv1
  exact pending_of_empty (inFlight_of_empty (MinerCore.popHeld_step _) hpath2 hv2) hv2

/-- What is in the register can be read. -/
theorem visible_of_held {s : Board Traced oneInstance oneEngine} (hv : (s.hw instance0).resultValidQ = true) :
    visible Prod.fst instance0 s ≠ 0 := by
  rw [visible, Ne, Multiset.map_eq_zero, MinerCore.pending, add_eq_zero, MinerCore.held, hv]
  simp

theorem hw_edge {host : HostCfg} {cfg : MinerCfg} (s : Board Traced host cfg) (k : Fin host.instances) :
    (s.step traced Prod.fst .edge).hw k = (s.hw k).step traced none := rfl

/-- Edges of the board are edges of its instances. -/
theorem run_edges {host : HostCfg} {cfg : MinerCfg} (s : Board Traced host cfg) : ∀ t,
    Clocked.run (step traced Prod.fst) (fun _ => .edge) s t =
      { s with hw := fun k => Clocked.run (MinerCore.step traced) (fun _ => none) (s.hw k) t }
  | 0 => rfl
  | t + 1 => by
    rw [Clocked.run_succ, run_edges s t]
    rfl

/-- The worker stands at `pc`, `g_irq_masked` is `m`, and the instances are `hw`. -/
structure StandsAt (pc : Pc Traced oneInstance.instances) (m : Bool)
    (hw : Fin oneInstance.instances → MinerCore Traced oneEngine) (s : Board Traced oneInstance oneEngine) : Prop where
  isr : s.isr = none
  pc : s.pc = pc
  masked : s.gIrqMasked = m
  hw : s.hw = hw

section StandsAt

variable {s : Board Traced oneInstance oneEngine} {pc : Pc Traced oneInstance.instances} {m : Bool}
  {hw : Fin oneInstance.instances → MinerCore Traced oneEngine}

theorem StandsAt.worker (h : StandsAt pc m hw s) :
    s.step traced Prod.fst (.worker 0) = (s.advance Prod.fst 0).apply traced pc.write := by
  simp only [step, h.isr, h.pc]

/-- The drain ends behind the last instance. -/
theorem StandsAt.drained (h : StandsAt (.resultStatus 1) m hw s) :
    StandsAt .testMasked m hw (s.step traced Prod.fst (.worker 0)) := by
  have hadv : s.advance Prod.fst 0 = { s with pc := .testMasked } := by
    simp only [advance, h.pc]
    exact dif_neg (by decide)
  rw [h.worker, hadv]
  exact ⟨h.isr, rfl, h.masked, h.hw⟩

theorem StandsAt.masked_clear (h : StandsAt .testMasked true hw s) :
    StandsAt (.clear minerClear) true hw (s.step traced Prod.fst (.worker 0)) := by
  have hadv : s.advance Prod.fst 0 = { s with pc := .clear minerClear } := by
    simp only [advance, h.pc, h.masked, if_true]
  rw [h.worker, hadv]
  exact ⟨h.isr, rfl, h.masked, h.hw⟩

/-- A write of `miner_clear`; there is one instance that it can be for. -/
theorem StandsAt.clear {w : RegWrite oneInstance.instances} {l : List (RegWrite oneInstance.instances)}
    (h : StandsAt (.clear (w :: l)) m hw s) :
    StandsAt (.clear l) m (fun k => (hw k).step traced (some w.write)) (s.step traced Prod.fst (.worker 0)) := by
  have hadv : s.advance Prod.fst 0 = { s with pc := .clear l } := by simp only [advance, h.pc]
  rw [h.worker, hadv]
  refine ⟨h.isr, rfl, h.masked, funext fun k => ?_⟩
  have hinst : w.inst = k := by
    have hw : w.inst.val < 1 := w.inst.isLt
    have hk : k.val < 1 := k.isLt
    exact Fin.ext (by omega)
  show (s.hw k).step traced (((some w).filter (·.inst = k)).map RegWrite.write) = _
  rw [Option.filter_some_pos (by simpa using hinst), h.hw]
  rfl

theorem StandsAt.cleared (h : StandsAt (.clear []) m hw s) :
    StandsAt (.unmask false 0) false hw (s.step traced Prod.fst (.worker 0)) := by
  have hadv : s.advance Prod.fst 0 = { s with gIrqMasked := false, pc := .unmask false 0 } := by
    simp only [advance, h.pc]
  rw [h.worker, hadv]
  exact ⟨h.isr, rfl, rfl, h.hw⟩

theorem StandsAt.unmask (h : StandsAt (.unmask false 0) m hw s) :
    ∃ control, StandsAt (.unmaskWrite false instance0 control) m hw (s.step traced Prod.fst (.worker 0)) := by
  have hadv : s.advance Prod.fst 0 =
      { s with pc := .unmaskWrite false instance0 (s.read Prod.fst instance0 minerRegIrqControl) } := by
    simp only [advance, h.pc]
    exact dif_pos (by decide)
  refine ⟨s.read Prod.fst instance0 minerRegIrqControl, ?_⟩
  rw [h.worker, hadv]
  exact ⟨h.isr, rfl, h.masked, h.hw⟩

/-- What the worker writes before it unmasks. -/
def clearWrites : Nat → Option Write
  | 0 => some ⟨.control, minerControlClear, 0xf⟩
  | 1 => some ⟨.resultStatus, minerResultStatusResult ||| minerResultStatusOverflow, 0xf⟩
  | _ => none

theorem run_clearWrites (m : MinerCore Traced oneEngine) : Clocked.run (MinerCore.step traced) clearWrites m 2 =
    (m.step traced (some ⟨.control, minerControlClear, 0xf⟩)).step traced
      (some ⟨.resultStatus, minerResultStatusResult ||| minerResultStatusOverflow, 0xf⟩) := rfl

theorem clearWrites_stop (t : Nat) (v : Write) (h : clearWrites t = some v) : v.stop = false := by
  match t with
  | 0 => exact (Option.some.inj h) ▸ rfl
  | 1 => exact (Option.some.inj h) ▸ rfl
  | t + 2 => cases h

theorem clearWrites_none (t : Nat) (ht : 2 ≤ t) : clearWrites t = none := by
  match t, ht with
  | t + 2, _ => rfl

/-- The worker's accesses from the end of the drain to the write that unmasks the instance; the third and the fourth are
edges. -/
theorem worker_clears (hisr : s.isr = none) (hpc : s.pc = .resultStatus 1) (hm : s.gIrqMasked = true) :
    let st := Clocked.run (step traced Prod.fst) (fun _ => .worker 0) s
    (∀ t ≤ 6, (st t).pc ≠ .resultStatus 0 ∧
      (st t).hw instance0 = Clocked.run (MinerCore.step traced) clearWrites (s.hw instance0) (min (t - 2) 2)) ∧
      (st 6).isr = none ∧ ∃ control, (st 6).pc = .unmaskWrite false instance0 control := by
  intro st
  have h0 : StandsAt (.resultStatus 1) true s.hw (st 0) := ⟨hisr, hpc, hm, rfl⟩
  have hnext : ∀ t, st (t + 1) = (st t).step traced Prod.fst (.worker 0) := fun _ => rfl
  have h1 := h0.drained
  rw [← hnext] at h1
  have h2 := h1.masked_clear
  rw [← hnext] at h2
  have h3 := h2.clear
  rw [← hnext] at h3
  have h4 := h3.clear
  rw [← hnext] at h4
  have h5 := h4.cleared
  rw [← hnext] at h5
  obtain ⟨control, h6⟩ := h5.unmask
  rw [← hnext] at h6
  refine ⟨fun t ht => ?_, h6.isr, control, h6.pc⟩
  match t, ht with
  | 0, _ => exact ⟨h0.pc.trans_ne (by decide), congrFun h0.hw instance0⟩
  | 1, _ => exact ⟨h1.pc.trans_ne nofun, congrFun h1.hw instance0⟩
  | 2, _ => exact ⟨h2.pc.trans_ne nofun, congrFun h2.hw instance0⟩
  | 3, _ => exact ⟨h3.pc.trans_ne nofun, congrFun h3.hw instance0⟩
  | 4, _ => exact ⟨h4.pc.trans_ne nofun, congrFun h4.hw instance0⟩
  | 5, _ => exact ⟨h5.pc.trans_ne nofun, congrFun h5.hw instance0⟩
  | 6, _ => exact ⟨h6.pc.trans_ne nofun, congrFun h6.hw instance0⟩

end StandsAt

/-- Some edges, and then the worker's accesses. -/
theorem edges_then_clear {s : Board Traced oneInstance oneEngine} (hisr : s.isr = none) (hpc : s.pc = .resultStatus 1)
    (hm : s.gIrqMasked = true) (n : Nat) :
    let st := Clocked.run (step traced Prod.fst) (fun _ => .worker 0)
      (Clocked.run (step traced Prod.fst) (fun _ => .edge) s n)
    (∀ t ≤ 6, (st t).pc ≠ .resultStatus 0 ∧ (st t).hw instance0 = Clocked.run (MinerCore.step traced) clearWrites
        (Clocked.run (MinerCore.step traced) (fun _ => none) (s.hw instance0) n) (min (t - 2) 2)) ∧
      (st 6).isr = none ∧ ∃ control, (st 6).pc = .unmaskWrite false instance0 control := by
  rw [run_edges]
  exact worker_clears (s := { s with hw := _ }) hisr hpc hm

/-- The worker's accesses, and then some edges. -/
theorem clear_then_edges {s : Board Traced oneInstance oneEngine} (hisr : s.isr = none) (hpc : s.pc = .resultStatus 1)
    (hm : s.gIrqMasked = true) (n : Nat) :
    let s' := Clocked.run (step traced Prod.fst) (fun _ => .edge)
      (Clocked.run (step traced Prod.fst) (fun _ => .worker 0) s 6) n
    s'.isr = none ∧ (∃ control, s'.pc = .unmaskWrite false instance0 control) ∧
      s'.hw instance0 = Clocked.run (MinerCore.step traced) clearWrites (s.hw instance0) (n + 2) := by
  obtain ⟨hclears, hisr', hpc'⟩ := worker_clears hisr hpc hm
  rw [run_edges]
  refine ⟨hisr', hpc', ?_⟩
  show Clocked.run (MinerCore.step traced) (fun _ => none) ((Clocked.run _ _ s 6).hw instance0) n = _
  rw [(hclears 6 le_rfl).2, Nat.add_comm n 2, Clocked.run_add]
  exact Clocked.run_congr fun u _ => (clearWrites_none (2 + u) (by omega)).symm

end Evaluation

/-! ## A candidate that the clear discards -/

/-- The engine begins to scan the job while the worker, woken by the end of a stop, is about to drain the instance. -/
def startDrain : List (Action oneInstance.instances) :=
  (List.replicate 7 access).flatten ++ [.service instance0 .stop] ++ wake ++
    .submitJob firstJob false :: (List.replicate 25 access).flatten ++ [.worker 0, .worker 0]

/-- The board when the worker looks at the instance. -/
def examining : Board Traced oneInstance oneEngine := play startDrain (reset fun _ _ => default)

/-- The board when the worker has found nothing. -/
def drained : Board Traced oneInstance oneEngine := examining.step traced Prod.fst (.worker 0)

theorem examining_stands : examining.isr = none ∧ examining.pc = .resultStatus 0 ∧
    (examining.hw instance0).resultValidQ = false := by
  decide +kernel

/-- After the drain the worker waits until a result is in the register; then it clears and unmasks. -/
def lateResult (t : Nat) : Action oneInstance.instances :=
  if t < startDrain.length then startDrain.getD t .edge
  else if t = startDrain.length ∨ startDrain.length + reportAge + 6 ≤ t then .worker 0 else .edge

/-- The board at each step. -/
def lateResultAt : Nat → Board Traced oneInstance oneEngine :=
  Clocked.run (step traced Prod.fst) lateResult (reset fun _ _ => default)

theorem lateResultAt_examining : lateResultAt startDrain.length = examining := by
  have hsame : lateResultAt startDrain.length = Clocked.run (step traced Prod.fst) (fun t => startDrain.getD t .edge)
      (reset fun _ _ => default) startDrain.length :=
    Clocked.run_congr fun t ht => if_pos ht
  exact hsame.trans (Clocked.run_getD _ _ _)

theorem lateResultAt_drained : lateResultAt (startDrain.length + 1) = drained := by
  have hact : lateResult startDrain.length = .worker 0 := by simp [lateResult]
  rw [lateResultAt, Clocked.run_succ, hact, ← lateResultAt, lateResultAt_examining]
  rfl

theorem lateResultAt_edges {t : Nat} (ht : t ≤ reportAge + 5) : lateResultAt (startDrain.length + 1 + t) =
    Clocked.run (step traced Prod.fst) (fun _ => .edge) drained t := by
  rw [lateResultAt, Clocked.run_add, ← lateResultAt, lateResultAt_drained]
  refine Clocked.run_congr fun u hu => ?_
  rw [lateResult, if_neg (by omega), if_neg (by omega)]

theorem lateResultAt_worker (t : Nat) : lateResultAt (startDrain.length + reportAge + 6 + t) =
    Clocked.run (step traced Prod.fst) (fun _ => .worker 0)
      (Clocked.run (step traced Prod.fst) (fun _ => .edge) drained (reportAge + 5)) t := by
  rw [← lateResultAt_edges le_rfl, show startDrain.length + reportAge + 6 = startDrain.length + 1 + (reportAge + 5) by omega,
    lateResultAt, Clocked.run_add]
  refine Clocked.run_congr fun u _ => ?_
  rw [lateResult, if_neg (by omega), if_pos (by omega)]

/-- The instance at the edge at which the engine accepts the start. -/
theorem launched_drained :
    let m := (drained.hw instance0).step traced none
    EvalAt oneEngine.engine firstJob.latched 0 0xffffffff (pass1Digest firstJob.latched 0) 0 (m.engines engine0) ∧
      m.engineStopQ engine0 = false ∧ AllResults (fun _ => False) m ∧ m.resultValidQ = false := by
  intro m
  have hframe : (m.engines engine0).latchedQ.midstate = firstJob.latched.midstate ∧
      (m.engines engine0).latchedQ.headerTail = firstJob.latched.headerTail ∧
      (m.engines engine0).latchedQ.target = firstJob.latched.target ∧
      (m.engines engine0).nonceQ = 0 ∧ (m.engines engine0).remainingQ = 0xffffffff := by
    decide +kernel
  have hstate : (m.engines engine0).stateQ = .launch ∧ (m.engines engine0).launchStateQ = .pass1 ∧
      (m.engines engine0).coreFirstPassQ = true ∧ (m.engines engine0).coreStartQ = false ∧
      (m.engines engine0).resultValidO = false ∧ (m.engines engine0).doneO = false ∧
      (m.engines engine0).core.busyQ = false := by
    decide +kernel
  have hstop : m.engineStopQ engine0 = false := rfl
  have hpath : ∀ c, (m.fifos c).All fun _ => False := by decide +kernel
  have hv : m.resultValidQ = false := by decide +kernel
  clear_value m
  obtain ⟨hm, ht, hg, hn, hr⟩ := hframe
  obtain ⟨hst, hl, hf, hc, hvalid, hd, hb⟩ := hstate
  exact ⟨.launch1 ⟨Latched.ext hm ht hg, hn, hr⟩ hst hl hf hc hvalid hd hb rfl, hstop, hpath, hv⟩

/-- When the worker goes on, the result is alone in the register. -/
theorem held_drained :
    let m := Clocked.run (MinerCore.step traced) (fun _ => none) (drained.hw instance0) (reportAge + 5)
    m.PopHeld ∧ m.resultValidQ = true ∧ m.inFlight = 0 ∧ NoClear m ∧ Scanning 3 m := by
  obtain ⟨heval, hstop, hpath, hv⟩ := launched_drained
  obtain ⟨⟨heval', hstop'⟩, hpath', hv'⟩ := evaluates (w := fun _ => none) (by simp) heval hstop hpath hv le_rfl
  have hL : beValue (pass2Digest (pass1Digest firstJob.latched 0)) ≤ beValue firstJob.latched.target := beValue_le_ones _
  have hheld := evaluation_held (t := 0) (fun _ _ => rfl) (by decide) hL (by decide) heval' hstop' hpath' hv'
  rwa [← Clocked.run_succ' (fun _ => none)] at hheld

/-- The worker looks at the instance, and unmasks it after the result has been cleared. -/
theorem pass_lateResult :
    Pass lateResult lateResultAt instance0 startDrain.length (startDrain.length + reportAge + 6 + 6) ∧
      (lateResultAt (startDrain.length + reportAge + 6 + 6)).hw instance0 =
        ((Clocked.run (MinerCore.step traced) (fun _ => none) (drained.hw instance0) (reportAge + 5)).step traced
          (some ⟨.control, minerControlClear, 0xf⟩)).step traced
        (some ⟨.resultStatus, minerResultStatusResult ||| minerResultStatusOverflow, 0xf⟩) := by
  have hexamining := examining_stands
  have hdrained : drained.isr = none ∧ drained.pc = .resultStatus 1 ∧ drained.gIrqMasked = true := by decide +kernel
  obtain ⟨hlast, hisr, control, hpc⟩ := edges_then_clear hdrained.1 hdrained.2.1 hdrained.2.2 (reportAge + 5)
  have hend := lateResultAt_worker 6
  refine ⟨⟨by omega, ⟨0, by simp [lateResult], ?_, ?_⟩, ?_, fun t h0 h2 now ha => ?_,
    ⟨0, control, ?_, ?_, ?_⟩⟩, ?_⟩
  · rw [lateResultAt_examining]
    exact hexamining.1
  · rw [lateResultAt_examining]
    exact hexamining.2.1
  · rw [lateResultAt_examining]
    exact hexamining.2.2
  · have ht : startDrain.length + reportAge + 6 ≤ t := by
      by_contra hlt
      rw [lateResult, if_neg (by omega), if_neg (by omega)] at ha
      cases ha
    rw [show t = startDrain.length + reportAge + 6 + (t - (startDrain.length + reportAge + 6)) by omega,
      lateResultAt_worker]
    exact (hlast _ (by omega)).1
  · rw [lateResult, if_neg (by omega), if_pos (by omega)]
  · rw [hend]
    exact hisr
  · rw [hend]
    exact hpc
  · rw [hend, (hlast 6 le_rfl).2]
    exact run_clearWrites _

/-- **The clear discards a candidate.** A result that reaches the register after the drain is gone when the instance is
unmasked. -/
theorem late_result_discarded : ¬ ∀ (host : HostCfg) (cfg : MinerCfg)
    (engines : Fin host.instances → Fin cfg.numEngines → Engine) (acts : Nat → Action host.instances)
    (k : Fin host.instances) (t0 t2 : Nat),
    let st := Clocked.run (step traced Prod.fst) acts (reset engines : Board Traced host cfg)
    Pass acts st k t0 t2 → ∀ t, t0 ≤ t → t ≤ t2 → visible Prod.fst k (st t) ≤ visible Prod.fst k (st t2) := by
  intro h
  obtain ⟨hpass, hend⟩ := pass_lateResult
  obtain ⟨hp, hv, hz, hno, hscan⟩ := held_drained
  have hthere : visible Prod.fst instance0 (lateResultAt (startDrain.length + 1 + (reportAge + 5))) ≠ 0 := by
    rw [lateResultAt_edges le_rfl, run_edges]
    exact visible_of_held hv
  have hgone : visible Prod.fst instance0 (lateResultAt (startDrain.length + reportAge + 6 + 6)) = 0 := by
    rw [visible, hend, cleared_of_held hp hno hscan hv hz (by decide) (by decide), Multiset.map_zero]
  have hbounds : startDrain.length ≤ startDrain.length + 1 + (reportAge + 5) ∧
      startDrain.length + 1 + (reportAge + 5) ≤ startDrain.length + reportAge + 6 + 6 := by omega
  generalize startDrain.length + 1 + (reportAge + 5) = t at hthere hbounds
  generalize startDrain.length + reportAge + 6 + 6 = t2 at hpass hgone hbounds
  have hle : visible Prod.fst instance0 (lateResultAt t) ≤ visible Prod.fst instance0 (lateResultAt t2) :=
    h oneInstance oneEngine (fun _ _ => default) lateResult instance0 _ t2 hpass t hbounds.1 hbounds.2
  rw [hgone, Multiset.le_zero] at hle
  exact hthere hle

/-! ## A candidate that is kept -/

/-- After the drain the engine accepts its start; the worker clears, and unmasks when a result is in the register. -/
def keptResult (t : Nat) : Action oneInstance.instances :=
  if t < startDrain.length then startDrain.getD t .edge
  else if t = startDrain.length + 1 ∨ startDrain.length + 8 ≤ t ∧ t < startDrain.length + 8 + (reportAge + 2) then .edge
  else .worker 0

/-- The board at each step. -/
def keptResultAt : Nat → Board Traced oneInstance oneEngine :=
  Clocked.run (step traced Prod.fst) keptResult (reset fun _ _ => default)

/-- The board when the engine has accepted the start. -/
def launched : Board Traced oneInstance oneEngine := drained.step traced Prod.fst .edge

theorem keptResultAt_begins : keptResultAt startDrain.length = examining ∧
    keptResultAt (startDrain.length + 1) = drained ∧ keptResultAt (startDrain.length + 2) = launched := by
  have hsame : keptResultAt startDrain.length = Clocked.run (step traced Prod.fst) (fun t => startDrain.getD t .edge)
      (reset fun _ _ => default) startDrain.length :=
    Clocked.run_congr fun t ht => if_pos ht
  have h0 : keptResultAt startDrain.length = examining := hsame.trans (Clocked.run_getD _ _ _)
  have h1 : keptResultAt (startDrain.length + 1) = drained := by
    have hact : keptResult startDrain.length = .worker 0 := by simp [keptResult]
    rw [keptResultAt, Clocked.run_succ, hact, ← keptResultAt, h0]
    rfl
  have h2 : keptResultAt (startDrain.length + 2) = launched := by
    have hact : keptResult (startDrain.length + 1) = .edge := by simp [keptResult]
    rw [keptResultAt, Clocked.run_succ, hact, ← keptResultAt, h1]
    rfl
  exact ⟨h0, h1, h2⟩

theorem keptResultAt_worker {t : Nat} (ht : t ≤ 6) : keptResultAt (startDrain.length + 2 + t) =
    Clocked.run (step traced Prod.fst) (fun _ => .worker 0) launched t := by
  rw [keptResultAt, Clocked.run_add, ← keptResultAt, keptResultAt_begins.2.2]
  refine Clocked.run_congr fun u hu => ?_
  rw [keptResult, if_neg (by omega), if_neg (by omega)]

theorem keptResultAt_edges {t : Nat} (ht : t ≤ reportAge + 2) : keptResultAt (startDrain.length + 2 + 6 + t) =
    Clocked.run (step traced Prod.fst) (fun _ => .edge)
      (Clocked.run (step traced Prod.fst) (fun _ => .worker 0) launched 6) t := by
  rw [← keptResultAt_worker le_rfl, keptResultAt, Clocked.run_add]
  refine Clocked.run_congr fun u hu => ?_
  rw [keptResult, if_neg (by omega), if_pos (by omega)]

/-- The instance since the engine has accepted the start. -/
def keptCore : Nat → MinerCore Traced oneEngine :=
  Clocked.run (MinerCore.step traced) clearWrites ((drained.hw instance0).step traced none)

theorem launched_stands : launched.isr = none ∧ launched.pc = .resultStatus 1 ∧ launched.gIrqMasked = true := by
  decide +kernel

/-- The worker's accesses behind the start. -/
theorem keptResultAt_clears {t : Nat} (ht : t ≤ 6) : (keptResultAt (startDrain.length + 2 + t)).pc ≠ .resultStatus 0 ∧
    (keptResultAt (startDrain.length + 2 + t)).hw instance0 = keptCore (min (t - 2) 2) := by
  obtain ⟨hisr, hpc, hm⟩ := launched_stands
  rw [keptResultAt_worker ht, keptCore, ← hw_edge]
  exact (worker_clears hisr hpc hm).1 t ht

/-- Behind them the edges go on, while the worker is about to unmask. -/
theorem keptResultAt_waits {t : Nat} (ht : t ≤ reportAge + 2) : let s := keptResultAt (startDrain.length + 2 + 6 + t)
    s.isr = none ∧ (∃ control, s.pc = .unmaskWrite false instance0 control) ∧ s.hw instance0 = keptCore (t + 2) := by
  obtain ⟨hisr, hpc, hm⟩ := launched_stands
  rw [keptResultAt_edges ht, keptCore, ← hw_edge]
  exact clear_then_edges hisr hpc hm t

/-- Nothing is on its way until the nonce has been checked. -/
theorem keptCore_empty {t : Nat} (ht : t ≤ reportAge) :
    AllResults (fun _ => False) (keptCore t) ∧ (keptCore t).resultValidQ = false := by
  obtain ⟨heval, hstop, hpath, hv⟩ := launched_drained
  exact (evaluates clearWrites_stop heval hstop hpath hv ht).2

theorem keptCore_popHeld (t : Nat) : (keptCore (t + 1)).PopHeld := MinerCore.popHeld_step _

/-- When the worker unmasks, the result is in the register. -/
theorem keptCore_held : (keptCore (reportAge + 2 + 2)).resultValidQ = true := by
  obtain ⟨heval, hstop, hpath, hv⟩ := launched_drained
  obtain ⟨⟨heval', hstop'⟩, hpath', hv'⟩ := evaluates clearWrites_stop heval hstop hpath hv le_rfl
  have hL : beValue (pass2Digest (pass1Digest firstJob.latched 0)) ≤ beValue firstJob.latched.target := beValue_le_ones _
  exact (evaluation_held (t := 2) clearWrites_none (by decide) hL (by decide) heval' hstop' hpath' hv').2.1

/-- When the worker unmasks the instance. -/
def keptUnmask : Nat := startDrain.length + 2 + 6 + (reportAge + 2)

theorem pass_keptResult : Pass keptResult keptResultAt instance0 startDrain.length keptUnmask := by
  rw [keptUnmask]
  obtain ⟨hisr0, hpc0, hv0⟩ := examining_stands
  obtain ⟨hisr, ⟨control, hpc⟩, -⟩ := keptResultAt_waits (t := reportAge + 2) le_rfl
  refine ⟨by omega, ⟨0, by simp [keptResult], ?_, ?_⟩, ?_, fun t h0 h2 now ha => ?_, ⟨0, control, ?_, hisr, hpc⟩⟩
  · rw [keptResultAt_begins.1]
    exact hisr0
  · rw [keptResultAt_begins.1]
    exact hpc0
  · rw [keptResultAt_begins.1]
    exact hv0
  · have ht : startDrain.length + 2 ≤ t ∧ t < startDrain.length + 8 := by
      by_contra hout
      rw [keptResult, if_neg (by omega), if_pos (by omega)] at ha
      cases ha
    rw [show t = startDrain.length + 2 + (t - (startDrain.length + 2)) by omega]
    exact (keptResultAt_clears (by omega)).1
  · rw [keptResult, if_neg (by omega), if_neg (by omega)]

/-- Nothing can be read when the worker looks, and the clear finds nothing; the unmask leaves the result alone. -/
theorem spares_keptResult {t : Nat} (h0 : startDrain.length ≤ t) (h3 : t < keptUnmask + 1) :
    Spares instance0 (keptResult t) (keptResultAt t) := by
  rw [keptUnmask] at h3
  have hage : 4 ≤ reportAge := by decide
  rcases Nat.lt_or_ge t (startDrain.length + 2) with hlt | hge
  · have hempty : (∀ c, ((examining.hw instance0).fifos c).All fun _ => False) ∧
        (∀ c, ((drained.hw instance0).fifos c).All fun _ => False) ∧ (drained.hw instance0).resultValidQ = false := by
      decide +kernel
    rcases (by omega : t = startDrain.length ∨ t = startDrain.length + 1) with ht | ht
    · rw [ht, keptResultAt_begins.1]
      exact spares_of_empty hempty.1 examining_stands.2.2
    · rw [ht, keptResultAt_begins.2.1]
      exact spares_of_empty hempty.2.1 hempty.2.2
  rcases Nat.lt_or_ge t (startDrain.length + 2 + 6) with hlt | hge'
  · obtain ⟨u, hu⟩ := Nat.exists_eq_add_of_le hge
    rw [hu]
    have hhw := (keptResultAt_clears (t := u) (by omega)).2
    obtain ⟨hpath, hv⟩ := keptCore_empty (t := min (u - 2) 2) (by omega)
    rw [← hhw] at hpath hv
    exact spares_of_empty hpath hv
  · obtain ⟨u, ht⟩ := Nat.exists_eq_add_of_le hge'
    rw [ht]
    obtain ⟨hisr, ⟨control, hpc⟩, hhw⟩ := keptResultAt_waits (t := u) (by omega)
    rcases Nat.lt_or_ge u (reportAge - 1) with hu | hu
    · obtain ⟨hpath, hv⟩ := keptCore_empty (t := u + 2) (by omega)
      rw [← hhw] at hpath hv
      exact spares_of_empty hpath hv
    · have hno : NoClear (keptCore (u + 2)) := noClear_behind clearWrites_none (by omega)
      rw [← hhw] at hno
      refine spares_of_noClear (fun w he => ?_) hno
      rcases Nat.lt_or_ge u (reportAge + 2) with hu' | hu'
      · rw [keptResult, if_neg (by omega), if_pos (by omega)] at he
        cases he
      · rw [keptResult, if_neg (by omega), if_neg (by omega)] at he
        simp only [edgeOf, hisr, hpc] at he
        obtain rfl := Option.some.inj (Option.some.inj he)
        have hsel : (RegWrite.write ⟨instance0, minerRegIrqControl, control &&& ~~~minerIrqControlMask⟩).sel = .irqControl := rfl
        exact empties_of_sel (by rw [hsel]; decide) (by rw [hsel]; decide)

/-- After the clear nothing can be read; when the worker unmasks, the result can. -/
theorem visible_keptResult : visible Prod.fst instance0 (keptResultAt (startDrain.length + 2 + 6)) = 0 ∧
    visible Prod.fst instance0 (keptResultAt keptUnmask) ≠ 0 := by
  constructor
  · have hhw := (keptResultAt_clears (t := 6) le_rfl).2
    obtain ⟨hpath, hv⟩ := keptCore_empty (t := min (6 - 2) 2) (by decide)
    have hz : (keptCore (min (6 - 2) 2)).pending = 0 :=
      pending_of_empty (inFlight_of_empty (keptCore_popHeld 1) hpath hv) hv
    rw [visible, hhw, hz, Multiset.map_zero]
  · have hhw := (keptResultAt_waits (t := reportAge + 2) le_rfl).2.2
    rw [← keptUnmask] at hhw
    refine visible_of_held ?_
    rw [hhw]
    exact keptCore_held

/-- A result that comes after the clear is there when the instance is unmasked. -/
theorem late_result_kept :
    (visible Prod.fst instance0 (keptResultAt (startDrain.length + 2 + 6)) = 0 ∧
      visible Prod.fst instance0 (keptResultAt keptUnmask) ≠ 0) ∧
    (∀ t, startDrain.length ≤ t → t ≤ keptUnmask →
      visible Prod.fst instance0 (keptResultAt t) ≤ visible Prod.fst instance0 (keptResultAt keptUnmask)) ∧
    visible Prod.fst instance0 (keptResultAt keptUnmask) ≤ visible Prod.fst instance0 (keptResultAt (keptUnmask + 1)) +
      ∑ t ∈ Finset.Ico keptUnmask (keptUnmask + 1), returned instance0 (keptResult t) (keptResultAt t) :=
  ⟨visible_keptResult, candidates_kept (fun _ _ => default) keptResult instance0 startDrain.length keptUnmask
    (keptUnmask + 1) pass_keptResult (Nat.le_add_right keptUnmask 1) fun _ h0 h3 => spares_keptResult h0 h3⟩

end Vek280Miner
