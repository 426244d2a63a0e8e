import Vek280Miner.Lib.BoundedQueue
import Vek280Miner.Rtl.FifoRegisters

/-!
# The result FIFO is a bounded queue

The first of the results of a cycle is pushed two cycles later, unless the queue is full and not popped then; the others
are dropped. The overflow flag follows a cycle behind, and with nothing left in the stages it is up exactly when
something has been dropped since the FIFO was last cleared (`fifo_refines_queue`).
-/

namespace Vek280Miner.Rtl

variable {α : Type} {cfg : FifoCfg}

/-! ## What the registers say of the queue -/

/-- The first result of a cycle, with the id of its engine. -/
def FifoIn.offered (cfg : FifoCfg) (i : FifoIn α cfg.clusterSize) : Option (Word × α) :=
  (hitIdx i.engineValid).map fun l => (ClusterFifo.engineId cfg l, i.engineNonce l)

namespace FifoRegs

/-- The entry in the second stage. -/
def stage2 (r : FifoRegs α cfg) : Option (Word × α) :=
  if r.stage2ValidQ then some (r.stage2EngineIdQ, r.stage2NonceQ) else none

/-- The entry of the first stage that moves on to the second. -/
def stage1 (r : FifoRegs α cfg) : Option (Word × α) :=
  (hitIdx r.stage1ValidQ).map fun l => (ClusterFifo.engineId cfg l, r.stage1NonceQ l)

/-- The entries on their way to the queue. -/
def inStages (r : FifoRegs α cfg) : List (Word × α) := r.stage2.toList ++ r.stage1.toList

/-- What is asked of the queue at an edge. -/
def queueIn (i : FifoIn α cfg.clusterSize) (r : FifoRegs α cfg) : QueueIn (Word × α) := ⟨r.stage2, i.pop, r.clearQ⟩

variable [Inhabited α]

/-- The queue in the memories, oldest entry first. -/
def queue (r : FifoRegs α cfg) : List (Word × α) := (List.range r.countQ.toNat).map fun k =>
  let p : BitVec (ptrWidth cfg.fifoDepth) := BitVec.ofNat _ ((r.rdPtrQ.toNat + k) % cfg.fifoDepth)
  (readMem r.engineIdMem p, readMem r.nonceMem p)

/-- The entry that is popped at an edge. -/
def popped (i : FifoIn α cfg.clusterSize) (r : FifoRegs α cfg) : Option (Word × α) :=
  if r.doPop i.pop then some (r.engineIdO, r.nonceO) else none

/-- The pointers and the count are those of a ring with `FIFO_DEPTH` slots. -/
structure PointersAgree (r : FifoRegs α cfg) : Prop where
  count_le : r.countQ.toNat ≤ cfg.fifoDepth
  rdPtr_lt : r.rdPtrQ.toNat < cfg.fifoDepth
  wrPtr_lt : r.wrPtrQ.toNat < cfg.fifoDepth
  wrPtr_eq : r.wrPtrQ.toNat = (r.rdPtrQ.toNat + r.countQ.toNat) % cfg.fifoDepth

/-- The state at reset or after an edge that clears. -/
def Cleared (r : FifoRegs α cfg) : Prop :=
  r = reset ∨ ∃ (r' : FifoRegs α cfg) (i : FifoIn α cfg.clusterSize), r'.Reachable ∧ r'.clearQ = true ∧ r = r'.step i

/-- The two stages are empty. -/
def Drained (r : FifoRegs α cfg) : Prop := (∀ l, r.stage1ValidQ l = false) ∧ r.stage2ValidQ = false

section Run

variable (inp : Nat → FifoIn α cfg.clusterSize) (r : FifoRegs α cfg)

/-- The queue is full and is not popped at edge `t`. -/
def refusesAt (t : Nat) : Bool := decide ((Clocked.run step inp r t).countQ.toNat = cfg.fifoDepth) && !(inp t).pop

/-- The first results of the first `n` cycles, without those that find the queue full and not popped. -/
def taken (n : Nat) : List (Word × α) :=
  (List.range n).filterMap fun t => if refusesAt inp r (t + 2) then none else (inp t).offered cfg

/-- The result at port `l` in cycle `t` is dropped: another one comes first, or the queue refuses it two cycles later.
-/
def Drops (t : Nat) (l : Fin cfg.clusterSize) : Prop :=
  (inp t).engineValid l = true ∧ (hitIdx (inp t).engineValid ≠ some l ∨ refusesAt inp r (t + 2) = true)

end Run

end FifoRegs

section Queue

variable {r : FifoRegs α cfg} {s : ClusterFifo α cfg}

theorem Models.pointersAgree (h : Models r s) : r.PointersAgree where
  count_le := by
    rw [h.count]
    exact s.ring.count_le
  rdPtr_lt := by
    rw [h.rdPtr]
    exact s.ring.rdPtr.isLt
  wrPtr_lt := by
    rw [h.wrPtr]
    exact s.ring.wrPtr.isLt
  wrPtr_eq := by
    rw [h.wrPtr, h.rdPtr, h.count]
    exact s.ring.wr_eq

theorem Models.stage2 (h : Models r s) : r.stage2 = s.stage2 := by
  rw [FifoRegs.stage2, ClusterFifo.stage2, h.stage2Valid, h.stage2EngineId, h.stage2Nonce]

variable [Inhabited α]

theorem Models.queue (h : Models r s) : r.queue = s.ring.toList := by
  have hD : 0 < cfg.fifoDepth := Nat.zero_lt_of_lt s.ring.rdPtr.isLt
  rw [FifoRegs.queue, Ring.toList, h.count, h.rdPtr]
  refine List.map_congr_left fun k _ => ?_
  have hlt : (s.ring.rdPtr.val + k) % cfg.fifoDepth < cfg.fifoDepth := Nat.mod_lt _ hD
  have hptr : (BitVec.ofNat (ptrWidth cfg.fifoDepth) ((s.ring.rdPtr.val + k) % cfg.fifoDepth)).toNat =
      (s.ring.rdPtr.val + k) % cfg.fifoDepth := by
    have hle := le_two_pow_ptrWidth cfg.fifoDepth
    rw [BitVec.toNat_ofNat, Nat.mod_eq_of_lt (by omega)]
  simp only [readMem, hptr, hlt, dif_pos]
  exact (h.mem _).symm

theorem Models.refuses (h : Models r s) (i : FifoIn α cfg.clusterSize) :
    BoundedQueue.refuses cfg.fifoDepth (r.queueIn i) r.queue = (decide (r.countQ.toNat = cfg.fifoDepth) && !i.pop) := by
  rw [BoundedQueue.refuses, h.queue, Ring.length_toList, h.count]
  rfl

/-- What stage 2 presents is pushed unless the queue refuses it. -/
theorem Models.doPush_eq (h : Models r s) (i : FifoIn α cfg.clusterSize) :
    r.doPush i.pop = (r.stage2ValidQ && !BoundedQueue.refuses cfg.fifoDepth (r.queueIn i) r.queue) := by
  have hvalid : r.stage2.isSome = r.stage2ValidQ := by
    unfold FifoRegs.stage2
    cases r.stage2ValidQ <;> rfl
  rw [h.doPush, ← h.stage2, h.queue, ← hvalid]
  exact s.ring.doPush_eq (r.queueIn i)

theorem Models.popped (h : Models r s) (i : FifoIn α cfg.clusterSize) :
    r.popped i = BoundedQueue.popped (r.queueIn i) r.queue := by
  rw [h.queue, Ring.popped_toList, FifoRegs.popped, h.doPop, h.outputs]
  rfl

/-- **Refinement.** An edge of the registers is a cycle of the bounded queue. -/
theorem Models.queue_step (h : Models r s) (i : FifoIn α cfg.clusterSize) :
    (r.step i).queue = BoundedQueue.step cfg.fifoDepth (r.queueIn i) r.queue := by
  rw [(models_step h i).queue, h.queue]
  cases hc : r.clearQ with
  | true =>
    have hs : s.clearQ = true := h.clear.symm.trans hc
    simp [BoundedQueue.step, FifoRegs.queueIn, hc, ClusterFifo.step, hs]
  | false =>
    have hs : s.clearQ = false := h.clear.symm.trans hc
    rw [← Ring.toList_update_eq _ _ hc, FifoRegs.queueIn, h.stage2]
    simp [ClusterFifo.step, hs]

/-- A run of the registers is a run of the queue. -/
theorem Models.queue_run (h : Models r s) (inp : Nat → FifoIn α cfg.clusterSize) (n : Nat) :
    (Clocked.run FifoRegs.step inp r n).queue = Clocked.run (BoundedQueue.step cfg.fifoDepth)
      (fun t => (Clocked.run FifoRegs.step inp r t).queueIn (inp t)) r.queue n := by
  induction n with
  | zero => rfl
  | succ n ih => rw [Clocked.run_succ, Clocked.run_succ, ← ih, (models_run h inp n).queue_step]

end Queue

/-! ## The stages before the queue -/

/-- A port other than the first one that is set. -/
theorem one_lt_validCount_iff {n : Nat} {v : Fin n → Bool} : 1 < validCount v ↔ ∃ l, v l = true ∧ hitIdx v ≠ some l := by
  have hlen : validCount v = ((List.finRange n).filter v).length := List.countP_eq_length_filter
  have hmem : ∀ l, v l = true ↔ l ∈ (List.finRange n).filter v := by simp
  have hnodup : ((List.finRange n).filter v).Nodup := (List.nodup_finRange n).filter _
  rw [hlen, hitIdx, ← List.head?_filter]
  simp only [hmem]
  generalize (List.finRange n).filter v = ports at hnodup
  match ports with
  | [] => simp
  | [a] => simp
  | a :: b :: _ =>
    have hab : a ≠ b := fun h => (List.nodup_cons.1 hnodup).1 (h ▸ List.mem_cons_self ..)
    exact ⟨fun _ => ⟨b, by simp, by simpa using hab⟩, fun _ => by simp⟩

theorem isSome_hitIdx_iff {n : Nat} {v : Fin n → Bool} : (hitIdx v).isSome = true ↔ ∃ l, v l = true := by
  simp [hitIdx, List.find?_isSome]

theorem hitIdx_none {n : Nat} {v : Fin n → Bool} (h : ∀ l, v l = false) : hitIdx v = none := by
  simp [hitIdx, List.find?_eq_none, h]

namespace FifoRegs

variable [Inhabited α] {r : FifoRegs α cfg} {i : FifoIn α cfg.clusterSize}

/-- What an edge does to the stages. -/
theorem stages_step (h : r.clearQ = false) :
    (r.step i).stage1ValidQ = i.engineValid ∧ (r.step i).stage1 = i.offered cfg ∧ (r.step i).stage2 = r.stage1 ∧
      (r.step i).stage2ValidQ = (hitIdx r.stage1ValidQ).isSome := by
  refine ⟨by simp [step, h], by simp [step, h, stage1, FifoIn.offered], ?_, by simp [step, h]⟩
  cases hhit : hitIdx r.stage1ValidQ <;> simp [step, h, stage1, stage2, hhit]

/-- What an edge does to the flags behind them. -/
theorem flags_step (h : r.clearQ = false) :
    (r.step i).stage1OverflowQ = decide (1 < validCount i.engineValid) ∧
      (r.step i).stage2OverflowQ = (r.stage1OverflowQ || decide (1 < validCount r.stage1ValidQ)) := by
  constructor <;> simp [step, h]

/-- Nothing is held and no flag is up. -/
structure Fresh (r : FifoRegs α cfg) : Prop where
  queue : r.queue = []
  stage1 : ∀ l, r.stage1ValidQ l = false
  stage2 : r.stage2 = none
  stage1Overflow : r.stage1OverflowQ = false
  stage2Overflow : r.stage2OverflowQ = false
  overflow : r.overflowO = false

theorem fresh_reset : Fresh (reset : FifoRegs α cfg) := by
  constructor <;> intros <;> rfl

theorem fresh_step (h : r.clearQ = true) : Fresh (r.step i) := by
  constructor <;> simp [step, h, queue, stage2]

theorem Cleared.fresh (h : Cleared r) : Fresh r := by
  obtain rfl | ⟨r', i, -, hc, rfl⟩ := h
  · exact fresh_reset
  · exact fresh_step hc

theorem Fresh.stage1_none (h : Fresh r) : r.stage1 = none := by
  rw [FifoRegs.stage1, hitIdx_none h.stage1]
  rfl

/-- Every reachable state holds what some ring holds. -/
theorem Reachable.models (hD : 0 < cfg.fifoDepth) (h : r.Reachable) : ∃ s, Models r s := by
  refine Clocked.Reachable.invariant (P := fun r => ∃ s, Models r s) ?_
    (fun i r ⟨s, hs⟩ => ⟨s.step i, models_step hs i⟩) h
  rintro r rfl
  exact ⟨_, models_reset hD⟩

theorem Cleared.models (hD : 0 < cfg.fifoDepth) (h : Cleared r) : ∃ s, Models r s := by
  obtain rfl | ⟨r', i, hr, -, rfl⟩ := h
  · exact ⟨_, models_reset hD⟩
  · obtain ⟨s, hs⟩ := hr.models hD
    exact ⟨s.step i, models_step hs i⟩

section Segment

variable {s : ClusterFifo α cfg} {inp : Nat → FifoIn α cfg.clusterSize} {n : Nat}

/-- What the second stage held in the first cycles was offered two cycles earlier. -/
theorem stage2_run (h : Fresh r) (hc : ∀ t < n, (Clocked.run step inp r t).clearQ = false) :
    (0 < n → (Clocked.run step inp r 1).stage2 = none) ∧
      ∀ t, t + 2 ≤ n → (Clocked.run step inp r (t + 2)).stage2 = (inp t).offered cfg := by
  refine ⟨fun hn => ?_, fun t ht => ?_⟩
  · exact (stages_step (hc 0 hn)).2.2.1.trans h.stage1_none
  · exact (stages_step (hc (t + 1) (by omega))).2.2.1.trans (stages_step (hc t (by omega))).2.1

/-- What is pushed between two clears. -/
theorem pushed_eq_taken (hm : Models r s) (h : Fresh r)
    (hc : ∀ t < n + 2, (Clocked.run step inp r t).clearQ = false) :
    Clocked.events (BoundedQueue.step cfg.fifoDepth) (BoundedQueue.pushed cfg.fifoDepth)
      (fun t => (Clocked.run step inp r t).queueIn (inp t)) r.queue (n + 2) = taken inp r n := by
  induction n with
  | zero =>
    have h1 := (stage2_run h hc).1 (by omega)
    simp only [Clocked.events_succ, Clocked.events_zero, BoundedQueue.pushed, queueIn, h1, Clocked.run_zero, h.stage2]
    simp [taken]
  | succ n ih =>
    have h2 := (stage2_run h hc).2 n (by omega)
    have href := (models_run hm inp (n + 2)).refuses (inp (n + 2))
    rw [Clocked.events_succ, ih fun t ht => hc t (by omega), taken, taken, List.range_succ, List.filterMap_append,
      ← hm.queue_run, BoundedQueue.pushed, href]
    show _ ++ (if refusesAt inp r (n + 2) then none else (Clocked.run step inp r (n + 2)).stage2).toList = _
    rw [h2]
    cases hx : (if refusesAt inp r (n + 2) then none else (inp n).offered cfg) <;> simp [hx]

theorem popped_eq (hm : Models r s) (n : Nat) : Clocked.events step popped inp r n =
    Clocked.events (BoundedQueue.step cfg.fifoDepth) BoundedQueue.popped
      (fun t => (Clocked.run step inp r t).queueIn (inp t)) r.queue n := by
  refine Clocked.events_congr fun t _ => ?_
  rw [← hm.queue_run]
  exact (models_run hm inp t).popped (inp t)

/-- **The ledger between two clears.** What has been popped and what is in the queue are the results that were taken. -/
theorem popped_append_queue (hm : Models r s) (h : Fresh r)
    (hc : ∀ t < n + 2, (Clocked.run step inp r t).clearQ = false) :
    Clocked.events step popped inp r (n + 2) ++ (Clocked.run step inp r (n + 2)).queue = taken inp r n := by
  rw [popped_eq hm, hm.queue_run, BoundedQueue.popped_append hc, pushed_eq_taken hm h hc, h.queue, List.nil_append]

/-- What stage 2 ever holds has been offered, in this order. -/
theorem stage2_sublist (h : Fresh r) (inp : Nat → FifoIn α cfg.clusterSize) (n : Nat) :
    (Clocked.events step (fun _ r => r.stage2) inp r n).Sublist
      (Clocked.events step (fun i _ => i.offered cfg) inp r n) := by
  have hstep : ∀ t, ((Clocked.run step inp r t).stage2.toList ++ inStages (Clocked.run step inp r (t + 1))).Sublist
      (inStages (Clocked.run step inp r t) ++ ((inp t).offered cfg).toList) := by
    intro t
    rw [Clocked.run_succ, inStages, inStages]
    cases hc : (Clocked.run step inp r t).clearQ with
    | true =>
      have hf : Fresh ((Clocked.run step inp r t).step (inp t)) := fresh_step hc
      rw [hf.stage2, hf.stage1_none, List.append_assoc]
      exact List.Sublist.append (List.Sublist.refl _) (List.nil_sublist _)
    | false =>
      obtain ⟨-, h1, h2, -⟩ := stages_step (i := inp t) hc
      rw [h1, h2, List.append_assoc]
  have hheld := @Clocked.events_sublist _ _ _ step inp r (fun i _ => i.offered cfg) (fun _ r => r.stage2) inStages hstep n
  rw [show inStages r = [] by rw [inStages, h.stage2, h.stage1_none]; rfl] at hheld
  exact (List.sublist_append_left _ _).trans hheld

/-- **Order.** What is popped has been offered, in this order, whatever is cleared meanwhile. -/
theorem popped_sublist_offered (hm : Models r s) (h : Fresh r) (inp : Nat → FifoIn α cfg.clusterSize) (n : Nat) :
    (Clocked.events step popped inp r n).Sublist (Clocked.events step (fun i _ => i.offered cfg) inp r n) := by
  have hqueue := BoundedQueue.popped_sublist (D := cfg.fifoDepth)
    (fun t => (Clocked.run step inp r t).queueIn (inp t)) r.queue n
  have hpush : Clocked.events (BoundedQueue.step cfg.fifoDepth) (fun i _ => i.push)
      (fun t => (Clocked.run step inp r t).queueIn (inp t)) r.queue n =
      Clocked.events step (fun _ r => r.stage2) inp r n := Clocked.events_congr fun t _ => rfl
  rw [hpush, ← popped_eq hm, h.queue, List.nil_append] at hqueue
  exact ((List.sublist_append_left _ _).trans hqueue).trans (stage2_sublist h inp n)

/-! ## The overflow flag -/

theorem overflow_step (hm : Models r s) (hc : r.clearQ = false) : (r.step i).overflowO = true ↔ r.overflowO = true ∨
    (r.stage2ValidQ = true ∧ BoundedQueue.refuses cfg.fifoDepth (r.queueIn i) r.queue = true) ∨
      r.stage2OverflowQ = true := by
  have hstep : (r.step i).overflowO = (r.overflowO || (r.stage2ValidQ && !r.doPush i.pop) || r.stage2OverflowQ) := by
    simp [step, hc]
  rw [hstep, hm.doPush_eq]
  cases r.stage2ValidQ <;> simp [or_assoc]

/-- What the second stage says of the cycle two edges before. -/
theorem stage2_flags (hc : ∀ t < n, (Clocked.run step inp r t).clearQ = false) {t : Nat} (ht : t + 2 ≤ n) :
    (Clocked.run step inp r (t + 2)).stage2ValidQ = (hitIdx (inp t).engineValid).isSome ∧
      (Clocked.run step inp r (t + 2)).stage2OverflowQ = decide (1 < validCount (inp t).engineValid) := by
  have h1 := stages_step (i := inp t) (hc t (by omega))
  have hf1 := flags_step (i := inp t) (hc t (by omega))
  have h2 := stages_step (i := inp (t + 1)) (hc (t + 1) (by omega))
  have hf2 := flags_step (i := inp (t + 1)) (hc (t + 1) (by omega))
  rw [Clocked.run_succ, h2.2.2.2, hf2.2, Clocked.run_succ, hf1.1, h1.1]
  exact ⟨rfl, Bool.or_self _⟩

/-- In the first two cycles after a clear the second stage says nothing. -/
theorem stage2_flags_first (h : Fresh r) (hc : ∀ t < n, (Clocked.run step inp r t).clearQ = false) {t : Nat} (ht : t ≤ n)
    (ht2 : t < 2) : (Clocked.run step inp r t).stage2ValidQ = false ∧
      (Clocked.run step inp r t).stage2OverflowQ = false := by
  have h0 : r.stage2ValidQ = false := by
    have h2 := h.stage2
    unfold FifoRegs.stage2 at h2
    cases hv : r.stage2ValidQ with
    | false => rfl
    | true => simp [hv] at h2
  obtain rfl | rfl : t = 0 ∨ t = 1 := by omega
  · exact ⟨h0, h.stage2Overflow⟩
  · have hcount : validCount r.stage1ValidQ = 0 := by simp [validCount, h.stage1]
    refine ⟨?_, ?_⟩
    · refine (stages_step (hc 0 (by omega))).2.2.2.trans ?_
      rw [Clocked.run_zero, hitIdx_none h.stage1]
      rfl
    · refine (flags_step (hc 0 (by omega))).2.trans ?_
      rw [Clocked.run_zero, h.stage1Overflow, hcount]
      rfl

/-- A cycle loses a result when two ports are set or when the queue refuses what it is offered. -/
theorem exists_drops_iff {t : Nat} : (∃ l, Drops inp r t l) ↔
    ((hitIdx (inp t).engineValid).isSome = true ∧ refusesAt inp r (t + 2) = true) ∨ 1 < validCount (inp t).engineValid := by
  rw [one_lt_validCount_iff, isSome_hitIdx_iff]
  constructor
  · rintro ⟨l, hl, hne | href⟩
    · exact .inr ⟨l, hl, hne⟩
    · exact .inl ⟨⟨l, hl⟩, href⟩
  · rintro (⟨⟨l, hl⟩, href⟩ | ⟨l, hl, hne⟩)
    · exact ⟨l, hl, .inr href⟩
    · exact ⟨l, hl, .inl hne⟩

/-- The overflow flag is up when a result has been dropped that was offered three cycles ago or earlier. -/
theorem overflow_run (hm : Models r s) (h : Fresh r) (hc : ∀ t < n, (Clocked.run step inp r t).clearQ = false) :
    (Clocked.run step inp r n).overflowO = true ↔ ∃ t, t + 2 < n ∧ ∃ l, Drops inp r t l := by
  induction n with
  | zero =>
    rw [Clocked.run_zero, h.overflow]
    simp
  | succ n ih =>
    have hstep := overflow_step (i := inp n) (models_run hm inp n) (hc n (by omega))
    rw [(models_run hm inp n).refuses (inp n)] at hstep
    rw [Clocked.run_succ, hstep, ih fun t ht => hc t (by omega)]
    rcases Nat.lt_or_ge n 2 with hn | hn
    · obtain ⟨hv, ho⟩ := stage2_flags_first h (fun t ht => hc t (by omega)) le_rfl hn
      rw [hv, ho]
      simp only [Bool.false_eq_true, false_and, or_false]
      exact ⟨fun ⟨t, ht, hl⟩ => ⟨t, by omega, hl⟩, fun ⟨t, ht, hl⟩ => by omega⟩
    · obtain ⟨k, rfl⟩ := Nat.exists_eq_add_of_le' hn
      obtain ⟨hv, ho⟩ := stage2_flags (fun t ht => hc t (by omega)) (le_refl (k + 2))
      rw [hv, ho, decide_eq_true_eq]
      have hk := @exists_drops_iff _ _ _ r inp k
      constructor
      · rintro (⟨t, ht, hl⟩ | hl)
        · exact ⟨t, by omega, hl⟩
        · exact ⟨k, by omega, hk.2 hl⟩
      · rintro ⟨t, ht, hl⟩
        obtain ht' | rfl : t + 2 < k + 2 ∨ t = k := by omega
        · exact .inl ⟨t, ht', hl⟩
        · exact .inr (hk.1 hl)

/-- With drained stages what was offered in the last two cycles is nothing. -/
theorem overflow_run_drained (hm : Models r s) (h : Fresh r) (hc : ∀ t < n, (Clocked.run step inp r t).clearQ = false)
    (hd : Drained (Clocked.run step inp r n)) :
    (Clocked.run step inp r n).overflowO = true ↔ ∃ t l, t < n ∧ Drops inp r t l := by
  rw [overflow_run hm h hc]
  constructor
  · rintro ⟨t, ht, l, hl⟩
    exact ⟨t, l, by omega, hl⟩
  · rintro ⟨t, l, ht, hl⟩
    refine ⟨t, ?_, l, hl⟩
    by_contra hlast
    obtain rfl | rfl : n = t + 1 ∨ n = t + 2 := by omega
    · have h1 := (stages_step (i := inp t) (hc t (by omega))).1
      have hlow := hd.1 l
      rw [Clocked.run_succ, h1, hl.1] at hlow
      cases hlow
    · have h2 := (stage2_flags hc (le_refl (t + 2))).1
      have hsome : (hitIdx (inp t).engineValid).isSome = true := isSome_hitIdx_iff.2 ⟨l, hl.1⟩
      rw [hd.2, hsome] at h2
      cases h2

end Segment

/-- **Result FIFO.** For every depth the pointers and the count are those of a ring in every reachable state; what is
popped in a run are the first results of its cycles, in order; and after a clear, until the next one, what has been
popped and what is in the queue are exactly the first results that the queue did not refuse, while with drained stages
the overflow flag says whether any result was dropped. -/
theorem fifo_refines_queue (cfg : FifoCfg) (hD : 0 < cfg.fifoDepth) :
    (∀ r : FifoRegs α cfg, r.Reachable → PointersAgree r) ∧
    (∀ (inp : Nat → FifoIn α cfg.clusterSize) (n : Nat), (Clocked.events step popped inp reset n).Sublist
      (Clocked.events step (fun i _ => i.offered cfg) inp reset n)) ∧
    ∀ r : FifoRegs α cfg, Cleared r → ∀ (inp : Nat → FifoIn α cfg.clusterSize) (n : Nat),
      ((∀ t < n + 2, (Clocked.run step inp r t).clearQ = false) →
        Clocked.events step popped inp r (n + 2) ++ (Clocked.run step inp r (n + 2)).queue = taken inp r n) ∧
      ((∀ t < n, (Clocked.run step inp r t).clearQ = false) → Drained (Clocked.run step inp r n) →
        ((Clocked.run step inp r n).overflowO = true ↔ ∃ t l, t < n ∧ Drops inp r t l)) := by
  refine ⟨fun r hr => ?_, fun inp n => ?_, fun r hr inp n => ⟨fun hc => ?_, fun hc hd => ?_⟩⟩
  · obtain ⟨s, hs⟩ := hr.models hD
    exact hs.pointersAgree
  · exact popped_sublist_offered (models_reset hD) fresh_reset inp n
  · obtain ⟨s, hs⟩ := hr.models hD
    exact popped_append_queue hs hr.fresh hc
  · obtain ⟨s, hs⟩ := hr.models hD
    exact overflow_run_drained hs hr.fresh hc hd

/-- The second cluster of two engines, with three slots. -/
def threeSlots : FifoCfg := ⟨1, 2, 3⟩

/-- Both engines report in the first cycle, and the fourth cycle pops. -/
def bothReport (t : Nat) : FifoIn Word threeSlots.clusterSize :=
  ⟨false, t == 3, fun _ => t == 0, fun l => if l.val = 0 then 7 else 8⟩

/-- The result of the first of them comes through; the other one raises the flag. -/
theorem second_report_drops :
    Clocked.events step popped bothReport reset 4 ++ (Clocked.run step bothReport reset 4).queue = [(2, 7)] ∧
      (Clocked.run step bothReport (reset : FifoRegs Word threeSlots) 4).overflowO = true := by
  obtain ⟨-, -, hrun⟩ := @fifo_refines_queue Word _ threeSlots (by decide)
  have hclear : ∀ t < 4, (Clocked.run step bothReport (reset : FifoRegs Word threeSlots) t).clearQ = false := by decide
  refine ⟨((hrun reset (.inl rfl) bothReport 2).1 hclear).trans (by decide), ?_⟩
  refine ((hrun reset (.inl rfl) bothReport 4).2 hclear ⟨by decide, by decide⟩).2
    ⟨0, (1 : Fin 2), by decide, by decide, .inl ?_⟩
  decide

end FifoRegs

end Vek280Miner.Rtl
