import Vek280Miner.Rtl.BridgedReads
import Vek280Miner.Rtl.RunningStatus

/-!
# The processor is answered

The miner takes what the bridge presents to it and answers what it has taken (`miner_answers`), so while both clocks run
every transaction ends. A master that holds its requests and takes its responses finds the S side idle again and again
(`idle_again`); therefore what it requests is accepted, and what is accepted is answered (`bridged_miner_answers`).
-/

namespace Vek280Miner.Rtl.BridgedMiner

open Clocked (run run_succ events events_succ waits_until)

variable {cfg : MinerCfg} {k : BridgedTick} {x : BridgedMiner cfg} {l : List WriteReq} {v : Option Word}

/-! ## The miner as a slave -/

/-- A request on the bus finds the rest of the write pipeline empty. -/
theorem WriteAt.of_valid (hw : Wired x) (h : WriteAt x l) (hv : x.bridge.m.awvalid = true ∨ x.bridge.m.wvalid = true) :
    x.bridge.m.awvalid = true ∧ x.bridge.m.wvalid = true ∧ x.miner.wrStage2ValidQ = false ∧ x.miner.bvalid = false := by
  have hactive : x.bridge.m.writeActiveQ = true := hv.elim hw.ok.awvalid hw.ok.wvalid
  cases h with
  | rest _ ha => exact absurd (ha.symm.trans hactive) (by decide)
  | requested hp => exact absurd ((hw.ok.write.requested hp).1.symm.trans hactive) (by decide)
  | presented r _ haw hwd h2 hb => exact ⟨congrArg Slot.valid haw, congrArg Slot.valid hwd, h2, hb⟩
  | taken _ _ haw hwd => rcases hv with hv | hv <;> simp [haw, hwd] at hv
  | answered _ haw hwd => rcases hv with hv | hv <;> simp [haw, hwd] at hv

/-- A write that the miner has taken is about to be answered. -/
theorem WriteAt.of_taken (hw : Wired x) (h : WriteAt x l) (ha : x.bridge.m.writeActiveQ = true)
    (haw : x.bridge.m.awvalid = false) : x.miner.wrStage2ValidQ = true ∨ x.miner.bvalid = true := by
  cases h with
  | rest _ hn => exact absurd (hn.symm.trans ha) (by decide)
  | requested hp => exact absurd ((hw.ok.write.requested hp).1.symm.trans ha) (by decide)
  | presented r _ hslot => exact absurd (haw.symm.trans (congrArg Slot.valid hslot)) Bool.false_ne_true
  | taken _ _ _ _ _ h2 => exact .inl h2
  | answered _ _ _ _ _ hb => exact .inr hb

theorem ReadAt.of_valid (hw : Wired x) (h : ReadAt x v) (hv : x.bridge.m.arvalid = true) :
    x.miner.rdStage2ValidQ = false ∧ x.miner.rvalid = false := by
  have hactive : x.bridge.m.readActiveQ = true := hw.ok.arvalid hv
  cases h with
  | presented _ _ h2 hr => exact ⟨h2, hr⟩
  | taken _ har => exact absurd (har.symm.trans hv) (by decide)
  | answered _ har => exact absurd (har.symm.trans hv) (by decide)
  | rest _ _ _ _ hn | requested _ hn | returned _ hn | delivered _ hn => exact ⟨hn.stage2, hn.rvalid⟩

theorem ReadAt.of_taken (hw : Wired x) (h : ReadAt x v) (ha : x.bridge.m.readActiveQ = true)
    (har : x.bridge.m.arvalid = false) : x.miner.rdStage2ValidQ = true ∨ x.miner.rvalid = true := by
  cases h with
  | rest _ hn => exact absurd (hn.symm.trans ha) (by decide)
  | requested hp => exact absurd ((hw.ok.read.requested hp).1.symm.trans ha) (by decide)
  | presented _ hslot => exact absurd (har.symm.trans (congrArg Slot.valid hslot)) Bool.false_ne_true
  | taken _ _ _ h2 => exact .inl h2
  | answered _ _ _ _ hr => exact .inr hr
  | returned hp => exact absurd ((hw.ok.read.served ha).symm.trans hp) (by decide)
  | delivered hv =>
    have hidle : x.bridge.m.readActiveQ = false := (hw.ok.read.not_busy (hw.ok.rvalid hv)).2.1
    exact absurd (hidle.symm.trans ha) (by decide)

/-- A register that is loaded from the stage in front of it stays valid until what it holds is taken. -/
theorem stays_valid {edge stage valid ready valid' : Bool} (hlow : edge = false → valid' = valid)
    (hedge : edge = true → valid' = (stage || (valid && !ready))) (h : valid = true ∨ edge = true ∧ stage = true)
    (hn : (edge && valid && ready) = false) : valid' = true := by
  cases edge with
  | false =>
    rw [hlow rfl]
    exact h.resolve_right fun hs => Bool.false_ne_true hs.1
  | true =>
    rw [hedge rfl]
    rcases h with rfl | ⟨-, rfl⟩
    · rw [show ready = false from hn, Bool.not_false, Bool.and_true, Bool.or_true]
    · rw [Bool.true_or]

/-- A response stays on the bus until the bridge takes it. -/
theorem bvalid_stays (hw : Wired x) (hb : x.miner.bvalid = true ∨ k.m = true ∧ x.miner.wrStage2ValidQ = true)
    (hn : x.bridge.mB (x.tick k) = none) : (x.step k).miner.bvalid = true :=
  stays_valid (fun hm => by simp [BridgedMiner.step, hm]) (fun hm => (miner_write_step hw hm).2.2) hb
    (by rw [← mB_eq, hn]; rfl)

theorem rvalid_stays (hw : Wired x) (hr : x.miner.rvalid = true ∨ k.m = true ∧ x.miner.rdStage2ValidQ = true)
    (hn : x.bridge.mR (x.tick k) = none) : (x.step k).miner.rvalid = true :=
  stays_valid (fun hm => by simp [BridgedMiner.step, hm]) (fun hm => (miner_read_step hw hm).2.2) hr
    (by rw [← Bool.not_eq_true]; intro htaken; rw [mR_eq, if_pos htaken] at hn; cases hn)

section Run

variable {inp : Nat → BridgedTick} (engines : Fin cfg.numEngines → Engine)

/-- The registers of the miner's clock wait for its next edge. -/
theorem next_m_edge (hm : ∀ t, ∃ u ≥ t, (inp u).m = true) (t : Nat) : ∃ u ≥ t, (inp u).m = true ∧
    (run step inp (reset engines) u).miner = (run step inp (reset engines) t).miner ∧
    (run step inp (reset engines) u).bridge.m = (run step inp (reset engines) t).bridge.m := by
  obtain ⟨u, hu, hedge⟩ := hm t
  obtain ⟨n, rfl⟩ := Nat.exists_eq_add_of_le hu
  clear hu
  induction n generalizing t with
  | zero => exact ⟨t, le_rfl, hedge, rfl, rfl⟩
  | succ n ih =>
    cases hk : (inp t).m with
    | true => exact ⟨t, le_rfl, hk, rfl, rfl⟩
    | false =>
      obtain ⟨u, hu, hu', hminer, hbridge⟩ := ih (t + 1) (by rwa [Nat.add_right_comm, Nat.add_assoc])
      refine ⟨u, by omega, hu', hminer.trans ?_, hbridge.trans ?_⟩
      · simp [run_succ, step, hk]
      · simp [run_succ, step, Bridge.step, tick, hk]

variable (hm : ∀ t, ∃ u ≥ t, (inp u).m = true)

include hm

/-- A stage that the next edge fills is full at one of the edges. -/
theorem stage_filled {stage : MinerAxi cfg → Bool} {t : Nat}
    (h : ∀ u ≥ t, (inp u).m = true → (run step inp (reset engines) u).bridge.m = (run step inp (reset engines) t).bridge.m →
      stage (run step inp (reset engines) u).miner = false → stage (run step inp (reset engines) (u + 1)).miner = true) :
    ∃ u ≥ t, (inp u).m = true ∧ stage (run step inp (reset engines) u).miner = true := by
  obtain ⟨u, hu, hedge, -, hbridge⟩ := next_m_edge engines hm t
  cases h1 : stage (run step inp (reset engines) u).miner with
  | true => exact ⟨u, hu, hedge, h1⟩
  | false =>
    obtain ⟨v, hv, hedge', hminer, -⟩ := next_m_edge engines hm (u + 1)
    exact ⟨v, by omega, hedge', by rw [hminer, h u hu hedge hbridge h1]⟩

/-- A write on the bus is copied into the first stage, and taken from there. -/
theorem write_ready {t : Nat} (hv : (run step inp (reset engines) t).bridge.m.awvalid = true ∨
    (run step inp (reset engines) t).bridge.m.wvalid = true) :
    ∃ u ≥ t, (inp u).m = true ∧ (run step inp (reset engines) u).miner.wrStage1ValidQ = true := by
  refine stage_filled engines hm fun u hu hedge hbridge h1 => ?_
  have hw := wired_run inp engines u
  obtain ⟨-, l, -, -, -, hat⟩ := write_run inp engines u
  rw [← hbridge] at hv
  obtain ⟨haw, hwd, h2, hb⟩ := hat.of_valid hw hv
  rw [run_succ, (miner_write_step hw hedge).1]
  simp [MinerAxi.writeFire, BridgeM.master, haw, hwd, h1, h2, hb]

theorem read_ready {t : Nat} (hv : (run step inp (reset engines) t).bridge.m.arvalid = true) :
    ∃ u ≥ t, (inp u).m = true ∧ (run step inp (reset engines) u).miner.rdStage1ValidQ = true := by
  refine stage_filled engines hm fun u hu hedge hbridge h1 => ?_
  have hw := wired_run inp engines u
  obtain ⟨_, hat, -⟩ := read_run inp engines u
  rw [← hbridge] at hv
  obtain ⟨h2, hr⟩ := hat.of_valid hw hv
  rw [run_succ, (miner_read_step hw hedge).1]
  simp [MinerAxi.readFire, BridgeM.master, hv, h1, h2, hr]

/-- A response that is due comes, and stays until it is taken. -/
theorem response_waits {stage valid : MinerAxi cfg → Bool} {α : Type} {taken : Nat → Option α}
    (hstays : ∀ v, valid (run step inp (reset engines) v).miner = true ∨
      (inp v).m = true ∧ stage (run step inp (reset engines) v).miner = true → taken v = none →
        valid (run step inp (reset engines) (v + 1)).miner = true) {t : Nat}
    (hdue : stage (run step inp (reset engines) t).miner = true ∨ valid (run step inp (reset engines) t).miner = true) :
    ∃ u ≥ t, ∀ v ≥ u, (∀ y ≥ t, y < v → taken y = none) → valid (run step inp (reset engines) v).miner = true := by
  obtain ⟨e, he, hedge, hminer, -⟩ := next_m_edge engines hm t
  rw [← hminer] at hdue
  refine ⟨e + 1, by omega, fun v hv hnone => ?_⟩
  induction v, hv using Nat.le_induction with
  | base => exact hstays e (hdue.symm.imp_right fun h2 => ⟨hedge, h2⟩) (hnone e he (Nat.lt_succ_self e))
  | succ v hv ih =>
    exact hstays v (.inl (ih fun y hy hyv => hnone y hy (by omega))) (hnone v (by omega) (Nat.lt_succ_self v))

/-- A write that the miner has taken is answered, and the response waits for the bridge. -/
theorem write_response {t : Nat} (ha : (run step inp (reset engines) t).bridge.m.writeActiveQ = true)
    (haw : (run step inp (reset engines) t).bridge.m.awvalid = false) :
    ∃ u ≥ t, ∀ v ≥ u, (∀ y ≥ t, y < v → (run step inp (reset engines) y).bridge.mB (ticks inp engines y) = none) →
      (run step inp (reset engines) v).miner.bvalid = true := by
  obtain ⟨-, l, -, -, -, hat⟩ := write_run inp engines t
  exact response_waits engines hm (fun v => bvalid_stays (wired_run inp engines v))
    (hat.of_taken (wired_run inp engines t) ha haw)

theorem read_response {t : Nat} (ha : (run step inp (reset engines) t).bridge.m.readActiveQ = true)
    (har : (run step inp (reset engines) t).bridge.m.arvalid = false) :
    ∃ u ≥ t, ∀ v ≥ u, (∀ y ≥ t, y < v → (run step inp (reset engines) y).bridge.mR (ticks inp engines y) = none) →
      (run step inp (reset engines) v).miner.rvalid = true := by
  obtain ⟨_, hat, -⟩ := read_run inp engines t
  exact response_waits engines hm (fun v => rvalid_stays (wired_run inp engines v))
    (hat.of_taken (wired_run inp engines t) ha har)

omit hm in
/-- What the bridge sees of the miner. -/
theorem slave_of_tick {t : Nat} {i : BridgeMIn} (hi : (ticks inp engines t).m = some i) :
    i = (run step inp (reset engines) t).miner.slave := by
  cases hk : (inp t).m with
  | false => simp [ticks, tick, hk] at hi
  | true =>
    simp only [ticks, tick, hk, if_true, Option.some.injEq] at hi
    exact hi.symm

/-- The miner takes what it is offered and answers what it has taken. -/
theorem miner_answers : Bridge.SlaveAnswers (ticks inp engines) .reset := by
  constructor
  case awready =>
    intro t hv
    rw [← bridge_run] at hv
    obtain ⟨u, hu, hedge, h1⟩ := write_ready engines hm (.inl hv)
    refine ⟨u, hu, (any_tick _).trans ?_⟩
    rw [hedge, Bool.true_and]
    exact (wired_run inp engines u).pipe.awready.trans h1
  case wready =>
    intro t hv
    rw [← bridge_run] at hv
    obtain ⟨u, hu, hedge, h1⟩ := write_ready engines hm (.inr hv)
    refine ⟨u, hu, (any_tick _).trans ?_⟩
    rw [hedge, Bool.true_and]
    exact (wired_run inp engines u).pipe.wready.trans h1
  case arready =>
    intro t hv
    rw [← bridge_run] at hv
    obtain ⟨u, hu, hedge, h1⟩ := read_ready engines hm hv
    refine ⟨u, hu, (any_tick _).trans ?_⟩
    rw [hedge, Bool.true_and]
    exact (wired_run inp engines u).pipe.arready.trans h1
  case bvalid =>
    intro t ha haw _
    rw [← bridge_run] at ha haw
    obtain ⟨u, hu, hvalid⟩ := write_response engines hm ha haw
    refine ⟨u, hu, fun v hv hnone i hi => ?_⟩
    rw [slave_of_tick engines hi]
    exact hvalid v hv fun y hy hyv => by
      rw [bridge_run]
      exact hnone y hy hyv
  case rvalid =>
    intro t ha har
    rw [← bridge_run] at ha har
    obtain ⟨u, hu, hvalid⟩ := read_response engines hm ha har
    refine ⟨u, hu, fun v hv hnone i hi => ?_⟩
    rw [slave_of_tick engines hi]
    exact hvalid v hv fun y hy hyv => by
      rw [bridge_run]
      exact hnone y hy hyv

end Run

/-! ## The processor as a master -/

/-- A compliant master: its clock runs, it holds what it requests, and it takes the responses that it gets. -/
structure Master (inp : Nat → BridgedTick) (x : BridgedMiner cfg) : Prop where
  clock : ∀ t, ∃ u ≥ t, (inp u).s.isSome = true
  holds : ∀ t u i j, t < u → (inp t).s = some i → (inp u).s = some j → (∀ y, t < y → y < u → (inp y).s = none) →
    Bridge.MasterHolds i (run step inp x t).bridge.s j
  takesWrite : ∀ t, (run step inp x t).bridge.s.bvalid = true → ∃ u ≥ t, (inp u).s.any (·.bready) = true
  takesRead : ∀ t, (run step inp x t).bridge.s.rvalid = true → ∃ u ≥ t, (inp u).s.any (·.rready) = true

section Run

variable {inp : Nat → BridgedTick} {engines : Fin cfg.numEngines → Engine}

/-- The S side of an instant. -/
theorem s_step (t : Nat) : (run step inp (reset engines) (t + 1)).bridge.s =
    (inp t).s.elim (run step inp (reset engines) t).bridge.s
      fun i => (run step inp (reset engines) t).bridge.s.step i (run step inp (reset engines) t).bridge.m := rfl

/-- What becomes of an open transaction at an S edge. -/
theorem open_or_answered {answered accepted busy valid : Bool} (hb : busy = true) :
    (if answered then false else if accepted then true else busy) = true ∨ (if answered then true else valid) = true := by
  cases answered with
  | true => exact .inr rfl
  | false => exact .inl (by rw [hb]; simp)

/-- An open write ends with its response. -/
theorem write_step_busy {t : Nat} (hb : (run step inp (reset engines) t).bridge.s.writeBusyQ = true) :
    (run step inp (reset engines) (t + 1)).bridge.s.writeBusyQ = true ∨
      (run step inp (reset engines) (t + 1)).bridge.s.bvalid = true := by
  rw [s_step]
  cases (inp t).s with
  | none => exact .inl hb
  | some i => exact open_or_answered hb

theorem read_step_busy {t : Nat} (hb : (run step inp (reset engines) t).bridge.s.readBusyQ = true) :
    (run step inp (reset engines) (t + 1)).bridge.s.readBusyQ = true ∨
      (run step inp (reset engines) (t + 1)).bridge.s.rvalid = true := by
  rw [s_step]
  cases (inp t).s with
  | none => exact .inl hb
  | some i => exact open_or_answered hb

/-- What an S edge does while a transaction is open. -/
theorem s_step_of_busy {t : Nat} (h : (run step inp (reset engines) t).bridge.s.idle = false) :
    ((run step inp (reset engines) t).bridge.s.writeBusyQ = false →
      (run step inp (reset engines) (t + 1)).bridge.s.writeBusyQ = false ∧
        (run step inp (reset engines) (t + 1)).bridge.bSlot =
          (run step inp (reset engines) t).bridge.bSlot.step none ((inp t).s.any (·.bready))) ∧
    ((run step inp (reset engines) t).bridge.s.readBusyQ = false →
      (run step inp (reset engines) (t + 1)).bridge.s.readBusyQ = false ∧
        (run step inp (reset engines) (t + 1)).bridge.rSlot =
          (run step inp (reset engines) t).bridge.rSlot.step none ((inp t).s.any (·.rready))) := by
  have hw := wired_run inp engines t
  constructor
  · intro hb
    have hdelivers := hw.ok.write.not_delivers
      (k := Bridge.writeTick (ticks inp engines t) (run step inp (reset engines) t).bridge)
      (hw.ok.write.not_busy hb).2.2
    have hslot := Bridge.bSlot_step (k := ticks inp engines t) (b := (run step inp (reset engines) t).bridge)
    rw [Link.delivered, hdelivers] at hslot
    refine ⟨?_, hslot⟩
    rw [s_step]
    cases hs : (inp t).s with
    | none => exact hb
    | some i => simp [BridgeS.step, BridgeS.acceptsWrite, BridgeS.awready, BridgeS.wready, h, hb]
  · intro hb
    have hdelivers := hw.ok.read.not_delivers
      (k := Bridge.readTick (ticks inp engines t) (run step inp (reset engines) t).bridge)
      (hw.ok.read.not_busy hb).2.2
    have hslot := Bridge.rSlot_step (k := ticks inp engines t) (b := (run step inp (reset engines) t).bridge)
    rw [Link.delivered, hdelivers] at hslot
    refine ⟨?_, hslot⟩
    rw [s_step]
    cases hs : (inp t).s with
    | none => exact hb
    | some i => simp [BridgeS.step, BridgeS.acceptsRead, BridgeS.arready, h, hb]

/-- What an edge takes is taken from its inputs. -/
theorem taken_isSome {ι α : Type} {o : Option ι} {p : ι → Bool} {f : ι → α}
    (h : (o.bind fun i => if p i then some (f i) else none).isSome = true) : ∃ i, o = some i ∧ p i = true := by
  cases o with
  | none => cases h
  | some i =>
    refine ⟨i, rfl, ?_⟩
    by_contra hn
    simp [hn] at h

/-- An accepted request opens its transaction. -/
theorem busy_of_accepted {t : Nat} (h : ((run step inp (reset engines) t).accepted (inp t)).isSome = true) :
    (run step inp (reset engines) (t + 1)).bridge.s.writeBusyQ = true := by
  rw [accepted, Option.isSome_map] at h
  obtain ⟨-, hidle⟩ := Bridge.sWrite_isSome h
  obtain ⟨i, hi, hacc⟩ := taken_isSome h
  simp only [BridgeS.idle, Bool.and_eq_true, Bool.not_eq_true'] at hidle
  rw [s_step, show (inp t).s = some i from hi]
  simp [BridgeS.step, BridgeS.writeAnswered, hacc, hidle]

theorem busy_of_asked {t : Nat} (h : ((run step inp (reset engines) t).asked (inp t)).isSome = true) :
    (run step inp (reset engines) (t + 1)).bridge.s.readBusyQ = true := by
  rw [asked] at h
  obtain ⟨-, hidle⟩ := Bridge.sAr_isSome h
  obtain ⟨i, hi, hacc⟩ := taken_isSome h
  simp only [BridgeS.idle, Bool.and_eq_true, Bool.not_eq_true'] at hidle
  rw [s_step, show (inp t).s = some i from hi]
  simp [BridgeS.step, BridgeS.readAnswered, hacc, hidle]

theorem m_edges (hm : ∀ t, ∃ u ≥ t, (inp u).m = true) (t : Nat) : ∃ u ≥ t, (ticks inp engines u).m.isSome = true := by
  obtain ⟨u, hu, hedge⟩ := hm t
  exact ⟨u, hu, by simp [ticks, tick, hedge]⟩

variable (hm : ∀ t, ∃ u ≥ t, (inp u).m = true) (hmaster : Master inp (reset engines))

include hm hmaster

omit hm hmaster in
/-- A transaction that ends has its response then, and nothing else is taken until then. -/
theorem response_comes {busy valid : BridgeS 12 → Bool} {α : Type} {f : BridgedTick → BridgedMiner cfg → Option α} {t : Nat}
    (hends : ∃ u ≥ t, busy (run step inp (reset engines) u).bridge.s = false)
    (hopen : ∀ u, busy (run step inp (reset engines) u).bridge.s = true →
      (busy (run step inp (reset engines) (u + 1)).bridge.s = true ∨
        valid (run step inp (reset engines) (u + 1)).bridge.s = true) ∧
      events step f inp (reset engines) (u + 1) = events step f inp (reset engines) u)
    (hb : busy (run step inp (reset engines) t).bridge.s = true) :
    ∃ u > t, valid (run step inp (reset engines) u).bridge.s = true ∧
      events step f inp (reset engines) u = events step f inp (reset engines) t := by
  refine waits_until
    (P := fun u => busy (run step inp (reset engines) u).bridge.s = true ∧
      events step f inp (reset engines) u = events step f inp (reset engines) t)
    ⟨hb, rfl⟩ hends ?_
  rintro u - ⟨hbusy, hevents⟩
  obtain ⟨hnext | hnext, hsame⟩ := hopen u hbusy
  · exact .inl ⟨by rw [hbusy]; decide, hnext, hsame.trans hevents⟩
  · exact .inr ⟨hnext, hsame.trans hevents⟩

/-- A write that is open gets its response. -/
theorem write_answered {t : Nat} (hb : (run step inp (reset engines) t).bridge.s.writeBusyQ = true) :
    ∃ u > t, (run step inp (reset engines) u).bridge.s.bvalid = true ∧
      events step accepted inp (reset engines) u = events step accepted inp (reset engines) t := by
  have hends := @Bridge.write_ends _ (ticks inp engines) hmaster.clock (m_edges hm) (miner_answers engines hm) t
  simp only [← bridge_run] at hends
  refine response_comes hends (fun u hbusy => ⟨write_step_busy hbusy, ?_⟩) hb
  exact (events_of_busy (by simp [BridgeS.idle, hbusy])).2.1

/-- A read that is open gets its value. -/
theorem read_answered {t : Nat} (hb : (run step inp (reset engines) t).bridge.s.readBusyQ = true) :
    ∃ u > t, (run step inp (reset engines) u).bridge.s.rvalid = true ∧
      events step asked inp (reset engines) u = events step asked inp (reset engines) t := by
  have hends := @Bridge.read_ends _ (ticks inp engines) hmaster.clock (m_edges hm) (miner_answers engines hm) t
  simp only [← bridge_run] at hends
  refine response_comes hends (fun u hbusy => ⟨read_step_busy hbusy, ?_⟩) hb
  exact (events_of_busy (by simp [BridgeS.idle, hbusy])).1

/-- The S side becomes idle again: otherwise nothing is accepted any more, and what is open ends. -/
theorem idle_again (t : Nat) : ∃ u ≥ t, (run step inp (reset engines) u).bridge.s.idle = true := by
  by_contra hnever
  have hopen : ∀ u ≥ t, (run step inp (reset engines) u).bridge.s.idle = false := fun u hu => by
    by_contra hi
    exact hnever ⟨u, hu, eq_true_of_ne_false hi⟩
  have hw : ∃ a ≥ t, (run step inp (reset engines) a).bridge.s.writeBusyQ = false := by
    have hends := @Bridge.write_ends _ (ticks inp engines) hmaster.clock (m_edges hm) (miner_answers engines hm) t
    simpa only [← bridge_run] using hends
  have hr : ∃ a ≥ t, (run step inp (reset engines) a).bridge.s.readBusyQ = false := by
    have hends := @Bridge.read_ends _ (ticks inp engines) hmaster.clock (m_edges hm) (miner_answers engines hm) t
    simpa only [← bridge_run] using hends
  obtain ⟨a, ha, hwa⟩ := hw
  obtain ⟨b, hb, hrb⟩ := hr
  have hwrite : ∀ u ≥ a, (run step inp (reset engines) u).bridge.s.writeBusyQ = false := by
    intro u hu
    induction u, hu using Nat.le_induction with
    | base => exact hwa
    | succ u hu ih => exact ((s_step_of_busy (hopen u (by omega))).1 ih).1
  have hread : ∀ u ≥ b, (run step inp (reset engines) u).bridge.s.readBusyQ = false := by
    intro u hu
    induction u, hu using Nat.le_induction with
    | base => exact hrb
    | succ u hu ih => exact ((s_step_of_busy (hopen u (by omega))).2 ih).1
  obtain ⟨c, hc, hbv⟩ := Slot.empties (x := fun u => (run step inp (reset engines) u).bridge.bSlot)
    (fun u hu => ((s_step_of_busy (hopen u (by omega))).1 (hwrite u hu)).2) hmaster.takesWrite
  obtain ⟨d, hd, hrv⟩ := Slot.empties (x := fun u => (run step inp (reset engines) u).bridge.rSlot)
    (fun u hu => ((s_step_of_busy (hopen u (by omega))).2 (hread u hu)).2) hmaster.takesRead
  have hbv' : (run step inp (reset engines) (max c d)).bridge.s.bvalid = false := hbv _ (le_max_left c d)
  have hrv' : (run step inp (reset engines) (max c d)).bridge.s.rvalid = false := hrv _ (le_max_right c d)
  have hnot := hopen (max c d) (by omega)
  rw [BridgeS.idle, hwrite _ (by omega), hread _ (by omega), hbv', hrv'] at hnot
  cases hnot

/-- And it is idle at one of its edges. -/
theorem idle_edge (t : Nat) :
    ∃ u ≥ t, (inp u).s.isSome = true ∧ (run step inp (reset engines) u).bridge.s.idle = true := by
  obtain ⟨a, ha, hidle⟩ := idle_again hm hmaster t
  obtain ⟨u, hu, hedge⟩ := hmaster.clock a
  obtain ⟨n, rfl⟩ := Nat.exists_eq_add_of_le hu
  clear hu
  induction n generalizing a with
  | zero => exact ⟨a, ha, hedge, hidle⟩
  | succ n ih =>
    cases hs : (inp a).s with
    | some i => exact ⟨a, ha, by rw [hs]; rfl, hidle⟩
    | none =>
      refine ih (a + 1) (by omega) ?_ (by rwa [Nat.add_right_comm, Nat.add_assoc])
      rw [s_step, hs]
      exact hidle

/-- What the next S edge finds. -/
def NextEdge (inp : Nat → BridgedTick) (P : BridgeSIn 12 → Prop) (t : Nat) : Prop :=
  ∀ u ≥ t, ∀ i, (inp u).s = some i → (∀ y ≥ t, y < u → (inp y).s = none) → P i

omit hm hmaster in
theorem NextEdge.succ {P : BridgeSIn 12 → Prop} {t : Nat} (h : NextEdge inp P t) (hs : (inp t).s = none) :
    NextEdge inp P (t + 1) := by
  intro u hu i hi hnone
  refine h u (by omega) i hi fun y hy hyu => ?_
  obtain rfl | hlt := Nat.eq_or_lt_of_le hy
  · exact hs
  · exact hnone y hlt hyu

/-- What the master holds until an idle edge is found there. -/
theorem request_waits {P : BridgeSIn 12 → Prop} {t : Nat} (h : NextEdge inp P t)
    (hholds : ∀ u i j, P i → (run step inp (reset engines) u).bridge.s.idle = false →
      Bridge.MasterHolds i (run step inp (reset engines) u).bridge.s j → P j) :
    ∃ u ≥ t, ∃ i, (inp u).s = some i ∧ P i ∧ (run step inp (reset engines) u).bridge.s.idle = true := by
  by_contra hnever
  have hwaits : ∀ u ≥ t, NextEdge inp P u := by
    intro u hu
    induction u, hu using Nat.le_induction with
    | base => exact h
    | succ u hu ih =>
      cases hs : (inp u).s with
      | none => exact ih.succ hs
      | some i =>
        have hi : P i := ih u le_rfl i hs fun y hy hyu => absurd hyu (by omega)
        have hopen : (run step inp (reset engines) u).bridge.s.idle = false := by
          by_contra hidle
          exact hnever ⟨u, hu, i, hs, hi, eq_true_of_ne_false hidle⟩
        intro v hv j hj hnone
        exact hholds u i j hi hopen (hmaster.holds u v i j hv hs hj fun y hy hyv => hnone y hy hyv)
  obtain ⟨u, hu, hedge, hidle⟩ := idle_edge hm hmaster t
  obtain ⟨i, hi⟩ := Option.isSome_iff_exists.1 hedge
  exact hnever ⟨u, hu, i, hi, hwaits u hu u le_rfl i hi fun y hy hyu => absurd hyu (by omega), hidle⟩

end Run

/-- Every request of the processor is accepted and answered. -/
structure Answers (inp : Nat → BridgedTick) (x : BridgedMiner cfg) : Prop where
  write : ∀ t i, (inp t).s = some i → i.awvalid = true → i.wvalid = true →
    ∃ u ≥ t, (run step inp x u).accepted (inp u) = some ⟨i.awaddr, i.wdata, i.wstrb⟩
  read : ∀ t i, (inp t).s = some i → i.arvalid = true → ∃ u ≥ t, (run step inp x u).asked (inp u) = some i.araddr
  /-- The response to a write, whatever its register, comes when it is in effect, with all writes before it and none
  after it. -/
  written : ∀ t r, (run step inp x t).accepted (inp t) = some r →
    ∃ u > t, (run step inp x u).bridge.s.bvalid = true ∧
      events step effect inp x u = (events step accepted inp x t ++ [r]).map WriteReq.decode ∧
      (run step inp x u).miner.core.regFile =
        (events step accepted inp x t ++ [r]).foldl RegFile.write x.miner.core.regFile
  answered : ∀ t a, (run step inp x t).asked (inp t) = some a →
    ∃ u > t, (run step inp x u).bridge.s.rvalid = true ∧ events step asked inp x u = events step asked inp x t ++ [a]

/-- **Progress.** While both clocks run, a compliant master has each of its requests accepted and answered. -/
theorem bridged_miner_answers {inp : Nat → BridgedTick} {engines : Fin cfg.numEngines → Engine}
    (hm : ∀ t, ∃ u ≥ t, (inp u).m = true) (hmaster : Master inp (reset engines)) : Answers inp (reset engines) := by
  constructor
  case write =>
    intro t i hi haw hwd
    have hnext : NextEdge inp (fun j => j.awvalid = true ∧ j.wvalid = true ∧ j.awaddr = i.awaddr ∧
        j.wdata = i.wdata ∧ j.wstrb = i.wstrb) t := by
      intro u hu j hj hnone
      obtain rfl | hlt := Nat.eq_or_lt_of_le hu
      · rw [hi, Option.some.injEq] at hj
        subst hj
        exact ⟨haw, hwd, rfl, rfl, rfl⟩
      · rw [hnone t le_rfl hlt] at hi
        cases hi
    obtain ⟨u, hu, j, hj, ⟨haw', hwd', haddr, hdata, hstrb⟩, hidle⟩ := request_waits hm hmaster hnext (by
      rintro u j j' ⟨haw', hwd', haddr, hdata, hstrb⟩ hidle hholds
      obtain ⟨haw'', haddr'⟩ := hholds.aw haw' (by simp [BridgeS.awready, hidle])
      obtain ⟨hwd'', hdata', hstrb'⟩ := hholds.w hwd' (by simp [BridgeS.wready, hidle])
      exact ⟨haw'', hwd'', haddr'.trans haddr, hdata'.trans hdata, hstrb'.trans hstrb⟩)
    refine ⟨u, hu, ?_⟩
    simp [accepted, Bridge.sWrite, tick, hj, BridgeS.acceptsWrite, BridgeS.awready, BridgeS.wready, haw', hwd', hidle,
      BridgeWrite.request, haddr, hdata, hstrb]
  case read =>
    intro t i hi har
    have hnext : NextEdge inp (fun j => j.arvalid = true ∧ j.araddr = i.araddr) t := by
      intro u hu j hj hnone
      obtain rfl | hlt := Nat.eq_or_lt_of_le hu
      · rw [hi, Option.some.injEq] at hj
        subst hj
        exact ⟨har, rfl⟩
      · rw [hnone t le_rfl hlt] at hi
        cases hi
    obtain ⟨u, hu, j, hj, ⟨har', haddr⟩, hidle⟩ := request_waits hm hmaster hnext (by
      rintro u j j' ⟨har', haddr⟩ hidle hholds
      obtain ⟨har'', haddr'⟩ := hholds.ar har' (by simp [BridgeS.arready, hidle])
      exact ⟨har'', haddr'.trans haddr⟩)
    refine ⟨u, hu, ?_⟩
    simp [asked, Bridge.sAr, tick, hj, BridgeS.acceptsRead, BridgeS.arready, har', hidle, haddr]
  case written =>
    intro t r hr
    have hbusy := busy_of_accepted (by rw [hr]; rfl)
    obtain ⟨u, hu, hb, hevents⟩ := write_answered hm hmaster hbusy
    refine ⟨u, by omega, hb, ?_⟩
    have hw := wired_run inp engines u
    obtain ⟨done, l, hacc, heff, hfile, hat⟩ := write_run inp engines u
    have hlen := hat.length_le hw
    rw [hw.ok.bvalid hb] at hlen
    have hl := List.eq_nil_of_length_eq_zero (Nat.le_zero.1 hlen)
    rw [hl, List.append_nil] at hacc
    have hdone : done = events step accepted inp (reset engines) t ++ [r] := by
      rw [← hacc, hevents, events_succ, hr]
      rfl
    exact ⟨hdone ▸ heff, hdone ▸ hfile⟩
  case answered =>
    intro t a ha
    have hbusy := busy_of_asked (by rw [ha]; rfl)
    obtain ⟨u, hu, hr, hevents⟩ := read_answered hm hmaster hbusy
    refine ⟨u, by omega, hr, ?_⟩
    rw [hevents, events_succ, ha]
    rfl

/-- A master that writes a register and reads it back all the time; its clock is half as fast again as that of the
miner. -/
def alwaysAsking (t : Nat) : BridgedTick :=
  ⟨if t % 2 = 0 then some ⟨0x080, true, 7, 0xf, true, true, 0x080, true, true⟩ else none, t % 3 == 0⟩

theorem alwaysAsking_s {t : Nat} {i : BridgeSIn 12} (h : (alwaysAsking t).s = some i) :
    i = ⟨0x080, true, 7, 0xf, true, true, 0x080, true, true⟩ := by
  unfold alwaysAsking at h
  split at h
  · exact (Option.some.inj h).symm
  · cases h

theorem alwaysAsking_even (t : Nat) : (alwaysAsking (2 * t)).s =
    some ⟨0x080, true, 7, 0xf, true, true, 0x080, true, true⟩ := by
  simp [alwaysAsking]

theorem alwaysAsking_master (x : BridgedMiner cfg) : Master alwaysAsking x := by
  constructor
  case clock => exact fun t => ⟨2 * t, by omega, by rw [alwaysAsking_even]; rfl⟩
  case holds =>
    intro t u i j _ hi hj _
    cases alwaysAsking_s hi
    cases alwaysAsking_s hj
    exact ⟨fun _ _ => ⟨rfl, rfl⟩, fun _ _ => ⟨rfl, rfl, rfl⟩, fun _ _ => ⟨rfl, rfl⟩⟩
  case takesWrite => exact fun t _ => ⟨2 * t, by omega, by rw [alwaysAsking_even]; rfl⟩
  case takesRead => exact fun t _ => ⟨2 * t, by omega, by rw [alwaysAsking_even]; rfl⟩

theorem alwaysAsking_answered :
    Answers alwaysAsking (reset fun _ => default : BridgedMiner singleEngine) :=
  bridged_miner_answers (fun t => ⟨3 * t, by omega, by simp [alwaysAsking]⟩) (alwaysAsking_master _)

end Vek280Miner.Rtl.BridgedMiner
