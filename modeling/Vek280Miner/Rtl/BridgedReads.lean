import Vek280Miner.Rtl.BridgedMiner

/-!
# The registers of the miner as the processor sees them

Every accepted read is on its way to the registers of the miner, or its value is on its way back (`ReadAt`); an instant
leaves it where it is or takes it one place on (`ReadAt.step`). So the processor has an atomic register file: the writes
that take effect are the accepted ones, in order, a write that is answered is in effect, and a read takes effect at one
instant between its acceptance and its answer (`bridged_miner_atomic`).
-/

namespace Vek280Miner.Rtl

open Clocked (run run_succ events events_succ)

namespace BridgedMiner

variable {cfg : MinerCfg} {k : BridgedTick} {x : BridgedMiner cfg}

/-! ## Reads -/

/-- The read pipeline of the miner is empty. -/
structure NoRead (a : MinerAxi cfg) : Prop where
  stage1 : a.rdStage1ValidQ = false
  stage2 : a.rdStage2ValidQ = false
  rvalid : a.rvalid = false

/-- Where the last read is: nowhere, in the link, on the bus; or its value is in the second stage of the miner, on the
bus, in the link, or with the processor. -/
inductive ReadAt (x : BridgedMiner cfg) : Option Word → Prop
  | rest : x.bridge.readLink.req.pending = false → x.bridge.m.readActiveQ = false →
      x.bridge.readLink.rsp.pending = false → x.bridge.s.rvalid = false → NoRead x.miner → ReadAt x none
  | requested : x.bridge.readLink.req.pending = true → NoRead x.miner → ReadAt x none
  | presented : x.bridge.m.readActiveQ = true → x.bridge.arSlot = ⟨true, x.bridge.s.readAddrQ⟩ →
      x.miner.rdStage2ValidQ = false → x.miner.rvalid = false → ReadAt x none
  | taken : x.bridge.m.readActiveQ = true → x.bridge.m.arvalid = false → x.miner.rdStage1ValidQ = false →
      x.miner.rdStage2ValidQ = true → x.miner.rvalid = false → ReadAt x (some x.miner.rdStage2DataQ)
  | answered : x.bridge.m.readActiveQ = true → x.bridge.m.arvalid = false → x.miner.rdStage1ValidQ = false →
      x.miner.rdStage2ValidQ = false → x.miner.rvalid = true → ReadAt x (some x.miner.rdata)
  | returned : x.bridge.readLink.rsp.pending = true → NoRead x.miner → ReadAt x (some x.bridge.m.readRspDataQ)
  | delivered : x.bridge.s.rvalid = true → NoRead x.miner → ReadAt x (some x.bridge.s.rdata)

variable {v : Option Word}

/-- A read whose value is on its way is open. -/
theorem ReadAt.not_idle (hw : Wired x) (h : ReadAt x v) (hv : v.isSome = true) : x.bridge.s.idle = false := by
  have hbusy : x.bridge.s.readBusyQ = (x.bridge.readLink.req.pending || x.bridge.readLink.active ||
      x.bridge.readLink.rsp.pending) := hw.ok.read.busy
  have hactive : x.bridge.readLink.active = x.bridge.m.readActiveQ := rfl
  cases h with
  | rest | requested | presented => cases hv
  | taken ha | answered ha => simp [BridgeS.idle, hbusy, hactive, ha]
  | returned hp => simp [BridgeS.idle, hbusy, hp]
  | delivered hr => simp [BridgeS.idle, hr]

/-- The value of a read is that of the addressed register at an instant of the read; from then on it stays. -/
def Fetches (k : BridgedTick) (x : BridgedMiner cfg) (v : Option Word) : Prop :=
  ∃ v', ReadAt (x.step k) v' ∧ (v' = none ∨ v' = v ∨
    x.bridge.s.readBusyQ = true ∧ v' = some (readReg id x.miner.core (wordAddr x.bridge.s.readAddrQ)))

section Edge

/-- The read pipeline of the miner at an edge of its clock. -/
theorem miner_read_step (h : Wired x) (hm : k.m = true) :
    (x.step k).miner.rdStage1ValidQ = x.miner.readFire x.bridge.m.master ∧
      (x.step k).miner.rdStage2ValidQ = x.miner.rdStage1ValidQ ∧
      (x.step k).miner.rvalid = (x.miner.rdStage2ValidQ || (x.miner.rvalid && !x.bridge.m.rready)) := by
  have hstep : (x.step k).miner = x.miner.step x.bridge.m.master := by simp [BridgedMiner.step, hm]
  rw [hstep]
  exact ⟨MinerAxi.PipeOk.rdStage1_step, h.pipe.rdStage2_step, h.pipe.rvalid_step⟩

/-- Without a request on the bus an empty read pipeline stays empty. -/
theorem noRead_step (h : Wired x) (hn : NoRead x.miner) (hv : x.bridge.m.arvalid = false) :
    NoRead (x.step k).miner := by
  cases hm : k.m with
  | false =>
    have hsame : (x.step k).miner = x.miner := by simp [BridgedMiner.step, hm]
    rwa [hsame]
  | true =>
    obtain ⟨h1, h2, hr⟩ := miner_read_step h hm
    refine ⟨h1.trans ?_, h2.trans hn.stage1, hr.trans ?_⟩
    · simp [MinerAxi.readFire, BridgeM.master, hv]
    · simp [hn.stage2, hn.rvalid]

/-- The bridge takes the value that the miner offers. -/
theorem mR_eq : x.bridge.mR (x.tick k) =
    if k.m && x.miner.rvalid && x.bridge.m.rready then some (x.miner.rdata, x.miner.rresp) else none := by
  cases hm : k.m with
  | false => simp [Bridge.mR, tick, hm]
  | true =>
    cases hv : x.miner.rvalid <;> cases hr : x.bridge.m.rready <;>
      simp [Bridge.mR, tick, hm, MinerAxi.slave, hv, hr]

/-- What an instant does to the link of the reads. -/
structure ReadLinkStep (k : BridgedTick) (x : BridgedMiner cfg) : Prop where
  req : (x.step k).bridge.readLink.req.pending =
    ((x.asked k).isSome || (x.bridge.readLink.req.pending && !x.bridge.readLink.issues (x.bridge.readTick (x.tick k))))
  addr : (x.step k).bridge.s.readAddrQ = (x.asked k).getD x.bridge.s.readAddrQ
  active : (x.step k).bridge.m.readActiveQ = (if (x.bridge.mR (x.tick k)).isSome then false
    else x.bridge.m.readActiveQ || x.bridge.readLink.issues (x.bridge.readTick (x.tick k)))
  rsp : (x.step k).bridge.readLink.rsp.pending = ((x.bridge.mR (x.tick k)).isSome ||
    (x.bridge.readLink.rsp.pending && !x.bridge.readLink.delivers (x.bridge.readTick (x.tick k))))
  data : (x.step k).bridge.m.readRspDataQ = ((x.bridge.mR (x.tick k)).map Prod.fst).getD x.bridge.m.readRspDataQ
  rvalid : (x.step k).bridge.s.rvalid = (x.bridge.readLink.delivers (x.bridge.readTick (x.tick k)) ||
    (x.bridge.s.rvalid && !k.s.any (·.rready)))
  rdata : (x.step k).bridge.s.rdata = if x.bridge.readLink.delivers (x.bridge.readTick (x.tick k))
    then x.bridge.m.readRspDataQ else x.bridge.s.rdata

theorem read_link_step (h : Wired x) : ReadLinkStep k x := by
  have hlink : (x.step k).bridge.readLink = x.bridge.readLink.step (x.bridge.readTick (x.tick k)) :=
    Bridge.readLink_step _ _
  obtain ⟨hreq, hrsp⟩ := h.ok.read.pending_step (k := x.bridge.readTick (x.tick k)) h.ok.allowed_read
  have hslot : (x.step k).bridge.rSlot = _ := Bridge.rSlot_step (k := x.tick k) (b := x.bridge)
  have hvalid := congrArg Slot.valid hslot
  have hdata := congrArg (fun y => y.data.1) hslot
  simp only [Slot.step, Link.delivered] at hvalid hdata
  constructor
  case req => exact (congrArg (fun l => l.req.pending) hlink).trans hreq
  case addr => exact congrArg Link.reqData hlink
  case active => exact congrArg Link.active hlink
  case rsp => exact (congrArg (fun l => l.rsp.pending) hlink).trans hrsp
  case data =>
    have hrspData := congrArg (fun l => l.rspData.1) hlink
    refine hrspData.trans ?_
    simp only [Link.step, Bridge.readTick]
    cases x.bridge.mR (x.tick k) <;> rfl
  case rvalid =>
    refine hvalid.trans ?_
    cases x.bridge.readLink.delivers (x.bridge.readTick (x.tick k)) <;> rfl
  case rdata =>
    refine hdata.trans ?_
    cases x.bridge.readLink.delivers (x.bridge.readTick (x.tick k)) <;> rfl

/-- While a read is open no other is accepted. -/
theorem closed_of_read (hw : Wired x) (h : x.bridge.readLink.req.pending = true ∨ x.bridge.m.readActiveQ = true ∨
    x.bridge.readLink.rsp.pending = true) : x.bridge.s.readBusyQ = true ∧ x.asked k = none := by
  have hbusy : x.bridge.s.readBusyQ = true := by
    have hphase : x.bridge.s.readBusyQ = (x.bridge.readLink.req.pending || x.bridge.readLink.active ||
        x.bridge.readLink.rsp.pending) := hw.ok.read.busy
    have hactive : x.bridge.readLink.active = x.bridge.m.readActiveQ := rfl
    rcases h with h | h | h <;> simp [hphase, hactive, h]
  have hidle : x.bridge.s.idle = false := by simp [BridgeS.idle, hbusy]
  exact ⟨hbusy, (closed_of_busy hidle).2⟩

theorem arvalid_of_inactive (hw : Wired x) (ha : x.bridge.m.readActiveQ = false) : x.bridge.m.arvalid = false := by
  by_contra hv
  rw [hw.ok.arvalid (eq_true_of_ne_false hv)] at ha
  cases ha

/-- The bridge takes no value while no read is with the miner. -/
theorem mR_of_noRead (hn : NoRead x.miner) : x.bridge.mR (x.tick k) = none := by
  simp [mR_eq, hn.rvalid]

theorem fetch_rest (hw : Wired x) (hp : x.bridge.readLink.req.pending = false) (ha : x.bridge.m.readActiveQ = false)
    (hr : x.bridge.readLink.rsp.pending = false) (hv : x.bridge.s.rvalid = false) (hn : NoRead x.miner) :
    Fetches k x none := by
  have hl := read_link_step (k := k) hw
  have hissues := hw.ok.read.not_issues (k := x.bridge.readTick (x.tick k)) hp
  have hdelivers := hw.ok.read.not_delivers (k := x.bridge.readTick (x.tick k)) hr
  have hn' := noRead_step (k := k) hw hn (arvalid_of_inactive hw ha)
  have hm := mR_of_noRead (k := k) hn
  refine ⟨none, ?_, .inl rfl⟩
  cases hacc : x.asked k with
  | none =>
    apply ReadAt.rest _ _ _ _ hn'
    · rw [hl.req, hacc, hp]
      rfl
    · rw [hl.active, hm, ha, hissues]
      rfl
    · rw [hl.rsp, hm, hr]
      rfl
    · rw [hl.rvalid, hdelivers, hv]
      rfl
  | some a =>
    apply ReadAt.requested _ hn'
    rw [hl.req, hacc]
    rfl

theorem fetch_requested (hw : Wired x) (hp : x.bridge.readLink.req.pending = true) (hn : NoRead x.miner) :
    Fetches k x none := by
  have hl := read_link_step (k := k) hw
  obtain ⟨hbusy, hacc⟩ := closed_of_read (k := k) hw (.inl hp)
  have ha : x.bridge.m.readActiveQ = false := (hw.ok.read.requested hp).1
  have hn' := noRead_step (k := k) hw hn (arvalid_of_inactive hw ha)
  refine ⟨none, ?_, .inl rfl⟩
  cases hi : x.bridge.readLink.issues (x.bridge.readTick (x.tick k)) with
  | false =>
    apply ReadAt.requested _ hn'
    rw [hl.req, hp, hi, Bool.not_false, Bool.and_true, Bool.or_true]
  | true =>
    have har := Bridge.arSlot_step (k := x.tick k) hw.ok
    simp only [Link.issued, hi, if_true, Option.map_some, id_eq, Slot.step, Option.isSome_some, Bool.true_or,
      Option.getD_some] at har
    apply ReadAt.presented _ _ hn'.stage2 hn'.rvalid
    · rw [hl.active, mR_of_noRead hn, hi, Bool.or_true]
      rfl
    · rw [hl.addr, hacc]
      exact har

/-- The value of a read is sampled at the handshake of its address. -/
theorem fetch_presented (hw : Wired x) (ha : x.bridge.m.readActiveQ = true)
    (har : x.bridge.arSlot = ⟨true, x.bridge.s.readAddrQ⟩) (h2 : x.miner.rdStage2ValidQ = false)
    (hr : x.miner.rvalid = false) : Fetches k x none := by
  have hl := read_link_step (k := k) hw
  obtain ⟨hbusy, hacc⟩ := closed_of_read (k := k) hw (.inr (.inl ha))
  have hissues := hw.ok.read.not_issues (k := x.bridge.readTick (x.tick k)) (hw.ok.read.not_requested ha)
  have hactive' : (x.step k).bridge.m.readActiveQ = true := by
    rw [hl.active, mR_eq, hr, ha]
    simp
  have haddr : (x.step k).bridge.s.readAddrQ = x.bridge.s.readAddrQ := by
    rw [hl.addr, hacc]
    rfl
  have har' := Bridge.arSlot_step (k := x.tick k) hw.ok
  simp only [Link.issued, hissues, Bool.false_eq_true, if_false, Option.map_none, Slot.step, Option.isSome_none,
    Bool.false_or, Option.getD_none, har] at har'
  rw [any_tick, ← haddr] at har'
  cases hm : k.m with
  | false =>
    have hsame : (x.step k).miner = x.miner := by simp [BridgedMiner.step, hm]
    rw [hm] at har'
    rw [← hsame] at h2 hr
    exact ⟨none, .presented hactive' har' h2 hr, .inl rfl⟩
  | true =>
    obtain ⟨hs1, hs2, hsr⟩ := miner_read_step hw hm
    have hsr' : (x.step k).miner.rvalid = false := by
      rw [hsr, h2, hr]
      rfl
    have hready : x.miner.slave.arready = x.miner.rdStage1ValidQ := hw.pipe.arready
    rw [hm, hready] at har'
    cases h1 : x.miner.rdStage1ValidQ with
    | false =>
      rw [h1] at har'
      exact ⟨none, .presented hactive' har' (hs2.trans h1) hsr', .inl rfl⟩
    | true =>
      rw [h1] at har'
      have htaken : ReadAt (x.step k) (some (x.step k).miner.rdStage2DataQ) := by
        apply ReadAt.taken hactive' (congrArg Slot.valid har') _ (hs2.trans h1) hsr'
        rw [hs1]
        simp [MinerAxi.readFire, h1]
      refine ⟨_, htaken, .inr (.inr ⟨hbusy, congrArg some ?_⟩)⟩
      have hstep : (x.step k).miner = x.miner.step x.bridge.m.master := by simp [BridgedMiner.step, hm]
      have hport : x.bridge.m.master.araddr = x.bridge.s.readAddrQ := congrArg Slot.data har
      rw [hstep, ← hport, ← (hw.presents.read h1).2]
      simp [MinerAxi.step, h1]

/-- Where the miner has taken the address, the request channel stays empty. -/
theorem empty_slot_step (hw : Wired x) (ha : x.bridge.m.readActiveQ = true) (har : x.bridge.m.arvalid = false) :
    (x.step k).bridge.m.arvalid = false := by
  have hissues := hw.ok.read.not_issues (k := x.bridge.readTick (x.tick k)) (hw.ok.read.not_requested ha)
  have har' := congrArg Slot.valid (Bridge.arSlot_step (k := x.tick k) hw.ok)
  simp only [Link.issued, hissues, Bool.false_eq_true, if_false, Option.map_none, Slot.step, Option.isSome_none,
    Bool.false_or, Bridge.arSlot, har, Bool.false_and] at har'
  exact har'

theorem fetch_taken (hw : Wired x) (ha : x.bridge.m.readActiveQ = true) (har : x.bridge.m.arvalid = false)
    (h1 : x.miner.rdStage1ValidQ = false) (h2 : x.miner.rdStage2ValidQ = true) (hr : x.miner.rvalid = false) :
    Fetches k x (some x.miner.rdStage2DataQ) := by
  have hl := read_link_step (k := k) hw
  have har' := empty_slot_step (k := k) hw ha har
  have hactive' : (x.step k).bridge.m.readActiveQ = true := by
    rw [hl.active, mR_eq, hr, ha]
    simp
  refine ⟨some x.miner.rdStage2DataQ, ?_, .inr (.inl rfl)⟩
  cases hm : k.m with
  | false =>
    have hsame : (x.step k).miner = x.miner := by simp [BridgedMiner.step, hm]
    rw [← hsame] at h1 h2 hr ⊢
    exact .taken hactive' har' h1 h2 hr
  | true =>
    obtain ⟨hs1, hs2, hsr⟩ := miner_read_step hw hm
    have hdata : (x.step k).miner.rdata = x.miner.rdStage2DataQ := by
      have hstep : (x.step k).miner = x.miner.step x.bridge.m.master := by simp [BridgedMiner.step, hm]
      rw [hstep]
      simp [MinerAxi.step, h2, hr]
    rw [← hdata]
    apply ReadAt.answered hactive' har' _ (hs2.trans h1)
    · rw [hsr, h2, Bool.true_or]
    · rw [hs1]
      simp [MinerAxi.readFire, BridgeM.master, har]

theorem fetch_answered (hw : Wired x) (ha : x.bridge.m.readActiveQ = true) (har : x.bridge.m.arvalid = false)
    (h1 : x.miner.rdStage1ValidQ = false) (h2 : x.miner.rdStage2ValidQ = false) (hr : x.miner.rvalid = true) :
    Fetches k x (some x.miner.rdata) := by
  have hl := read_link_step (k := k) hw
  have har' := empty_slot_step (k := k) hw ha har
  have hready : x.bridge.m.rready = true := by
    rw [hw.ok.rready, ha, har]
    rfl
  refine ⟨some x.miner.rdata, ?_, .inr (.inl rfl)⟩
  cases hm : k.m with
  | false =>
    have hsame : (x.step k).miner = x.miner := by simp [BridgedMiner.step, hm]
    have hactive' : (x.step k).bridge.m.readActiveQ = true := by
      rw [hl.active, mR_eq, hm, ha]
      simp
    rw [← hsame] at h1 h2 hr ⊢
    exact .answered hactive' har' h1 h2 hr
  | true =>
    obtain ⟨hs1, hs2, hsr⟩ := miner_read_step hw hm
    have hmR : x.bridge.mR (x.tick k) = some (x.miner.rdata, x.miner.rresp) := by
      rw [mR_eq, hm, hr, hready]
      rfl
    have hdata : (x.step k).bridge.m.readRspDataQ = x.miner.rdata := by
      rw [hl.data, hmR]
      rfl
    rw [← hdata]
    apply ReadAt.returned
    · rw [hl.rsp, hmR]
      rfl
    · refine ⟨?_, hs2.trans h1, ?_⟩
      · rw [hs1]
        simp [MinerAxi.readFire, BridgeM.master, har]
      · rw [hsr, h2, hready, Bool.not_true, Bool.and_false, Bool.or_false]

theorem fetch_returned (hw : Wired x) (hp : x.bridge.readLink.rsp.pending = true) (hn : NoRead x.miner) :
    Fetches k x (some x.bridge.m.readRspDataQ) := by
  have hl := read_link_step (k := k) hw
  have ha : x.bridge.m.readActiveQ = false := by
    by_contra ha
    have hserved := hw.ok.read.served (eq_true_of_ne_false ha)
    rw [hp] at hserved
    cases hserved
  have hn' := noRead_step (k := k) hw hn (arvalid_of_inactive hw ha)
  have hdata : (x.step k).bridge.m.readRspDataQ = x.bridge.m.readRspDataQ := by
    rw [hl.data, mR_of_noRead hn]
    rfl
  refine ⟨some x.bridge.m.readRspDataQ, ?_, .inr (.inl rfl)⟩
  cases hd : x.bridge.readLink.delivers (x.bridge.readTick (x.tick k)) with
  | false =>
    rw [← hdata]
    apply ReadAt.returned _ hn'
    rw [hl.rsp, hp, hd, Bool.not_false, Bool.and_true, Bool.or_true]
  | true =>
    have hrdata : (x.step k).bridge.s.rdata = x.bridge.m.readRspDataQ := by
      rw [hl.rdata, hd]
      rfl
    rw [← hrdata]
    apply ReadAt.delivered _ hn'
    rw [hl.rvalid, hd, Bool.true_or]

theorem fetch_delivered (hw : Wired x) (hv : x.bridge.s.rvalid = true) (hn : NoRead x.miner) :
    Fetches k x (some x.bridge.s.rdata) := by
  have hl := read_link_step (k := k) hw
  obtain ⟨hp, ha, hr⟩ := hw.ok.read.not_busy (hw.ok.rvalid hv)
  have hn' := noRead_step (k := k) hw hn (arvalid_of_inactive hw ha)
  have hdelivers := hw.ok.read.not_delivers (k := x.bridge.readTick (x.tick k)) hr
  have hissues := hw.ok.read.not_issues (k := x.bridge.readTick (x.tick k)) hp
  have hidle : x.bridge.s.idle = false := by simp [BridgeS.idle, hv]
  have hacc := (closed_of_busy (k := k) hidle).2
  have hm := mR_of_noRead (k := k) hn
  cases hready : k.s.any (·.rready) with
  | false =>
    refine ⟨some x.bridge.s.rdata, ?_, .inr (.inl rfl)⟩
    have hdata : (x.step k).bridge.s.rdata = x.bridge.s.rdata := by
      rw [hl.rdata, hdelivers]
      rfl
    rw [← hdata]
    apply ReadAt.delivered _ hn'
    rw [hl.rvalid, hv, hready, Bool.not_false, Bool.and_true, Bool.or_true]
  | true =>
    refine ⟨none, ?_, .inl rfl⟩
    apply ReadAt.rest _ _ _ _ hn'
    · rw [hl.req, hacc, hp]
      rfl
    · rw [hl.active, hm, hissues]
      exact (Bool.or_false _).trans ha
    · rw [hl.rsp, hm, hr]
      rfl
    · rw [hl.rvalid, hdelivers, hready, Bool.not_true, Bool.and_false]
      rfl

/-- **An instant** leaves the last read where it is, or takes it one place on. -/
theorem ReadAt.step (hw : Wired x) (h : ReadAt x v) : Fetches k x v := by
  cases h with
  | rest hp ha hr hv hn => exact fetch_rest hw hp ha hr hv hn
  | requested hp hn => exact fetch_requested hw hp hn
  | presented ha har h2 hr => exact fetch_presented hw ha har h2 hr
  | taken ha har h1 h2 hr => exact fetch_taken hw ha har h1 h2 hr
  | answered ha har h1 h2 hr => exact fetch_answered hw ha har h1 h2 hr
  | returned hp hn => exact fetch_returned hw hp hn
  | delivered hv hn => exact fetch_delivered hw hv hn

end Edge

/-! ## Whole runs -/

section Run

variable (inp : Nat → BridgedTick) (engines : Fin cfg.numEngines → Engine)

/-- The instants of a run as the bridge sees them. -/
def ticks (t : Nat) : BridgeTick 12 := (run step inp (reset engines) t).tick (inp t)

theorem bridge_run (n : Nat) :
    (run step inp (reset engines) n).bridge = run Bridge.step (ticks inp engines) .reset n := by
  induction n with
  | zero => rfl
  | succ n ih => rw [run_succ, run_succ, ← ih, ticks, BridgedMiner.step]

theorem asked_run (n : Nat) : events step asked inp (reset engines) n =
    events Bridge.step Bridge.sAr (ticks inp engines) .reset n := by
  apply Clocked.events_congr
  intro t _
  rw [← bridge_run]
  rfl

/-- The bridge has the address of the read that was accepted last. -/
theorem readAddr_run (n : Nat) : (events step asked inp (reset engines) n).getLast?.getD 0 =
    (run step inp (reset engines) n).bridge.s.readAddrQ := by
  induction n with
  | zero => rfl
  | succ n ih =>
    have hl := read_link_step (k := inp n) (wired_run inp engines n)
    rw [events_succ, run_succ, hl.addr, ← ih]
    cases (run step inp (reset engines) n).asked (inp n) with
    | none => simp
    | some a => simp

/-- The value `v` was read at an instant of the read that is open at `n`. -/
def ReadDuring (n : Nat) (v : Word) : Prop :=
  ∃ u < n, (run step inp (reset engines) u).bridge.s.readBusyQ = true ∧
    events step asked inp (reset engines) u = events step asked inp (reset engines) n ∧
    events step accepted inp (reset engines) u = events step accepted inp (reset engines) n ∧
    v = readReg id (run step inp (reset engines) u).miner.core
      (wordAddr (run step inp (reset engines) n).bridge.s.readAddrQ)

variable {inp engines}

/-- Nothing is accepted at an instant that finds a transaction open. -/
theorem events_of_busy {n : Nat} (h : (run step inp (reset engines) n).bridge.s.idle = false) :
    events step asked inp (reset engines) (n + 1) = events step asked inp (reset engines) n ∧
      events step accepted inp (reset engines) (n + 1) = events step accepted inp (reset engines) n ∧
      (run step inp (reset engines) (n + 1)).bridge.s.readAddrQ = (run step inp (reset engines) n).bridge.s.readAddrQ := by
  obtain ⟨hwrite, hask⟩ := closed_of_busy (k := inp n) h
  have hl := read_link_step (k := inp n) (wired_run inp engines n)
  refine ⟨?_, ?_, ?_⟩
  · rw [events_succ, hask]
    exact List.append_nil _
  · rw [events_succ, accepted, hwrite]
    exact List.append_nil _
  · rw [run_succ, hl.addr, hask]
    rfl

theorem ReadDuring.succ {n : Nat} {v : Word} (h : ReadDuring inp engines n v)
    (hidle : (run step inp (reset engines) n).bridge.s.idle = false) : ReadDuring inp engines (n + 1) v := by
  obtain ⟨u, hu, hbusy, hask, hacc, hv⟩ := h
  obtain ⟨hask', hacc', haddr⟩ := events_of_busy hidle
  exact ⟨u, by omega, hbusy, hask.trans hask'.symm, hacc.trans hacc'.symm, by rw [haddr, hv]⟩

variable (inp engines) in
theorem read_run (n : Nat) : ∃ v, ReadAt (run step inp (reset engines) n) v ∧
    ∀ w, v = some w → ReadDuring inp engines n w := by
  induction n with
  | zero =>
    refine ⟨none, .rest rfl rfl rfl rfl ⟨rfl, rfl, rfl⟩, ?_⟩
    intro w hw
    cases hw
  | succ n ih =>
    obtain ⟨v, hat, hv⟩ := ih
    have hw := wired_run inp engines n
    obtain ⟨v', hnext, hcases⟩ := hat.step (k := inp n) hw
    refine ⟨v', hnext, ?_⟩
    rintro w rfl
    obtain hnone | hsame | ⟨hbusy, hread⟩ := hcases
    · cases hnone
    · have hidle := hat.not_idle hw (by rw [← hsame]; rfl)
      exact (hv w hsame.symm).succ hidle
    · have hidle : (run step inp (reset engines) n).bridge.s.idle = false := by simp [BridgeS.idle, hbusy]
      obtain ⟨hask, hacc, haddr⟩ := events_of_busy hidle
      refine ⟨n, Nat.lt_succ_self n, hbusy, hask.symm, hacc.symm, ?_⟩
      rw [haddr]
      exact Option.some.inj hread

theorem readDuring_of_rvalid {n : Nat} (h : (run step inp (reset engines) n).bridge.s.rvalid = true) :
    ReadDuring inp engines n (run step inp (reset engines) n).bridge.s.rdata := by
  have hw := wired_run inp engines n
  obtain ⟨hp, ha, hr⟩ := hw.ok.read.not_busy (hw.ok.rvalid h)
  obtain ⟨v, hat, hv⟩ := read_run inp engines n
  have ha : (run step inp (reset engines) n).bridge.m.readActiveQ = false := ha
  cases hat with
  | rest _ _ _ hnone => exact absurd (hnone.symm.trans h) (by decide)
  | requested hp' => rw [hp'] at hp; cases hp
  | presented ha' => rw [ha'] at ha; cases ha
  | taken ha' => rw [ha'] at ha; cases ha
  | answered ha' => rw [ha'] at ha; cases ha
  | returned hr' => rw [hr'] at hr; cases hr
  | delivered => exact hv _ rfl

/-- The address of a read that is answered was accepted. -/
theorem last_asked {n : Nat} (h : (run step inp (reset engines) n).bridge.s.rvalid = true) :
    (events step asked inp (reset engines) n).getLast? =
      some (run step inp (reset engines) n).bridge.s.readAddrQ := by
  have hlen : (events step asked inp (reset engines) n).length ≠ 0 := by
    rw [asked_run, Bridge.read_replied _ (by rwa [← bridge_run])]
    exact Nat.succ_ne_zero _
  have hlast := readAddr_run inp engines n
  cases hl : (events step asked inp (reset engines) n).getLast? with
  | none =>
    rw [List.getLast?_eq_none_iff.1 hl] at hlen
    exact absurd rfl hlen
  | some a =>
    rw [hl] at hlast
    exact congrArg some hlast

/-- Without a write and a read accepted together, a read is open alone. -/
theorem not_writing {n : Nat} (h : ∀ t < n, ¬Bridge.Collides (ticks inp engines t) (run step inp (reset engines) t).bridge)
    (hr : (run step inp (reset engines) n).bridge.s.readBusyQ = true) :
    (run step inp (reset engines) n).bridge.s.writeBusyQ = false := by
  have hbusy : ∀ m ≤ n, ¬((run step inp (reset engines) m).bridge.s.writeBusyQ = true ∧
      (run step inp (reset engines) m).bridge.s.readBusyQ = true) := by
    intro m
    induction m with
    | zero =>
      intro _ hb
      cases hb.1
    | succ m ih => exact fun hm => Bridge.busy_step (ih (by omega)) (h m (by omega))
  by_contra hw
  exact hbusy n le_rfl ⟨eq_true_of_ne_false hw, hr⟩

end Run

/-- The processor has the registers of the miner as an atomic register file. -/
structure Atomic (inp : Nat → BridgedTick) (x : BridgedMiner cfg) : Prop where
  /-- The writes that take effect are the accepted ones, in order, but for at most the one that is open. -/
  writes : ∀ n, ∃ done, events step effect inp x n = done.map WriteReq.decode ∧
    Bridge.Received (run step inp x n).bridge.s.writeBusyQ (events step accepted inp x n) done ∧
    (run step inp x n).miner.core.regFile = done.foldl RegFile.write x.miner.core.regFile
  /-- A read gives what its address reads at one instant after it was accepted, and nothing is accepted since. -/
  reads : ∀ n, (run step inp x n).bridge.s.rvalid = true → ∃ u < n, ∃ a,
    (run step inp x u).bridge.s.readBusyQ = true ∧
      events step asked inp x u = events step asked inp x n ∧
      events step accepted inp x u = events step accepted inp x n ∧
      (events step asked inp x n).getLast? = some a ∧
      (run step inp x n).bridge.s.rdata = readReg id (run step inp x u).miner.core (wordAddr a)
  /-- A register reads as the accepted writes make it, unless a write and a read were accepted together. -/
  readBack : ∀ n, (run step inp x n).bridge.s.rvalid = true →
    (∀ t < n, ¬Bridge.Collides ((run step inp x t).tick (inp t)) (run step inp x t).bridge) →
    ∀ a (r : DataReg), (events step asked inp x n).getLast? = some a → wordAddr a = r.addr →
      ∀ b : Fin 4, byteAt (run step inp x n).bridge.s.rdata (b * 8) =
        (events step accepted inp x n).foldl RegFile.write x.miner.core.regFile r b

/-- **Atomicity.** Whatever the edges of the two clocks and the requests of the processor, the writes take effect once
each and in order, and every read is the value of its register at one instant between request and answer. -/
theorem bridged_miner_atomic (inp : Nat → BridgedTick) (engines : Fin cfg.numEngines → Engine) :
    Atomic inp (reset engines) := by
  have hwrites : ∀ n, ∃ done, events step effect inp (reset engines) n = done.map WriteReq.decode ∧
      Bridge.Received (run step inp (reset engines) n).bridge.s.writeBusyQ
        (events step accepted inp (reset engines) n) done ∧
      (run step inp (reset engines) n).miner.core.regFile =
        done.foldl RegFile.write (reset engines).miner.core.regFile := by
    intro n
    obtain ⟨done, l, hacc, heff, hfile, hat⟩ := write_run inp engines n
    exact ⟨done, heff, ⟨l, hacc, hat.length_le (wired_run inp engines n)⟩, hfile⟩
  refine ⟨hwrites, ?_, ?_⟩
  · intro n hr
    obtain ⟨u, hu, hbusy, hask, hacc, hv⟩ := readDuring_of_rvalid hr
    exact ⟨u, hu, _, hbusy, hask, hacc, last_asked hr, hv⟩
  · intro n hr hcol a r ha hreg b
    obtain ⟨u, hu, hbusy, -, hacc, hv⟩ := readDuring_of_rvalid hr
    obtain ⟨done, -, hdone, hfile⟩ := hwrites u
    rw [not_writing (fun t ht => hcol t (by omega)) hbusy] at hdone
    have haddr := ha.symm.trans (last_asked hr)
    rw [hv, ← Option.some.inj haddr, hreg, DataReg.readReg_addr, ← hacc, Bridge.received_eq hdone, ← hfile]
    rfl

end BridgedMiner

end Vek280Miner.Rtl
