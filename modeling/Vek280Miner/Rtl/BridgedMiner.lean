import Vek280Miner.Rtl.BridgeExclusion
import Vek280Miner.Rtl.BridgeProgress
import Vek280Miner.Rtl.BusTransfers

/-!
# The miner behind its bridge

In the block design the M side of `axi_lite_cdc_bridge` is wired to the bus of `bitcoin_miner_axi`. The processor sees
the S side; the two clocks have their edges in any order.

Every accepted write is on its way to the registers, or in effect (`WriteAt`), and an instant leaves it where it is or
takes it one place on (`WriteAt.step`). So the registers of the miner follow the accepted writes (`write_run`).
-/

namespace Vek280Miner.Rtl

open Clocked (run run_succ events events_succ)

/-! ## The system -/

structure BridgedMiner (cfg : MinerCfg) where
  bridge : Bridge 12
  miner : MinerAxi cfg

/-- The edges of an instant, with the inputs of the S side. -/
structure BridgedTick where
  s : Option (BridgeSIn 12)
  m : Bool

/-- What the miner samples. -/
def BridgeM.master (m : BridgeM 12) : AxiIn :=
  ⟨m.awaddr, m.awvalid, m.wdata, m.wstrb, m.wvalid, m.bready, m.araddr, m.arvalid, m.rready⟩

/-- What the M side samples. -/
def MinerAxi.slave {cfg : MinerCfg} (a : MinerAxi cfg) : BridgeMIn :=
  ⟨a.awready, a.wready, a.bresp, a.bvalid, a.arready, a.rdata, a.rresp, a.rvalid⟩

def BridgeWrite.request (r : BridgeWrite 12) : WriteReq := ⟨r.addr, r.data, r.strb⟩

namespace BridgedMiner

variable {cfg : MinerCfg} (k : BridgedTick) (x : BridgedMiner cfg)

/-- The instant as the bridge sees it. -/
def tick : BridgeTick 12 := ⟨k.s, if k.m then some x.miner.slave else none⟩

/-- The write that the processor has accepted. -/
def accepted : Option WriteReq := (x.bridge.sWrite (x.tick k)).map BridgeWrite.request

/-- The address of the read that the processor has accepted. -/
def asked : Option (BitVec 12) := x.bridge.sAr (x.tick k)

/-- The write that takes effect in the registers of the miner. -/
def effect : Option Write := if k.m then x.miner.applied else none

def step : BridgedMiner cfg where
  bridge := x.bridge.step (x.tick k)
  miner := if k.m then x.miner.step x.bridge.m.master else x.miner

/-- Both are reset together. -/
def reset (engines : Fin cfg.numEngines → Engine) : BridgedMiner cfg := ⟨.reset, .reset engines⟩

variable {k x}

/-! ## The two buses -/

/-- The bridge holds what it presents to the miner. -/
theorem holds_step (h : x.bridge.Ok) : MinerAxi.Holds x.bridge.m.master x.miner
    (x.bridge.m.step x.miner.slave x.bridge.s).master := by
  have haw := h.awvalid
  have hw := h.wvalid
  have har := h.arvalid
  constructor
  · intro hv hr
    have hv' : x.bridge.m.awvalid = true := hv
    have hissue : x.bridge.m.issuesWrite = false := by simp [BridgeM.issuesWrite, BridgeM.idle, haw hv']
    simp [BridgeM.master, BridgeM.step, MinerAxi.slave, hv', hr, hissue]
  · intro hv hr
    have hv' : x.bridge.m.wvalid = true := hv
    have hissue : x.bridge.m.issuesWrite = false := by simp [BridgeM.issuesWrite, BridgeM.idle, hw hv']
    simp [BridgeM.master, BridgeM.step, MinerAxi.slave, hv', hr, hissue]
  · intro hv hr
    have hv' : x.bridge.m.arvalid = true := hv
    have hissue : x.bridge.m.issuesRead = false := by simp [BridgeM.issuesRead, BridgeM.idle, har hv']
    simp [BridgeM.master, BridgeM.step, MinerAxi.slave, hv', hr, hissue]

/-- What the two buses keep in a run. -/
structure Wired (x : BridgedMiner cfg) : Prop where
  ok : x.bridge.Ok
  pipe : MinerAxi.PipeOk x.miner
  presents : MinerAxi.Presents x.bridge.m.master x.miner

theorem wired_reset (engines : Fin cfg.numEngines → Engine) : Wired (reset engines) :=
  ⟨Bridge.ok_reset, MinerAxi.pipeOk_reset,
    ⟨fun hv => by simp [reset, MinerAxi.reset] at hv, fun hv => by simp [reset, MinerAxi.reset] at hv⟩⟩

theorem Wired.step (h : Wired x) : Wired (x.step k) := by
  refine ⟨h.ok.step, ?_, ?_⟩
  · cases hm : k.m with
    | false => simpa [BridgedMiner.step, hm] using h.pipe
    | true => simpa [BridgedMiner.step, hm] using h.pipe.step
  · cases hm : k.m with
    | false => simpa [BridgedMiner.step, Bridge.step, tick, hm] using h.presents
    | true =>
      have hp := h.pipe.presents_step (holds_step h.ok)
      simpa [BridgedMiner.step, Bridge.step, tick, hm] using hp

/-- An open transaction keeps the S side from accepting another request. -/
theorem closed_of_busy (h : x.bridge.s.idle = false) : x.bridge.sWrite (x.tick k) = none ∧ x.asked k = none := by
  constructor
  · by_contra hn
    rw [(Bridge.sWrite_isSome (Option.isSome_iff_ne_none.2 hn)).2] at h
    cases h
  · by_contra hn
    rw [(Bridge.sAr_isSome (Option.isSome_iff_ne_none.2 hn)).2] at h
    cases h

/-! ## Writes -/

/-- The write pipeline of the miner is empty. -/
structure NoWrite (a : MinerAxi cfg) : Prop where
  stage1 : a.wrStage1ValidQ = false
  stage2 : a.wrStage2ValidQ = false
  bvalid : a.bvalid = false

/-- Where the last write is: nowhere, in the link, on the bus, in the second stage of the miner, or in effect with its
response on the bus; and the writes that are not in effect. -/
inductive WriteAt (x : BridgedMiner cfg) : List WriteReq → Prop
  | rest : x.bridge.writeLink.req.pending = false → x.bridge.m.writeActiveQ = false → NoWrite x.miner → WriteAt x []
  | requested : x.bridge.writeLink.req.pending = true → NoWrite x.miner →
      WriteAt x [x.bridge.writeLink.reqData.request]
  | presented (r : BridgeWrite 12) : x.bridge.m.writeActiveQ = true → x.bridge.awSlot = ⟨true, r.addr⟩ →
      x.bridge.wSlot = ⟨true, (r.data, r.strb)⟩ → x.miner.wrStage2ValidQ = false → x.miner.bvalid = false →
      WriteAt x [r.request]
  | taken (r : WriteReq) : x.bridge.m.writeActiveQ = true → x.bridge.m.awvalid = false → x.bridge.m.wvalid = false →
      x.miner.wrStage1ValidQ = false → x.miner.wrStage2ValidQ = true → x.miner.bvalid = false →
      x.miner.applied = some r.decode → WriteAt x [r]
  | answered : x.bridge.m.writeActiveQ = true → x.bridge.m.awvalid = false → x.bridge.m.wvalid = false →
      x.miner.wrStage1ValidQ = false → x.miner.wrStage2ValidQ = false → x.miner.bvalid = true → WriteAt x []

variable {l : List WriteReq}

/-- At most one accepted write is not in effect, and only while it is open. -/
theorem WriteAt.length_le (hw : Wired x) (h : WriteAt x l) : l.length ≤ x.bridge.s.writeBusyQ.toNat := by
  cases h with
  | rest | answered => exact Nat.zero_le _
  | requested hp =>
    rw [show x.bridge.s.writeBusyQ = _ from hw.ok.write.busy, hp]
    rfl
  | presented _ ha | taken _ ha =>
    rw [show x.bridge.s.writeBusyQ = true from hw.ok.write.busy_of_active ha]
    rfl

/-- A write leaves the list of those that are not in effect when it takes effect. -/
def Advances (k : BridgedTick) (x : BridgedMiner cfg) (l : List WriteReq) : Prop :=
  ∃ (e : Option WriteReq) (l' : List WriteReq),
    x.effect k = e.map WriteReq.decode ∧ l ++ (x.accepted k).toList = e.toList ++ l' ∧ WriteAt (x.step k) l'

section Edge

/-- The write pipeline of the miner at an edge of its clock. -/
theorem miner_write_step (h : Wired x) (hm : k.m = true) :
    (x.step k).miner.wrStage1ValidQ = x.miner.writeFire x.bridge.m.master ∧
      (x.step k).miner.wrStage2ValidQ = x.miner.wrStage1ValidQ ∧
      (x.step k).miner.bvalid = (x.miner.wrStage2ValidQ || (x.miner.bvalid && !x.bridge.m.bready)) := by
  have hstep : (x.step k).miner = x.miner.step x.bridge.m.master := by simp [BridgedMiner.step, hm]
  rw [hstep]
  exact ⟨h.pipe.wrStage1_step, h.pipe.wrStage2_step, h.pipe.bvalid_step⟩

theorem effect_none (h : x.miner.wrStage2ValidQ = false) : x.effect k = none := by
  simp [effect, MinerAxi.applied, MinerAxi.writeApply, h]

/-- Without a request on the bus an empty write pipeline stays empty. -/
theorem noWrite_step (h : Wired x) (hn : NoWrite x.miner) (hv : x.bridge.m.awvalid = false) :
    NoWrite (x.step k).miner := by
  cases hm : k.m with
  | false =>
    have hsame : (x.step k).miner = x.miner := by simp [BridgedMiner.step, hm]
    rwa [hsame]
  | true =>
    obtain ⟨h1, h2, hb⟩ := miner_write_step h hm
    refine ⟨h1.trans ?_, h2.trans hn.stage1, hb.trans ?_⟩
    · simp [MinerAxi.writeFire, BridgeM.master, hv]
    · simp [hn.stage2, hn.bvalid]

/-- What an instant does to the link of the writes. -/
theorem write_link_step (h : Wired x) :
    (x.step k).bridge.writeLink.req.pending = ((x.bridge.sWrite (x.tick k)).isSome ||
        (x.bridge.writeLink.req.pending && !x.bridge.writeLink.issues (x.bridge.writeTick (x.tick k)))) ∧
      (x.step k).bridge.writeLink.reqData = (x.bridge.sWrite (x.tick k)).getD x.bridge.writeLink.reqData ∧
      (x.step k).bridge.m.writeActiveQ = (if (x.bridge.mB (x.tick k)).isSome then false
        else x.bridge.m.writeActiveQ || x.bridge.writeLink.issues (x.bridge.writeTick (x.tick k))) := by
  have hlink : (x.step k).bridge.writeLink = x.bridge.writeLink.step (x.bridge.writeTick (x.tick k)) :=
    Bridge.writeLink_step _ _
  refine ⟨?_, ?_, ?_⟩
  · rw [hlink]
    exact (h.ok.write.pending_step h.ok.allowed_write).1
  · rw [hlink]
    rfl
  · exact congrArg Link.active hlink

/-- The bridge takes a response of the miner that it is ready for. -/
theorem mB_eq : (x.bridge.mB (x.tick k)).isSome = (k.m && x.miner.bvalid && x.bridge.m.bready) := by
  cases hm : k.m with
  | false => simp [Bridge.mB, tick, hm]
  | true => cases hb : x.miner.bvalid <;> cases hr : x.bridge.m.bready <;> simp [Bridge.mB, tick, hm, MinerAxi.slave, hb, hr]

/-- While a write is on its way to the miner no other is accepted. -/
theorem closed_of_write (hw : Wired x) (h : x.bridge.writeLink.req.pending = true ∨ x.bridge.m.writeActiveQ = true) :
    x.bridge.sWrite (x.tick k) = none ∧ x.accepted k = none := by
  have hbusy : x.bridge.s.writeBusyQ = true := by
    refine hw.ok.write.busy.trans ?_
    rcases h with hp | ha
    · simp [hp]
    · have ha' : x.bridge.writeLink.active = true := ha
      simp [ha']
  have hidle : x.bridge.s.idle = false := by simp [BridgeS.idle, hbusy]
  have hnone := (closed_of_busy (k := k) hidle).1
  exact ⟨hnone, by simp [accepted, hnone]⟩

/-- A write that stays where it is or moves on without taking effect. -/
theorem advances_of_kept {r : WriteReq} (he : x.effect k = none) (ha : x.accepted k = none)
    (h : WriteAt (x.step k) [r]) : Advances k x [r] := by
  refine ⟨none, [r], he, ?_, h⟩
  rw [ha]
  rfl

theorem advances_of_none (he : x.effect k = none) (ha : x.accepted k = none) (h : WriteAt (x.step k) []) :
    Advances k x [] := by
  refine ⟨none, [], he, ?_, h⟩
  rw [ha]
  rfl

theorem awvalid_of_inactive (hw : Wired x) (ha : x.bridge.m.writeActiveQ = false) : x.bridge.m.awvalid = false := by
  by_contra hv
  rw [hw.ok.awvalid (eq_true_of_ne_false hv)] at ha
  cases ha

/-- Where no write is on its way one may be accepted. -/
theorem step_rest (hw : Wired x) (hp : x.bridge.writeLink.req.pending = false) (ha : x.bridge.m.writeActiveQ = false)
    (hn : NoWrite x.miner) : Advances k x [] := by
  obtain ⟨hpending, hdata, hactive⟩ := write_link_step (k := k) hw
  have hissues := hw.ok.write.not_issues (k := x.bridge.writeTick (x.tick k)) hp
  have hn' := noWrite_step (k := k) hw hn (awvalid_of_inactive hw ha)
  have hactive' : (x.step k).bridge.m.writeActiveQ = false := by
    rw [hactive, ha, hissues]
    simp
  cases hacc : x.bridge.sWrite (x.tick k) with
  | none =>
    refine advances_of_none (effect_none hn.stage2) (by simp [accepted, hacc]) (.rest ?_ hactive' hn')
    simp [hpending, hp, hacc]
  | some r =>
    refine ⟨none, [r.request], effect_none hn.stage2, by simp [accepted, hacc], ?_⟩
    have hnext : WriteAt (x.step k) [(x.step k).bridge.writeLink.reqData.request] :=
      .requested (by simp [hpending, hacc]) hn'
    rwa [hdata, hacc] at hnext

theorem step_requested (hw : Wired x) (hp : x.bridge.writeLink.req.pending = true) (hn : NoWrite x.miner) :
    Advances k x [x.bridge.writeLink.reqData.request] := by
  obtain ⟨hpending, hdata, hactive⟩ := write_link_step (k := k) hw
  obtain ⟨hnone, hacc⟩ := closed_of_write (k := k) hw (.inl hp)
  have ha : x.bridge.m.writeActiveQ = false := (hw.ok.write.requested hp).1
  have hb : (x.bridge.mB (x.tick k)).isSome = false := by
    by_contra hb
    rw [(hw.ok.bready (Bridge.mB_isSome (eq_true_of_ne_false hb)).2).1] at ha
    cases ha
  have hn' := noWrite_step (k := k) hw hn (awvalid_of_inactive hw ha)
  apply advances_of_kept (effect_none hn.stage2) hacc
  cases hi : x.bridge.writeLink.issues (x.bridge.writeTick (x.tick k)) with
  | false =>
    have hnext : WriteAt (x.step k) [(x.step k).bridge.writeLink.reqData.request] :=
      .requested (by simp [hpending, hp, hi]) hn'
    rwa [hdata, hnone] at hnext
  | true =>
    have haw := Bridge.awSlot_step (k := x.tick k) hw.ok
    have hwd := Bridge.wSlot_step (k := x.tick k) hw.ok
    simp only [Link.issued, hi, if_true, Option.map_some, Slot.step, Option.isSome_some, Bool.true_or,
      Option.getD_some] at haw hwd
    exact .presented x.bridge.writeLink.reqData (by simp [hactive, hb, hi]) haw hwd hn'.stage2 hn'.bvalid

theorem any_tick (f : BridgeMIn → Bool) : (x.tick k).m.any f = (k.m && f x.miner.slave) := by
  cases hm : k.m <;> simp [tick, hm]

theorem step_presented (hw : Wired x) {r : BridgeWrite 12} (ha : x.bridge.m.writeActiveQ = true)
    (haw : x.bridge.awSlot = ⟨true, r.addr⟩) (hwd : x.bridge.wSlot = ⟨true, (r.data, r.strb)⟩)
    (h2 : x.miner.wrStage2ValidQ = false) (hb : x.miner.bvalid = false) : Advances k x [r.request] := by
  obtain ⟨-, -, hactive⟩ := write_link_step (k := k) hw
  obtain ⟨-, hacc⟩ := closed_of_write (k := k) hw (.inr ha)
  have hissues := hw.ok.write.not_issues (k := x.bridge.writeTick (x.tick k)) (hw.ok.write.not_requested ha)
  have hactive' : (x.step k).bridge.m.writeActiveQ = true := by
    rw [hactive, mB_eq, hb, ha]
    simp
  have haw' := Bridge.awSlot_step (k := x.tick k) hw.ok
  have hwd' := Bridge.wSlot_step (k := x.tick k) hw.ok
  simp only [Link.issued, hissues, Bool.false_eq_true, if_false, Option.map_none, Slot.step, Option.isSome_none,
    Bool.false_or, Option.getD_none, haw, hwd] at haw' hwd'
  rw [any_tick] at haw' hwd'
  apply advances_of_kept (effect_none h2) hacc
  cases hm : k.m with
  | false =>
    have hsame : (x.step k).miner = x.miner := by simp [BridgedMiner.step, hm]
    rw [hm] at haw' hwd'
    rw [← hsame] at h2 hb
    exact .presented r hactive' haw' hwd' h2 hb
  | true =>
    obtain ⟨hs1, hs2, hsb⟩ := miner_write_step hw hm
    have hsb' : (x.step k).miner.bvalid = false := by
      rw [hsb, h2, hb]
      rfl
    have hawr : x.miner.slave.awready = x.miner.wrStage1ValidQ := hw.pipe.awready
    have hwr : x.miner.slave.wready = x.miner.wrStage1ValidQ := hw.pipe.wready
    rw [hm, hawr] at haw'
    rw [hm, hwr] at hwd'
    cases h1 : x.miner.wrStage1ValidQ with
    | false =>
      rw [h1] at haw' hwd'
      exact .presented r hactive' haw' hwd' (hs2.trans h1) hsb'
    | true =>
      rw [h1] at haw' hwd'
      have hport : x.bridge.m.awaddr = r.addr ∧ x.bridge.m.wdata = r.data ∧ x.bridge.m.wstrb = r.strb :=
        ⟨congrArg Slot.data haw, congrArg (fun y => y.data.1) hwd, congrArg (fun y => y.data.2) hwd⟩
      have htaken : x.miner.writeTaken x.bridge.m.master = some r.request := by
        rw [MinerAxi.writeTaken_eq hw.pipe hw.presents, h1]
        simp [BridgeM.master, BridgeWrite.request, hport]
      refine .taken r.request hactive' (congrArg Slot.valid haw') (congrArg Slot.valid hwd') ?_ (hs2.trans h1) hsb' ?_
      · rw [hs1]
        simp [MinerAxi.writeFire, h1]
      · have hstep : (x.step k).miner = x.miner.step x.bridge.m.master := by simp [BridgedMiner.step, hm]
        rw [hstep, MinerAxi.applied_step hw.pipe hw.presents, htaken]
        rfl

/-- Where the miner has taken the request, the request channels stay empty. -/
theorem empty_slots_step (hw : Wired x) (ha : x.bridge.m.writeActiveQ = true) (haw : x.bridge.m.awvalid = false)
    (hwd : x.bridge.m.wvalid = false) : (x.step k).bridge.m.awvalid = false ∧ (x.step k).bridge.m.wvalid = false := by
  have hissues := hw.ok.write.not_issues (k := x.bridge.writeTick (x.tick k)) (hw.ok.write.not_requested ha)
  have haw' := congrArg Slot.valid (Bridge.awSlot_step (k := x.tick k) hw.ok)
  have hwd' := congrArg Slot.valid (Bridge.wSlot_step (k := x.tick k) hw.ok)
  simp only [Link.issued, hissues, Bool.false_eq_true, if_false, Option.map_none, Slot.step, Option.isSome_none,
    Bool.false_or, Bridge.awSlot, Bridge.wSlot, haw, hwd, Bool.false_and] at haw' hwd'
  exact ⟨haw', hwd'⟩

theorem step_taken (hw : Wired x) {r : WriteReq} (ha : x.bridge.m.writeActiveQ = true) (haw : x.bridge.m.awvalid = false)
    (hwd : x.bridge.m.wvalid = false) (h1 : x.miner.wrStage1ValidQ = false) (h2 : x.miner.wrStage2ValidQ = true)
    (hb : x.miner.bvalid = false) (happ : x.miner.applied = some r.decode) : Advances k x [r] := by
  obtain ⟨-, -, hactive⟩ := write_link_step (k := k) hw
  obtain ⟨-, hacc⟩ := closed_of_write (k := k) hw (.inr ha)
  obtain ⟨haw', hwd'⟩ := empty_slots_step (k := k) hw ha haw hwd
  have hactive' : (x.step k).bridge.m.writeActiveQ = true := by
    rw [hactive, mB_eq, hb, ha]
    simp
  cases hm : k.m with
  | false =>
    have hsame : (x.step k).miner = x.miner := by simp [BridgedMiner.step, hm]
    rw [← hsame] at h1 h2 hb happ
    exact advances_of_kept (by simp [effect, hm]) hacc (.taken r hactive' haw' hwd' h1 h2 hb happ)
  | true =>
    obtain ⟨hs1, hs2, hsb⟩ := miner_write_step hw hm
    refine ⟨some r, [], by simp [effect, hm, happ], by simp [hacc], .answered hactive' haw' hwd' ?_ (hs2.trans h1) ?_⟩
    · rw [hs1]
      simp [MinerAxi.writeFire, BridgeM.master, haw]
    · rw [hsb, h2]
      rfl

theorem step_answered (hw : Wired x) (ha : x.bridge.m.writeActiveQ = true) (haw : x.bridge.m.awvalid = false)
    (hwd : x.bridge.m.wvalid = false) (h1 : x.miner.wrStage1ValidQ = false) (h2 : x.miner.wrStage2ValidQ = false)
    (hb : x.miner.bvalid = true) : Advances k x [] := by
  obtain ⟨hpending, -, hactive⟩ := write_link_step (k := k) hw
  obtain ⟨hnone, hacc⟩ := closed_of_write (k := k) hw (.inr ha)
  obtain ⟨haw', hwd'⟩ := empty_slots_step (k := k) hw ha haw hwd
  apply advances_of_none (effect_none h2) hacc
  cases hm : k.m with
  | false =>
    have hsame : (x.step k).miner = x.miner := by simp [BridgedMiner.step, hm]
    rw [← hsame] at h1 h2 hb
    refine .answered ?_ haw' hwd' h1 h2 hb
    rw [hactive, mB_eq, hm, ha]
    simp
  | true =>
    obtain ⟨hs1, hs2, hsb⟩ := miner_write_step hw hm
    have hs1' : (x.step k).miner.wrStage1ValidQ = false := by
      rw [hs1]
      simp [MinerAxi.writeFire, BridgeM.master, haw]
    cases hr : x.bridge.m.bready with
    | false =>
      refine .answered ?_ haw' hwd' hs1' (hs2.trans h1) ?_
      · rw [hactive, mB_eq, hr, ha]
        simp
      · rw [hsb, hb, hr, Bool.not_false, Bool.and_true, Bool.or_true]
    | true =>
      refine .rest ?_ ?_ ⟨hs1', hs2.trans h1, ?_⟩
      · rw [hpending, hnone, hw.ok.write.not_requested ha]
        rfl
      · rw [hactive, mB_eq, hm, hb, hr]
        rfl
      · rw [hsb, h2, hr, Bool.not_true, Bool.and_false, Bool.or_false]

/-- **An instant** leaves the last write where it is, or takes it one place on. -/
theorem WriteAt.step (hw : Wired x) (h : WriteAt x l) : Advances k x l := by
  cases h with
  | rest hp ha hn => exact step_rest hw hp ha hn
  | requested hp hn => exact step_requested hw hp hn
  | presented r ha haw hwd h2 hb => exact step_presented hw ha haw hwd h2 hb
  | taken r ha haw hwd h1 h2 hb happ => exact step_taken hw ha haw hwd h1 h2 hb happ
  | answered ha haw hwd h1 h2 hb => exact step_answered hw ha haw hwd h1 h2 hb

end Edge

/-! ## Whole runs -/

section Run

variable (inp : Nat → BridgedTick) (engines : Fin cfg.numEngines → Engine)

theorem wired_run (n : Nat) : Wired (run step inp (reset engines) n) :=
  Clocked.run_invariant (wired_reset engines) (fun _ _ h => h.step) n

/-- The registers follow the writes that take effect. -/
theorem regFile_effect {e : Option WriteReq} (h : x.effect k = e.map WriteReq.decode) :
    (x.step k).miner.core.regFile = e.elim x.miner.core.regFile x.miner.core.regFile.write := by
  cases hm : k.m with
  | false =>
    cases e with
    | none => simp [BridgedMiner.step, hm]
    | some r => simp [effect, hm] at h
  | true =>
    have hcore : (x.step k).miner.core = x.miner.core.step Engine.resultNonceO (e.map WriteReq.decode) := by
      rw [← h]
      simp [BridgedMiner.step, MinerAxi.step, effect, hm]
    rw [hcore]
    exact regFile_step e

theorem write_run (n : Nat) : ∃ done l, events step accepted inp (reset engines) n = done ++ l ∧
    events step effect inp (reset engines) n = done.map WriteReq.decode ∧
    (run step inp (reset engines) n).miner.core.regFile = done.foldl RegFile.write (reset engines).miner.core.regFile ∧
    WriteAt (run step inp (reset engines) n) l := by
  induction n with
  | zero => exact ⟨[], [], rfl, rfl, rfl, .rest rfl rfl ⟨rfl, rfl, rfl⟩⟩
  | succ n ih =>
    obtain ⟨done, l, hacc, heff, hfile, hat⟩ := ih
    obtain ⟨e, l', he, hl, hnext⟩ := hat.step (k := inp n) (wired_run inp engines n)
    refine ⟨done ++ e.toList, l', ?_, ?_, ?_, hnext⟩
    · rw [events_succ, hacc, List.append_assoc, hl, List.append_assoc]
    · rw [events_succ, heff, he, List.map_append]
      cases e <;> rfl
    · rw [run_succ, regFile_effect he, hfile, List.foldl_append]
      cases e <;> rfl

end Run

end BridgedMiner

end Vek280Miner.Rtl
