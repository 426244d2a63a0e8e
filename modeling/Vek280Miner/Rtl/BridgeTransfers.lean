import Vek280Miner.Lib.Events
import Vek280Miner.Rtl.CdcBridge

/-!
# What the bridge delivers

A request accepted on the S side crosses its link, is offered on the M side until it is taken, and its response comes
back the same way. Each station holds at most one transfer and passes on what it gets, so the transfers of the M side
are those of the S side, in order, but for the one that is on its way (`Bridge.DeliversOnce`); and while the clocks run
and the slave answers, none stays on its way.
-/

namespace Vek280Miner.Rtl

variable {w : Nat}

namespace Bridge

/-! ## Transfers -/

/-- The address that an S edge accepts. -/
def sAw (k : BridgeTick w) (b : Bridge w) : Option (BitVec w) :=
  k.s.bind fun i => if i.awvalid && b.s.awready i then some i.awaddr else none

/-- The data that an S edge accepts. -/
def sW (k : BridgeTick w) (b : Bridge w) : Option (Word × BitVec 4) :=
  k.s.bind fun i => if i.wvalid && b.s.wready i then some (i.wdata, i.wstrb) else none

/-- The write response that the master takes. -/
def sB (k : BridgeTick w) (b : Bridge w) : Option (BitVec 2) :=
  k.s.bind fun i => if b.s.bvalid && i.bready then some b.s.bresp else none

/-- The read response that the master takes. -/
def sR (k : BridgeTick w) (b : Bridge w) : Option (Word × BitVec 2) :=
  k.s.bind fun i => if b.s.rvalid && i.rready then some (b.s.rdata, b.s.rresp) else none

/-- The address of a write that the slave takes. -/
def mAw (k : BridgeTick w) (b : Bridge w) : Option (BitVec w) :=
  k.m.bind fun i => if b.m.awvalid && i.awready then some b.m.awaddr else none

/-- The data of a write that the slave takes. -/
def mW (k : BridgeTick w) (b : Bridge w) : Option (Word × BitVec 4) :=
  k.m.bind fun i => if b.m.wvalid && i.wready then some (b.m.wdata, b.m.wstrb) else none

/-- The address of a read that the slave takes. -/
def mAr (k : BridgeTick w) (b : Bridge w) : Option (BitVec w) :=
  k.m.bind fun i => if b.m.arvalid && i.arready then some b.m.araddr else none

/-! ## The registers of a reachable state -/

structure Ok (b : Bridge w) : Prop where
  write : b.writeLink.Ok
  read : b.readLink.Ok
  awvalid : b.m.awvalid = true → b.m.writeActiveQ = true
  wvalid : b.m.wvalid = true → b.m.writeActiveQ = true
  bready : b.m.bready = true → b.m.writeActiveQ = true ∧ b.m.awvalid = false ∧ b.m.wvalid = false
  arvalid : b.m.arvalid = true → b.m.readActiveQ = true
  rready : b.m.rready = (b.m.readActiveQ && !b.m.arvalid)
  bvalid : b.s.bvalid = true → b.s.writeBusyQ = false
  rvalid : b.s.rvalid = true → b.s.readBusyQ = false

theorem ok_reset : (reset : Bridge w).Ok := by
  constructor
  case write | read => constructor <;> simp [reset, writeLink, readLink, BridgeS.reset, BridgeM.reset, Wire.Ok, Wire.pending]
  all_goals simp [reset, BridgeS.reset, BridgeM.reset]

section Step

variable {k : BridgeTick w} {b : Bridge w}

theorem sWrite_isSome (h : (b.sWrite k).isSome = true) : k.s.isSome = true ∧ b.s.idle = true := by
  cases hk : k.s with
  | none => simp [sWrite, hk] at h
  | some i =>
    simp only [sWrite, hk, Option.bind_some, BridgeS.acceptsWrite, BridgeS.awready] at h
    exact ⟨rfl, by_contra fun hn => by simp [eq_false_of_ne_true hn] at h⟩

theorem sAr_isSome (h : (b.sAr k).isSome = true) : k.s.isSome = true ∧ b.s.idle = true := by
  cases hk : k.s with
  | none => simp [sAr, hk] at h
  | some i =>
    simp only [sAr, hk, Option.bind_some, BridgeS.acceptsRead, BridgeS.arready] at h
    exact ⟨rfl, by_contra fun hn => by simp [eq_false_of_ne_true hn] at h⟩

theorem mB_isSome (h : (b.mB k).isSome = true) : k.m.isSome = true ∧ b.m.bready = true := by
  cases hk : k.m with
  | none => simp [mB, hk] at h
  | some i =>
    simp only [mB, hk, Option.bind_some] at h
    exact ⟨rfl, by_contra fun hn => by simp [eq_false_of_ne_true hn] at h⟩

theorem mR_isSome (h : (b.mR k).isSome = true) : k.m.isSome = true ∧ b.m.rready = true := by
  cases hk : k.m with
  | none => simp [mR, hk] at h
  | some i =>
    simp only [mR, hk, Option.bind_some] at h
    exact ⟨rfl, by_contra fun hn => by simp [eq_false_of_ne_true hn] at h⟩

theorem Ok.allowed_write (h : b.Ok) : Link.Allowed (b.writeTick k) b.writeLink where
  accept := by
    intro ha
    obtain ⟨hedge, hidle⟩ := sWrite_isSome ha
    simp only [BridgeS.idle, Bool.and_eq_true, Bool.not_eq_true'] at hidle
    exact ⟨hedge, hidle.1.1.1⟩
  enable := by
    intro he
    simp only [writeTick, BridgeM.idle, Bool.and_eq_true, Bool.not_eq_true'] at he
    exact he.1
  finish := by
    intro hf
    obtain ⟨hedge, hready⟩ := mB_isSome hf
    exact ⟨hedge, (h.bready hready).1⟩

theorem Ok.allowed_read (h : b.Ok) : Link.Allowed (b.readTick k) b.readLink where
  accept := by
    intro ha
    obtain ⟨hedge, hidle⟩ := sAr_isSome ha
    simp only [BridgeS.idle, Bool.and_eq_true, Bool.not_eq_true'] at hidle
    exact ⟨hedge, hidle.1.1.2⟩
  enable := by
    intro he
    simp only [readTick, BridgeM.idle, Bool.and_eq_true, Bool.not_eq_true'] at he
    exact he.2
  finish := by
    intro hf
    obtain ⟨hedge, hready⟩ := mR_isSome hf
    rw [h.rready, Bool.and_eq_true] at hready
    exact ⟨hedge, hready.1⟩

/-- The channels of the M side keep to their transactions. -/
theorem Ok.step_m (h : b.Ok) (i : BridgeMIn) :
    let m := b.m.step i b.s
    (m.awvalid = true → m.writeActiveQ = true) ∧ (m.wvalid = true → m.writeActiveQ = true) ∧
      (m.bready = true → m.writeActiveQ = true ∧ m.awvalid = false ∧ m.wvalid = false) ∧
      (m.arvalid = true → m.readActiveQ = true) ∧ m.rready = (m.readActiveQ && !m.arvalid) := by
  have haw := h.awvalid
  have hw := h.wvalid
  have hb := h.bready
  have har := h.arvalid
  have hr := h.rready
  simp only [BridgeM.step, BridgeM.issuesWrite, BridgeM.issuesRead, BridgeM.idle]
  refine ⟨?_, ?_, ?_, ?_, ?_⟩ <;> grind

/-- The channels of the S side keep to their transactions. -/
theorem Ok.step_s (h : b.Ok) (i : BridgeSIn w) :
    let s := b.s.step i b.m
    (s.bvalid = true → s.writeBusyQ = false) ∧ (s.rvalid = true → s.readBusyQ = false) := by
  have hb := h.bvalid
  have hr := h.rvalid
  simp only [BridgeS.step, BridgeS.writeAnswered, BridgeS.readAnswered, BridgeS.acceptsWrite, BridgeS.acceptsRead,
    BridgeS.awready, BridgeS.wready, BridgeS.arready, BridgeS.idle]
  refine ⟨?_, ?_⟩ <;> grind

theorem Ok.step (h : b.Ok) : (b.step k).Ok := by
  have hwrite : (b.step k).writeLink.Ok := by
    rw [writeLink_step]
    exact h.write.step h.allowed_write
  have hread : (b.step k).readLink.Ok := by
    rw [readLink_step]
    exact h.read.step h.allowed_read
  obtain ⟨ks, km⟩ := k
  cases ks with
  | none =>
    cases km with
    | none => exact ⟨hwrite, hread, h.awvalid, h.wvalid, h.bready, h.arvalid, h.rready, h.bvalid, h.rvalid⟩
    | some i =>
      obtain ⟨haw, hw, hb, har, hr⟩ := h.step_m i
      exact ⟨hwrite, hread, haw, hw, hb, har, hr, h.bvalid, h.rvalid⟩
  | some j =>
    obtain ⟨hbv, hrv⟩ := h.step_s j
    cases km with
    | none => exact ⟨hwrite, hread, h.awvalid, h.wvalid, h.bready, h.arvalid, h.rready, hbv, hrv⟩
    | some i =>
      obtain ⟨haw, hw, hb, har, hr⟩ := h.step_m i
      exact ⟨hwrite, hread, haw, hw, hb, har, hr, hbv, hrv⟩

/-! ## The stations of a transfer -/

def awSlot (b : Bridge w) : Slot (BitVec w) := ⟨b.m.awvalid, b.m.awaddr⟩

def wSlot (b : Bridge w) : Slot (Word × BitVec 4) := ⟨b.m.wvalid, (b.m.wdata, b.m.wstrb)⟩

def arSlot (b : Bridge w) : Slot (BitVec w) := ⟨b.m.arvalid, b.m.araddr⟩

def bSlot (b : Bridge w) : Slot (BitVec 2) := ⟨b.s.bvalid, b.s.bresp⟩

def rSlot (b : Bridge w) : Slot (Word × BitVec 2) := ⟨b.s.rvalid, (b.s.rdata, b.s.rresp)⟩

theorem Ok.issuesWrite (h : b.Ok) (hi : b.writeLink.issues (b.writeTick k) = true) :
    b.m.awvalid = false ∧ b.m.wvalid = false := by
  have haw := h.awvalid
  have hw := h.wvalid
  rw [writeLink_issues, BridgeM.issuesWrite, BridgeM.idle] at hi
  constructor <;> grind

theorem Ok.issuesRead (h : b.Ok) (hi : b.readLink.issues (b.readTick k) = true) : b.m.arvalid = false := by
  have har := h.arvalid
  rw [readLink_issues, BridgeM.issuesRead, BridgeM.idle] at hi
  grind

theorem Ok.deliversWrite (h : b.Ok) (hd : b.writeLink.delivers (b.writeTick k) = true) : b.s.bvalid = false := by
  have hb := h.bvalid
  rw [writeLink_delivers, BridgeS.writeAnswered] at hd
  grind

theorem Ok.deliversRead (h : b.Ok) (hd : b.readLink.delivers (b.readTick k) = true) : b.s.rvalid = false := by
  have hr := h.rvalid
  rw [readLink_delivers, BridgeS.readAnswered] at hd
  grind

theorem awSlot_step (h : b.Ok) : (b.step k).awSlot =
    b.awSlot.step ((b.writeLink.issued (b.writeTick k)).map BridgeWrite.addr) (k.m.any (·.awready)) := by
  rw [Slot.step_eq, Link.issued, writeLink_issues]
  · cases hk : k.m with
    | none => simp [step, awSlot, hk]
    | some i => cases hi : b.m.issuesWrite <;> simp [step, BridgeM.step, awSlot, writeLink, hk, hi]
  · intro hload
    refine (h.issuesWrite (k := k) ?_).1
    by_contra hn
    simp [Link.issued, hn] at hload

theorem wSlot_step (h : b.Ok) : (b.step k).wSlot =
    b.wSlot.step ((b.writeLink.issued (b.writeTick k)).map fun x => (x.data, x.strb)) (k.m.any (·.wready)) := by
  rw [Slot.step_eq, Link.issued, writeLink_issues]
  · cases hk : k.m with
    | none => simp [step, wSlot, hk]
    | some i => cases hi : b.m.issuesWrite <;> simp [step, BridgeM.step, wSlot, writeLink, hk, hi]
  · intro hload
    refine (h.issuesWrite (k := k) ?_).2
    by_contra hn
    simp [Link.issued, hn] at hload

theorem arSlot_step (h : b.Ok) : (b.step k).arSlot =
    b.arSlot.step ((b.readLink.issued (b.readTick k)).map id) (k.m.any (·.arready)) := by
  rw [Slot.step_eq, Link.issued, readLink_issues]
  · cases hk : k.m with
    | none => simp [step, arSlot, hk]
    | some i => cases hi : b.m.issuesRead <;> simp [step, BridgeM.step, arSlot, readLink, hk, hi]
  · intro hload
    refine h.issuesRead (k := k) ?_
    by_contra hn
    simp [Link.issued, hn] at hload

theorem bSlot_step : (b.step k).bSlot =
    b.bSlot.step (b.writeLink.delivered (b.writeTick k)) (k.s.any (·.bready)) := by
  rw [Link.delivered, writeLink_delivers]
  cases hk : k.s with
  | none => simp [step, Slot.step, bSlot, hk]
  | some i =>
    cases hd : b.s.writeAnswered with
    | true => simp [step, BridgeS.step, Slot.step, bSlot, writeLink, hk, hd]
    | false => cases hr : i.bready <;> simp [step, BridgeS.step, Slot.step, bSlot, hk, hd, hr]

theorem rSlot_step : (b.step k).rSlot =
    b.rSlot.step (b.readLink.delivered (b.readTick k)) (k.s.any (·.rready)) := by
  rw [Link.delivered, readLink_delivers]
  cases hk : k.s with
  | none => simp [step, Slot.step, rSlot, hk]
  | some i =>
    cases hd : b.s.readAnswered with
    | true => simp [step, BridgeS.step, Slot.step, rSlot, readLink, hk, hd]
    | false => cases hr : i.rready <;> simp [step, BridgeS.step, Slot.step, rSlot, hk, hd, hr]

/-- The addresses of writes that have been accepted and not taken by the slave. -/
def awHeld (b : Bridge w) : List (BitVec w) := b.awSlot.offered ++ b.writeLink.requests.map BridgeWrite.addr

/-- The data of writes that have been accepted and not taken by the slave. -/
def wHeld (b : Bridge w) : List (Word × BitVec 4) :=
  b.wSlot.offered ++ b.writeLink.requests.map fun x => (x.data, x.strb)

/-- The addresses of reads that have been accepted and not taken by the slave. -/
def arHeld (b : Bridge w) : List (BitVec w) := b.arSlot.offered ++ b.readLink.requests.map id

/-- The write responses of the slave that the master has not taken. -/
def bHeld (b : Bridge w) : List (BitVec 2) := b.bSlot.offered ++ b.writeLink.responses

/-- The read responses of the slave that the master has not taken. -/
def rHeld (b : Bridge w) : List (Word × BitVec 2) := b.rSlot.offered ++ b.readLink.responses

theorem mAw_eq : b.mAw k = b.awSlot.taken (k.m.any (·.awready)) := by
  cases hk : k.m <;> simp [mAw, awSlot, Slot.taken, hk]

theorem mW_eq : b.mW k = b.wSlot.taken (k.m.any (·.wready)) := by
  cases hk : k.m <;> simp [mW, wSlot, Slot.taken, hk]

theorem mAr_eq : b.mAr k = b.arSlot.taken (k.m.any (·.arready)) := by
  cases hk : k.m <;> simp [mAr, arSlot, Slot.taken, hk]

theorem sB_eq : b.sB k = b.bSlot.taken (k.s.any (·.bready)) := by
  cases hk : k.s <;> simp [sB, bSlot, Slot.taken, hk]

theorem sR_eq : b.sR k = b.rSlot.taken (k.s.any (·.rready)) := by
  cases hk : k.s <;> simp [sR, rSlot, Slot.taken, hk]

theorem awHeld_step (h : b.Ok) :
    b.awHeld ++ ((b.sWrite k).map BridgeWrite.addr).toList = (b.mAw k).toList ++ (b.step k).awHeld := by
  rw [awHeld, awHeld, mAw_eq, awSlot_step h, writeLink_step]
  exact Link.requests_offered_step h.write h.allowed_write _ fun hi => (h.issuesWrite hi).1

theorem wHeld_step (h : b.Ok) :
    b.wHeld ++ ((b.sWrite k).map fun x => (x.data, x.strb)).toList = (b.mW k).toList ++ (b.step k).wHeld := by
  rw [wHeld, wHeld, mW_eq, wSlot_step h, writeLink_step]
  exact Link.requests_offered_step h.write h.allowed_write _ fun hi => (h.issuesWrite hi).2

theorem arHeld_step (h : b.Ok) : b.arHeld ++ ((b.sAr k).map id).toList = (b.mAr k).toList ++ (b.step k).arHeld := by
  rw [arHeld, arHeld, mAr_eq, arSlot_step h, readLink_step]
  exact Link.requests_offered_step h.read h.allowed_read _ fun hi => h.issuesRead hi

theorem bHeld_step (h : b.Ok) : b.bHeld ++ (b.mB k).toList = (b.sB k).toList ++ (b.step k).bHeld := by
  rw [bHeld, bHeld, sB_eq, bSlot_step, writeLink_step]
  exact Link.responses_offered_step h.write h.allowed_write fun hd => h.deliversWrite hd

theorem rHeld_step (h : b.Ok) : b.rHeld ++ (b.mR k).toList = (b.sR k).toList ++ (b.step k).rHeld := by
  rw [rHeld, rHeld, sR_eq, rSlot_step, readLink_step]
  exact Link.responses_offered_step h.read h.allowed_read fun hd => h.deliversRead hd

theorem sAw_eq : b.sAw k = (b.sWrite k).map BridgeWrite.addr := by
  cases hk : k.s with
  | none => simp [sAw, sWrite, hk]
  | some i =>
    cases ha : i.awvalid <;> cases hw : i.wvalid <;> cases hi : b.s.idle <;>
      simp [sAw, sWrite, BridgeS.acceptsWrite, BridgeS.awready, BridgeS.wready, hk, ha, hw, hi]

theorem sW_eq : b.sW k = (b.sWrite k).map fun x => (x.data, x.strb) := by
  cases hk : k.s with
  | none => simp [sW, sWrite, hk]
  | some i =>
    cases ha : i.awvalid <;> cases hw : i.wvalid <;> cases hi : b.s.idle <;>
      simp [sW, sWrite, BridgeS.acceptsWrite, BridgeS.awready, BridgeS.wready, hk, ha, hw, hi]

/-- The bridge waits for the response to a write that the slave has taken. -/
theorem Ok.of_bready (h : b.Ok) (hb : b.m.bready = true) :
    b.awHeld = [] ∧ b.wHeld = [] ∧ b.writeLink.inService = true := by
  obtain ⟨hactive, haw, hw⟩ := h.bready hb
  have hlink : b.writeLink.active = true := hactive
  have hreq := h.write.not_requested hlink
  simp [awHeld, wHeld, awSlot, wSlot, Slot.offered, Link.requests, Link.inService, haw, hw, hlink, hreq]

/-- The bridge waits for the response to a read that the slave has taken. -/
theorem Ok.of_rready (h : b.Ok) (hr : b.m.rready = true) : b.arHeld = [] ∧ b.readLink.inService = true := by
  rw [h.rready, Bool.and_eq_true, Bool.not_eq_true'] at hr
  have hlink : b.readLink.active = true := hr.1
  have hreq := h.read.not_requested hlink
  simp [arHeld, arSlot, Slot.offered, Link.requests, Link.inService, hr.2, hlink, hreq]

end Step

/-! ## Whole runs -/

/-- What was sent has been received in order, but for at most one transfer while `busy`. -/
def Received {γ : Type} (busy : Bool) (sent received : List γ) : Prop :=
  ∃ rest, sent = received ++ rest ∧ rest.length ≤ busy.toNat

theorem received_eq {γ : Type} {sent received : List γ} (h : Received false sent received) : sent = received := by
  obtain ⟨rest, hsent, hlen⟩ := h
  rw [hsent, List.eq_nil_of_length_eq_zero (Nat.le_zero.1 hlen), List.append_nil]

/-- A slave that takes what it is offered and answers what it has taken. -/
structure SlaveAnswers (inp : Nat → BridgeTick w) (b : Bridge w) : Prop where
  awready : ∀ t, (Clocked.run step inp b t).m.awvalid = true → ∃ u ≥ t, (inp u).m.any (·.awready) = true
  wready : ∀ t, (Clocked.run step inp b t).m.wvalid = true → ∃ u ≥ t, (inp u).m.any (·.wready) = true
  arready : ∀ t, (Clocked.run step inp b t).m.arvalid = true → ∃ u ≥ t, (inp u).m.any (·.arready) = true
  /-- The response to a write is offered at some time and held until it is taken. -/
  bvalid : ∀ t, (Clocked.run step inp b t).m.writeActiveQ = true → (Clocked.run step inp b t).m.awvalid = false →
    (Clocked.run step inp b t).m.wvalid = false →
    ∃ u ≥ t, ∀ v ≥ u, (∀ x ≥ t, x < v → (Clocked.run step inp b x).mB (inp x) = none) →
      ∀ i, (inp v).m = some i → i.bvalid = true
  /-- The response to a read is offered at some time and held until it is taken. -/
  rvalid : ∀ t, (Clocked.run step inp b t).m.readActiveQ = true → (Clocked.run step inp b t).m.arvalid = false →
    ∃ u ≥ t, ∀ v ≥ u, (∀ x ≥ t, x < v → (Clocked.run step inp b x).mR (inp x) = none) →
      ∀ i, (inp v).m = some i → i.rvalid = true

/-- Every transfer crosses the bridge once, in order, in each direction. -/
structure DeliversOnce (inp : Nat → BridgeTick w) (b : Bridge w) : Prop where
  /-- Addresses and data are accepted together. -/
  together : ∀ n, Clocked.events step sAw inp b n = (Clocked.events step sWrite inp b n).map BridgeWrite.addr ∧
    Clocked.events step sW inp b n = (Clocked.events step sWrite inp b n).map fun x => (x.data, x.strb)
  writeAddr : ∀ n, Received (Clocked.run step inp b n).s.writeBusyQ
    ((Clocked.events step sWrite inp b n).map BridgeWrite.addr) (Clocked.events step mAw inp b n)
  writeData : ∀ n, Received (Clocked.run step inp b n).s.writeBusyQ
    ((Clocked.events step sWrite inp b n).map fun x => (x.data, x.strb)) (Clocked.events step mW inp b n)
  readAddr : ∀ n, Received (Clocked.run step inp b n).s.readBusyQ
    (Clocked.events step sAr inp b n) (Clocked.events step mAr inp b n)
  /-- The responses of the slave reach the master. -/
  writeRsp : ∀ n, Received ((Clocked.run step inp b n).s.writeBusyQ || (Clocked.run step inp b n).s.bvalid)
    (Clocked.events step mB inp b n) (Clocked.events step sB inp b n)
  readRsp : ∀ n, Received ((Clocked.run step inp b n).s.readBusyQ || (Clocked.run step inp b n).s.rvalid)
    (Clocked.events step mR inp b n) (Clocked.events step sR inp b n)
  /-- A response is taken from the slave when it has taken that write, and no later one. -/
  writeMatch : ∀ n, ((Clocked.run step inp b n).mB (inp n)).isSome = true →
    (Clocked.events step mAw inp b n).length = (Clocked.events step mB inp b n).length + 1 ∧
      (Clocked.events step mW inp b n).length = (Clocked.events step mB inp b n).length + 1
  readMatch : ∀ n, ((Clocked.run step inp b n).mR (inp n)).isSome = true →
    (Clocked.events step mAr inp b n).length = (Clocked.events step mR inp b n).length + 1
  /-- A response is given to the master when it has made that request, and no later one. -/
  writeReply : ∀ n, (Clocked.run step inp b n).s.bvalid = true →
    (Clocked.events step sWrite inp b n).length = (Clocked.events step sB inp b n).length + 1
  readReply : ∀ n, (Clocked.run step inp b n).s.rvalid = true →
    (Clocked.events step sAr inp b n).length = (Clocked.events step sR inp b n).length + 1
  /-- While both clocks run and the slave answers, nothing stays on its way. -/
  progress : (∀ t, ∃ u ≥ t, (inp u).s.isSome = true) → (∀ t, ∃ u ≥ t, (inp u).m.isSome = true) → SlaveAnswers inp b →
    ∀ t, (∃ u ≥ t, (Clocked.run step inp b u).s.writeBusyQ = false) ∧
      ∃ u ≥ t, (Clocked.run step inp b u).s.readBusyQ = false

section Run

variable (inp : Nat → BridgeTick w)

theorem ok_run (n : Nat) : (Clocked.run step inp reset n).Ok :=
  Clocked.run_invariant ok_reset (fun _ _ h => h.step) n

theorem writeAddr_conserved (n : Nat) : (Clocked.events step sWrite inp reset n).map BridgeWrite.addr =
    Clocked.events step mAw inp reset n ++ (Clocked.run step inp reset n).awHeld :=
  Clocked.events_conserved_map rfl (fun t => awHeld_step (ok_run inp t)) n

theorem writeData_conserved (n : Nat) : ((Clocked.events step sWrite inp reset n).map fun x => (x.data, x.strb)) =
    Clocked.events step mW inp reset n ++ (Clocked.run step inp reset n).wHeld :=
  Clocked.events_conserved_map rfl (fun t => wHeld_step (ok_run inp t)) n

theorem readAddr_conserved (n : Nat) : Clocked.events step sAr inp reset n =
    Clocked.events step mAr inp reset n ++ (Clocked.run step inp reset n).arHeld := by
  have h := Clocked.events_conserved_map (f := id) rfl (fun t => arHeld_step (ok_run inp t)) n
  rwa [List.map_id] at h

theorem writeRsp_conserved (n : Nat) : Clocked.events step mB inp reset n =
    Clocked.events step sB inp reset n ++ (Clocked.run step inp reset n).bHeld :=
  Clocked.events_conserved rfl (fun t => bHeld_step (ok_run inp t)) n

theorem readRsp_conserved (n : Nat) : Clocked.events step mR inp reset n =
    Clocked.events step sR inp reset n ++ (Clocked.run step inp reset n).rHeld :=
  Clocked.events_conserved rfl (fun t => rHeld_step (ok_run inp t)) n

/-- The writes that the slave has not answered. -/
theorem writes_in_service (n : Nat) : (Clocked.events step sWrite inp reset n).length =
    (Clocked.events step mB inp reset n).length + (Clocked.run step inp reset n).writeLink.inService.toNat := by
  refine Clocked.length_events (fun b : Bridge w => b.writeLink.inService.toNat) rfl (fun t => ?_) n
  rw [Clocked.run_succ, writeLink_step]
  exact Link.inService_step (ok_run inp t).write (ok_run inp t).allowed_write

/-- The reads that the slave has not answered. -/
theorem reads_in_service (n : Nat) : (Clocked.events step sAr inp reset n).length =
    (Clocked.events step mR inp reset n).length + (Clocked.run step inp reset n).readLink.inService.toNat := by
  refine Clocked.length_events (fun b : Bridge w => b.readLink.inService.toNat) rfl (fun t => ?_) n
  rw [Clocked.run_succ, readLink_step]
  exact Link.inService_step (ok_run inp t).read (ok_run inp t).allowed_read

theorem write_matched {n : Nat} (h : ((Clocked.run step inp reset n).mB (inp n)).isSome = true) :
    (Clocked.events step mAw inp reset n).length = (Clocked.events step mB inp reset n).length + 1 ∧
      (Clocked.events step mW inp reset n).length = (Clocked.events step mB inp reset n).length + 1 := by
  obtain ⟨haw, hw, hserved⟩ := (ok_run inp n).of_bready (mB_isSome h).2
  have hservice := writes_in_service inp n
  have haddr := congrArg List.length (writeAddr_conserved inp n)
  have hdata := congrArg List.length (writeData_conserved inp n)
  rw [haw, List.append_nil, List.length_map] at haddr
  rw [hw, List.append_nil, List.length_map] at hdata
  rw [hserved] at hservice
  exact ⟨haddr.symm.trans hservice, hdata.symm.trans hservice⟩

theorem read_matched {n : Nat} (h : ((Clocked.run step inp reset n).mR (inp n)).isSome = true) :
    (Clocked.events step mAr inp reset n).length = (Clocked.events step mR inp reset n).length + 1 := by
  obtain ⟨har, hserved⟩ := (ok_run inp n).of_rready (mR_isSome h).2
  have hservice := reads_in_service inp n
  have haddr := congrArg List.length (readAddr_conserved inp n)
  rw [har, List.append_nil] at haddr
  rw [hserved] at hservice
  exact haddr.symm.trans hservice

theorem write_replied {n : Nat} (h : (Clocked.run step inp reset n).s.bvalid = true) :
    (Clocked.events step sWrite inp reset n).length = (Clocked.events step sB inp reset n).length + 1 := by
  obtain ⟨hreq, hactive, hrsp⟩ := (ok_run inp n).write.not_busy ((ok_run inp n).bvalid h)
  rw [writes_in_service inp n, writeRsp_conserved inp n]
  simp [bHeld, Slot.offered, bSlot, h, Link.responses, Link.inService, hreq, hactive, hrsp]

theorem read_replied {n : Nat} (h : (Clocked.run step inp reset n).s.rvalid = true) :
    (Clocked.events step sAr inp reset n).length = (Clocked.events step sR inp reset n).length + 1 := by
  obtain ⟨hreq, hactive, hrsp⟩ := (ok_run inp n).read.not_busy ((ok_run inp n).rvalid h)
  rw [reads_in_service inp n, readRsp_conserved inp n]
  simp [rHeld, Slot.offered, rSlot, h, Link.responses, Link.inService, hreq, hactive, hrsp]

end Run

end Bridge

end Vek280Miner.Rtl
