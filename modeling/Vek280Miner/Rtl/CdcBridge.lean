import Vek280Miner.Lib.Clocked
import Vek280Miner.Lib.Toggle
import Vek280Miner.Lib.Word

/-!
# The clock-crossing bridge (`axi_lite_cdc_bridge.sv`)

The bridge has the registers of two clock domains, and at an instant either domain or both may have an edge. An edge
reads the registers of both domains as they are before the instant. Writes and reads cross the boundary over one toggle
handshake each; seen by itself each of them is a link (`writeLink_step`, `readLink_step`).
-/

namespace Vek280Miner.Rtl

/-! ## Ports and registers -/

variable {w : Nat}

/-- The inputs of the S side, sampled at an edge of `s_axi_aclk`. -/
structure BridgeSIn (w : Nat) where
  awaddr : BitVec w
  awvalid : Bool
  wdata : Word
  wstrb : BitVec 4
  wvalid : Bool
  bready : Bool
  araddr : BitVec w
  arvalid : Bool
  rready : Bool

/-- The inputs of the M side, sampled at an edge of `m_axi_aclk`. -/
structure BridgeMIn where
  awready : Bool
  wready : Bool
  bresp : BitVec 2
  bvalid : Bool
  arready : Bool
  rdata : Word
  rresp : BitVec 2
  rvalid : Bool

/-- The registers clocked by `s_axi_aclk`. -/
structure BridgeS (w : Nat) where
  writeReqToggleQ : Bool
  readReqToggleQ : Bool
  writeBusyQ : Bool
  readBusyQ : Bool
  writeAddrQ : BitVec w
  writeDataQ : Word
  writeStrbQ : BitVec 4
  readAddrQ : BitVec w
  writeRspSync1Q : Bool
  writeRspSync2Q : Bool
  readRspSync1Q : Bool
  readRspSync2Q : Bool
  writeRspSeenQ : Bool
  readRspSeenQ : Bool
  bresp : BitVec 2
  bvalid : Bool
  rdata : Word
  rresp : BitVec 2
  rvalid : Bool

/-- The registers clocked by `m_axi_aclk`. -/
structure BridgeM (w : Nat) where
  writeReqSync1Q : Bool
  writeReqSync2Q : Bool
  readReqSync1Q : Bool
  readReqSync2Q : Bool
  writeReqSeenQ : Bool
  readReqSeenQ : Bool
  writeRspToggleQ : Bool
  readRspToggleQ : Bool
  writeRspQ : BitVec 2
  readRspDataQ : Word
  readRspQ : BitVec 2
  writeActiveQ : Bool
  readActiveQ : Bool
  awaddr : BitVec w
  awvalid : Bool
  wdata : Word
  wstrb : BitVec 4
  wvalid : Bool
  bready : Bool
  araddr : BitVec w
  arvalid : Bool
  rready : Bool

structure Bridge (w : Nat) where
  s : BridgeS w
  m : BridgeM w

/-- A write as it is presented on the S side. -/
structure BridgeWrite (w : Nat) where
  addr : BitVec w
  data : Word
  strb : BitVec 4
deriving DecidableEq

/-- The domains that have an edge at an instant, with the inputs they sample. -/
structure BridgeTick (w : Nat) where
  s : Option (BridgeSIn w)
  m : Option BridgeMIn

/-! ## The S side -/

namespace BridgeS

/-- No transaction is open. -/
def idle (s : BridgeS w) : Bool := !s.writeBusyQ && !s.readBusyQ && !s.bvalid && !s.rvalid

/-- `s_axi_awready`. -/
def awready (i : BridgeSIn w) (s : BridgeS w) : Bool := s.idle && i.wvalid

/-- `s_axi_wready`. -/
def wready (i : BridgeSIn w) (s : BridgeS w) : Bool := s.idle && i.awvalid

/-- `s_axi_arready`. -/
def arready (s : BridgeS w) : Bool := s.idle

def acceptsWrite (i : BridgeSIn w) (s : BridgeS w) : Bool := i.awvalid && i.wvalid && s.awready i && s.wready i

def acceptsRead (i : BridgeSIn w) (s : BridgeS w) : Bool := i.arvalid && s.arready

def writeAnswered (s : BridgeS w) : Bool := s.writeBusyQ && s.writeRspSync2Q != s.writeRspSeenQ

def readAnswered (s : BridgeS w) : Bool := s.readBusyQ && s.readRspSync2Q != s.readRspSeenQ

/-- An edge of `s_axi_aclk` out of reset. -/
def step (i : BridgeSIn w) (m : BridgeM w) (s : BridgeS w) : BridgeS w where
  writeReqToggleQ := if s.acceptsWrite i then !s.writeReqToggleQ else s.writeReqToggleQ
  readReqToggleQ := if s.acceptsRead i then !s.readReqToggleQ else s.readReqToggleQ
  writeBusyQ := if s.writeAnswered then false else if s.acceptsWrite i then true else s.writeBusyQ
  readBusyQ := if s.readAnswered then false else if s.acceptsRead i then true else s.readBusyQ
  writeAddrQ := if s.acceptsWrite i then i.awaddr else s.writeAddrQ
  writeDataQ := if s.acceptsWrite i then i.wdata else s.writeDataQ
  writeStrbQ := if s.acceptsWrite i then i.wstrb else s.writeStrbQ
  readAddrQ := if s.acceptsRead i then i.araddr else s.readAddrQ
  writeRspSync1Q := m.writeRspToggleQ
  writeRspSync2Q := s.writeRspSync1Q
  readRspSync1Q := m.readRspToggleQ
  readRspSync2Q := s.readRspSync1Q
  writeRspSeenQ := if s.writeAnswered then s.writeRspSync2Q else s.writeRspSeenQ
  readRspSeenQ := if s.readAnswered then s.readRspSync2Q else s.readRspSeenQ
  bresp := if s.writeAnswered then m.writeRspQ else s.bresp
  bvalid := if s.writeAnswered then true else if s.bvalid && i.bready then false else s.bvalid
  rdata := if s.readAnswered then m.readRspDataQ else s.rdata
  rresp := if s.readAnswered then m.readRspQ else s.rresp
  rvalid := if s.readAnswered then true else if s.rvalid && i.rready then false else s.rvalid

def reset : BridgeS w where
  writeReqToggleQ := false
  readReqToggleQ := false
  writeBusyQ := false
  readBusyQ := false
  writeAddrQ := 0
  writeDataQ := 0
  writeStrbQ := 0
  readAddrQ := 0
  writeRspSync1Q := false
  writeRspSync2Q := false
  readRspSync1Q := false
  readRspSync2Q := false
  writeRspSeenQ := false
  readRspSeenQ := false
  bresp := 0
  bvalid := false
  rdata := 0
  rresp := 0
  rvalid := false

end BridgeS

/-! ## The M side -/

namespace BridgeM

/-- No transaction is active. -/
def idle (m : BridgeM w) : Bool := !m.writeActiveQ && !m.readActiveQ

def issuesWrite (m : BridgeM w) : Bool := m.idle && m.writeReqSync2Q != m.writeReqSeenQ

def issuesRead (m : BridgeM w) : Bool := m.idle && m.readReqSync2Q != m.readReqSeenQ

/-- An edge of `m_axi_aclk` out of reset. -/
def step (i : BridgeMIn) (s : BridgeS w) (m : BridgeM w) : BridgeM w where
  writeReqSync1Q := s.writeReqToggleQ
  writeReqSync2Q := m.writeReqSync1Q
  readReqSync1Q := s.readReqToggleQ
  readReqSync2Q := m.readReqSync1Q
  writeReqSeenQ := if m.issuesWrite then m.writeReqSync2Q else m.writeReqSeenQ
  readReqSeenQ := if m.issuesRead then m.readReqSync2Q else m.readReqSeenQ
  writeRspToggleQ := if i.bvalid && m.bready then !m.writeRspToggleQ else m.writeRspToggleQ
  readRspToggleQ := if i.rvalid && m.rready then !m.readRspToggleQ else m.readRspToggleQ
  writeRspQ := if i.bvalid && m.bready then i.bresp else m.writeRspQ
  readRspDataQ := if i.rvalid && m.rready then i.rdata else m.readRspDataQ
  readRspQ := if i.rvalid && m.rready then i.rresp else m.readRspQ
  writeActiveQ := if i.bvalid && m.bready then false else if m.issuesWrite then true else m.writeActiveQ
  readActiveQ := if i.rvalid && m.rready then false else if m.issuesRead then true else m.readActiveQ
  awaddr := if m.issuesWrite then s.writeAddrQ else m.awaddr
  awvalid := if m.awvalid && i.awready then false else if m.issuesWrite then true else m.awvalid
  wdata := if m.issuesWrite then s.writeDataQ else m.wdata
  wstrb := if m.issuesWrite then s.writeStrbQ else m.wstrb
  wvalid := if m.wvalid && i.wready then false else if m.issuesWrite then true else m.wvalid
  bready := if i.bvalid && m.bready then false else m.writeActiveQ && !m.awvalid && !m.wvalid
  araddr := if m.issuesRead then s.readAddrQ else m.araddr
  arvalid := if m.arvalid && i.arready then false else if m.issuesRead then true else m.arvalid
  rready := if i.rvalid && m.rready then false else if m.arvalid && i.arready then true else m.rready

def reset : BridgeM w where
  writeReqSync1Q := false
  writeReqSync2Q := false
  readReqSync1Q := false
  readReqSync2Q := false
  writeReqSeenQ := false
  readReqSeenQ := false
  writeRspToggleQ := false
  readRspToggleQ := false
  writeRspQ := 0
  readRspDataQ := 0
  readRspQ := 0
  writeActiveQ := false
  readActiveQ := false
  awaddr := 0
  awvalid := false
  wdata := 0
  wstrb := 0
  wvalid := false
  bready := false
  araddr := 0
  arvalid := false
  rready := false

end BridgeM

namespace Bridge

/-- The edges of an instant. -/
def step (k : BridgeTick w) (b : Bridge w) : Bridge w where
  s := k.s.elim b.s fun i => b.s.step i b.m
  m := k.m.elim b.m fun i => b.m.step i b.s

/-- Both sides are reset together. -/
def reset : Bridge w := ⟨.reset, .reset⟩

/-! ## The two links -/

/-- The write that an S edge accepts. -/
def sWrite (k : BridgeTick w) (b : Bridge w) : Option (BridgeWrite w) :=
  k.s.bind fun i => if b.s.acceptsWrite i then some ⟨i.awaddr, i.wdata, i.wstrb⟩ else none

/-- The address of the read that an S edge accepts. -/
def sAr (k : BridgeTick w) (b : Bridge w) : Option (BitVec w) :=
  k.s.bind fun i => if b.s.acceptsRead i then some i.araddr else none

/-- The write response that an M edge takes. -/
def mB (k : BridgeTick w) (b : Bridge w) : Option (BitVec 2) :=
  k.m.bind fun i => if i.bvalid && b.m.bready then some i.bresp else none

/-- The read response that an M edge takes. -/
def mR (k : BridgeTick w) (b : Bridge w) : Option (Word × BitVec 2) :=
  k.m.bind fun i => if i.rvalid && b.m.rready then some (i.rdata, i.rresp) else none

def writeLink (b : Bridge w) : Link (BridgeWrite w) (BitVec 2) where
  req := ⟨b.s.writeReqToggleQ, b.m.writeReqSync1Q, b.m.writeReqSync2Q, b.m.writeReqSeenQ⟩
  reqData := ⟨b.s.writeAddrQ, b.s.writeDataQ, b.s.writeStrbQ⟩
  busy := b.s.writeBusyQ
  active := b.m.writeActiveQ
  rsp := ⟨b.m.writeRspToggleQ, b.s.writeRspSync1Q, b.s.writeRspSync2Q, b.s.writeRspSeenQ⟩
  rspData := b.m.writeRspQ

def readLink (b : Bridge w) : Link (BitVec w) (Word × BitVec 2) where
  req := ⟨b.s.readReqToggleQ, b.m.readReqSync1Q, b.m.readReqSync2Q, b.m.readReqSeenQ⟩
  reqData := b.s.readAddrQ
  busy := b.s.readBusyQ
  active := b.m.readActiveQ
  rsp := ⟨b.m.readRspToggleQ, b.s.readRspSync1Q, b.s.readRspSync2Q, b.s.readRspSeenQ⟩
  rspData := (b.m.readRspDataQ, b.m.readRspQ)

def writeTick (k : BridgeTick w) (b : Bridge w) : LinkTick (BridgeWrite w) (BitVec 2) :=
  ⟨k.s.isSome, b.sWrite k, k.m.isSome, b.m.idle, b.mB k⟩

def readTick (k : BridgeTick w) (b : Bridge w) : LinkTick (BitVec w) (Word × BitVec 2) :=
  ⟨k.s.isSome, b.sAr k, k.m.isSome, b.m.idle, b.mR k⟩

theorem writeLink_issues (k : BridgeTick w) (b : Bridge w) :
    b.writeLink.issues (b.writeTick k) = (k.m.isSome && b.m.issuesWrite) := Bool.and_assoc _ _ _

theorem writeLink_delivers (k : BridgeTick w) (b : Bridge w) :
    b.writeLink.delivers (b.writeTick k) = (k.s.isSome && b.s.writeAnswered) := Bool.and_assoc _ _ _

theorem readLink_issues (k : BridgeTick w) (b : Bridge w) :
    b.readLink.issues (b.readTick k) = (k.m.isSome && b.m.issuesRead) := Bool.and_assoc _ _ _

theorem readLink_delivers (k : BridgeTick w) (b : Bridge w) :
    b.readLink.delivers (b.readTick k) = (k.s.isSome && b.s.readAnswered) := Bool.and_assoc _ _ _

/-- The writes of a bridge are those of a link. -/
theorem writeLink_step (k : BridgeTick w) (b : Bridge w) : (b.step k).writeLink = b.writeLink.step (b.writeTick k) := by
  rw [Link.step, writeLink_issues, writeLink_delivers]
  obtain ⟨ks, km⟩ := k
  simp only [writeLink, writeTick, Wire.step, Link.mk.injEq, Wire.mk.injEq]
  refine ⟨⟨?_, ?_, ?_, ?_⟩, ?_, ?_, ?_, ⟨?_, ?_, ?_, ?_⟩, ?_⟩
  all_goals
    cases ks <;> cases km <;> simp only [step, BridgeS.step, BridgeM.step, sWrite, mB, Option.elim, Option.bind] <;>
    grind

/-- The reads of a bridge are those of a link. -/
theorem readLink_step (k : BridgeTick w) (b : Bridge w) : (b.step k).readLink = b.readLink.step (b.readTick k) := by
  rw [Link.step, readLink_issues, readLink_delivers]
  obtain ⟨ks, km⟩ := k
  simp only [readLink, readTick, Wire.step, Link.mk.injEq, Wire.mk.injEq]
  refine ⟨⟨?_, ?_, ?_, ?_⟩, ?_, ?_, ?_, ⟨?_, ?_, ?_, ?_⟩, ?_⟩
  all_goals
    cases ks <;> cases km <;> simp only [step, BridgeS.step, BridgeM.step, sAr, mR, Option.elim, Option.bind] <;>
    grind

end Bridge

end Vek280Miner.Rtl
