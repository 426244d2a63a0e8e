import Vek280Miner.Lib.Clocked
import Vek280Miner.Rtl.MinerCore

/-!
# The bus interface of `bitcoin_miner_axi.sv`

Writes and reads pass two pipeline stages between the AXI-Lite handshakes and the registers. A write is decoded on its
way to the second stage and applied from there (`applied`); so every edge of the whole miner is an edge of `MinerCore`
under the write applied at it (`core_step`, `core_run`), and at most one write in four cycles is applied.
-/

namespace Vek280Miner.Rtl

/-! ## Addresses -/

/-- The decoder between the two write stages. -/
def writeSel (addr : BitVec 12) : WriteSel :=
  if h : 0x020 ≤ addr.toNat ∧ addr.toNat < 0x040 then .midstate ⟨(addr.toNat - 0x020) / 4, by omega⟩
  else if h : 0x040 ≤ addr.toNat ∧ addr.toNat < 0x050 then .tail ⟨(addr.toNat - 0x040) / 4, by omega⟩
  else if h : 0x060 ≤ addr.toNat ∧ addr.toNat < 0x080 then .target ⟨(addr.toNat - 0x060) / 4, by omega⟩
  else if addr = 0x000 then .control
  else if addr = 0x080 then .nonceStart
  else if addr = 0x084 then .nonceCount
  else if addr = 0x098 then .resultStatus
  else if addr = 0x0a0 then .irqControl
  else .unmapped

/-- A word of flags, the first one in bit `0`. -/
def flags (l : List Bool) : Word := BitVec.ofNat 32 (Nat.ofDigits 2 (l.map Bool.toNat))

/-- `read_reg`, where `view` is the nonce in what the result register carries. -/
def readReg {α : Type} {cfg : MinerCfg} (view : α → Word) (s : MinerCore α cfg) (addr : BitVec 12) : Word :=
  if h : 0x020 ≤ addr.toNat ∧ addr.toNat < 0x040 then s.job.midstate ⟨(addr.toNat - 0x020) / 4, by omega⟩
  else if h : 0x040 ≤ addr.toNat ∧ addr.toNat < 0x050 then s.job.headerTail ⟨(addr.toNat - 0x040) / 4, by omega⟩
  else if h : 0x060 ≤ addr.toNat ∧ addr.toNat < 0x080 then s.job.target ⟨(addr.toNat - 0x060) / 4, by omega⟩
  else if addr = 0x000 then 0
  else if addr = 0x004 then flags [s.runningQ, s.resultValidQ, s.nonceDoneQ, s.overflowQ]
  else if addr = 0x008 then BitVec.ofNat 32 cfg.numEngines
  else if addr = 0x080 then s.nonceStartQ
  else if addr = 0x084 then s.nonceCountQ
  else if addr = 0x090 then view s.resultNonceQ
  else if addr = 0x094 then s.resultEngineQ
  else if addr = 0x098 then flags [s.resultValidQ, s.overflowQ]
  else if addr = 0x0a0 then flags [s.irqMaskQ, s.irqForceQ]
  else 0

/-- An address with its last two bits cleared. -/
def wordAddr (addr : BitVec 12) : BitVec 12 := addr &&& 0xffc

/-! ## Registers -/

/-- The bus inputs sampled at an edge. -/
structure AxiIn where
  awaddr : BitVec 12
  awvalid : Bool
  wdata : Word
  wstrb : BitVec 4
  wvalid : Bool
  bready : Bool
  araddr : BitVec 12
  arvalid : Bool
  rready : Bool
deriving Inhabited

structure MinerAxi (cfg : MinerCfg) where
  awready : Bool
  wready : Bool
  bresp : BitVec 2
  bvalid : Bool
  arready : Bool
  rdata : Word
  rresp : BitVec 2
  rvalid : Bool
  rdStage1ValidQ : Bool
  rdStage1AddrQ : BitVec 12
  rdStage2ValidQ : Bool
  rdStage2DataQ : Word
  wrStage1ValidQ : Bool
  wrStage1AddrQ : BitVec 12
  wrStage1DataQ : Word
  wrStage1StrbQ : BitVec 4
  wrStage2ValidQ : Bool
  wrStage2Q : Write
  core : MinerCore Word cfg

namespace MinerAxi

variable {cfg : MinerCfg}

def writeFire (i : AxiIn) (s : MinerAxi cfg) : Bool :=
  i.awvalid && i.wvalid && !s.wrStage1ValidQ && !s.wrStage2ValidQ && !s.bvalid

def writeApply (s : MinerAxi cfg) : Bool := s.wrStage2ValidQ && !s.bvalid

def readFire (i : AxiIn) (s : MinerAxi cfg) : Bool :=
  i.arvalid && !s.rdStage1ValidQ && !s.rdStage2ValidQ && !s.rvalid

/-- The write moves to the second stage. -/
def writeDecode (s : MinerAxi cfg) : Bool := s.wrStage1ValidQ && !s.wrStage2ValidQ && !s.bvalid

/-- The write applied at the edge. -/
def applied (s : MinerAxi cfg) : Option Write := if s.writeApply then some s.wrStage2Q else none

/-- One clock edge out of reset. -/
def step (i : AxiIn) (s : MinerAxi cfg) : MinerAxi cfg where
  awready := s.writeFire i
  wready := s.writeFire i
  bresp := if s.writeApply then 0 else s.bresp
  bvalid := if s.writeApply then true else if s.bvalid && i.bready then false else s.bvalid
  arready := s.readFire i
  rdata := if s.rdStage2ValidQ && !s.rvalid then s.rdStage2DataQ else s.rdata
  rresp := if s.rdStage2ValidQ && !s.rvalid then 0 else s.rresp
  rvalid := if s.rdStage2ValidQ && !s.rvalid then true else if s.rvalid && i.rready then false else s.rvalid
  rdStage1ValidQ := if s.rdStage1ValidQ then false else if s.readFire i then true else s.rdStage1ValidQ
  rdStage1AddrQ := if s.readFire i then wordAddr i.araddr else s.rdStage1AddrQ
  rdStage2ValidQ :=
    if s.rdStage2ValidQ && !s.rvalid then false else if s.rdStage1ValidQ then true else s.rdStage2ValidQ
  rdStage2DataQ := if s.rdStage1ValidQ then readReg id s.core s.rdStage1AddrQ else s.rdStage2DataQ
  wrStage1ValidQ := if s.writeDecode then false else if s.writeFire i then true else s.wrStage1ValidQ
  wrStage1AddrQ := if s.writeFire i then wordAddr i.awaddr else s.wrStage1AddrQ
  wrStage1DataQ := if s.writeFire i then i.wdata else s.wrStage1DataQ
  wrStage1StrbQ := if s.writeFire i then i.wstrb else s.wrStage1StrbQ
  wrStage2ValidQ := if s.writeApply then false else if s.writeDecode then true else s.wrStage2ValidQ
  wrStage2Q :=
    if s.writeDecode then ⟨writeSel s.wrStage1AddrQ, s.wrStage1DataQ, s.wrStage1StrbQ⟩ else s.wrStage2Q
  core := s.core.step Engine.resultNonceO s.applied

/-- The registers at reset. -/
def reset (engines : Fin cfg.numEngines → Engine) : MinerAxi cfg where
  awready := false
  wready := false
  bresp := 0
  bvalid := false
  arready := false
  rdata := 0
  rresp := 0
  rvalid := false
  rdStage1ValidQ := false
  rdStage1AddrQ := 0
  rdStage2ValidQ := false
  rdStage2DataQ := 0
  wrStage1ValidQ := false
  wrStage1AddrQ := 0
  wrStage1DataQ := 0
  wrStage1StrbQ := 0
  wrStage2ValidQ := false
  wrStage2Q := ⟨.unmapped, 0, 0⟩
  core := MinerCore.reset engines

/-- The states of `bitcoin_miner_axi` under any bus traffic after reset. -/
def Reachable (s : MinerAxi cfg) : Prop := Clocked.Reachable step (fun s => ∃ engines, s = reset engines) s

/-- The write applied `t` edges later. -/
def appliedAt (inp : Nat → AxiIn) (s : MinerAxi cfg) (t : Nat) : Option Write := (Clocked.run step inp s t).applied

/-- The registers of a run of the miner are a run of `MinerCore` under the applied writes. -/
theorem core_run (inp : Nat → AxiIn) (s : MinerAxi cfg) :
    ∀ n, (Clocked.run step inp s n).core =
      Clocked.run (MinerCore.step Engine.resultNonceO) (appliedAt inp s) s.core n
  | 0 => rfl
  | n + 1 => by
    rw [Clocked.run_succ, Clocked.run_succ, ← core_run inp s n]
    rfl

/-- Without address handshakes an empty write pipeline stays empty. -/
theorem applied_none {inp : Nat → AxiIn} {s : MinerAxi cfg} (hi : ∀ t, (inp t).awvalid = false)
    (h1 : s.wrStage1ValidQ = false) (h2 : s.wrStage2ValidQ = false) (t : Nat) : appliedAt inp s t = none := by
  have h : (Clocked.run step inp s t).wrStage1ValidQ = false ∧ (Clocked.run step inp s t).wrStage2ValidQ = false := by
    induction t with
    | zero => exact ⟨h1, h2⟩
    | succ t ih =>
      rw [Clocked.run_succ]
      simp [step, writeFire, writeDecode, writeApply, hi, ih]
  simp [appliedAt, applied, writeApply, h.2]

/-- After a write is applied from the second stage with nothing behind it no other write is applied. -/
theorem applied_none_after {inp : Nat → AxiIn} {s : MinerAxi cfg} {w : Write} (hi : ∀ t, (inp t).awvalid = false)
    (hw : s.applied = some w) (h1 : s.wrStage1ValidQ = false) {t : Nat} (ht : 1 ≤ t) : appliedAt inp s t = none := by
  obtain ⟨u, rfl⟩ : ∃ u, t = u + 1 := ⟨t - 1, by omega⟩
  have happly : s.writeApply = true := by
    by_contra hn
    simp [applied, hn] at hw
  have hnext := applied_none (s := s.step (inp 0)) (fun t => hi (t + 1))
    (by simp [step, writeFire, writeDecode, hi, h1]) (by simp [step, happly]) u
  rwa [appliedAt, ← Clocked.run_succ'] at hnext

end MinerAxi

end Vek280Miner.Rtl
