import Mathlib.Tactic.FinCases
import Vek280Miner.Lib.Events
import Vek280Miner.Rtl.MinerAxi

/-!
# The bus interface as an atomic register file

The ready signals of `bitcoin_miner_axi` are registered, so a request is copied into the first stage of its pipeline one
edge before the handshake that accepts it. The pipelines hold one transfer each (`PipeOk`), and a master that holds what
it presents until it is accepted presents at the handshake what the stage already has (`Presents`). Therefore each
channel is a list of events that determines the next one: addresses and data are accepted together, an accepted write is
applied one edge later, and responses come out in the order of the requests.
-/

namespace Vek280Miner.Rtl

/-! ## Requests and registers -/

/-- A write as the master presents it. -/
structure WriteReq where
  addr : BitVec 12
  data : Word
  strb : BitVec 4
deriving DecidableEq

/-- What the decoder makes of it. -/
def WriteReq.decode (r : WriteReq) : Write := ⟨writeSel (wordAddr r.addr), r.data, r.strb⟩

/-- The registers that keep what is written to them. -/
inductive DataReg where
  | midstate (i : Fin 8)
  | tail (i : Fin 4)
  | target (i : Fin 8)
  | nonceStart
  | nonceCount
deriving DecidableEq

namespace DataReg

def addr : DataReg → BitVec 12
  | midstate i => BitVec.ofNat 12 (0x020 + 4 * i)
  | tail i => BitVec.ofNat 12 (0x040 + 4 * i)
  | target i => BitVec.ofNat 12 (0x060 + 4 * i)
  | nonceStart => 0x080
  | nonceCount => 0x084

def sel : DataReg → WriteSel
  | midstate i => .midstate i
  | tail i => .tail i
  | target i => .target i
  | nonceStart => .nonceStart
  | nonceCount => .nonceCount

def get {α : Type} {cfg : MinerCfg} (s : MinerCore α cfg) : DataReg → Word
  | midstate i => s.job.midstate i
  | tail i => s.job.headerTail i
  | target i => s.job.target i
  | nonceStart => s.nonceStartQ
  | nonceCount => s.nonceCountQ

/-- The registers that the engines' job is read from. -/
def isJob : DataReg → Bool
  | nonceStart | nonceCount => false
  | _ => true

theorem writeSel_addr (r : DataReg) : writeSel r.addr = r.sel := by
  cases r with
  | midstate i => revert i; decide
  | tail i => revert i; decide
  | target i => revert i; decide
  | nonceStart => decide
  | nonceCount => decide

/-- A read of the register returns it. -/
theorem readReg_addr {α : Type} {cfg : MinerCfg} (view : α → Word) (s : MinerCore α cfg) (r : DataReg) :
    readReg view s r.addr = r.get s := by
  cases r with
  | midstate i => fin_cases i <;> rfl
  | tail i => fin_cases i <;> rfl
  | target i => fin_cases i <;> rfl
  | nonceStart => rfl
  | nonceCount => rfl

theorem wordAddr_mod (a : BitVec 12) : (wordAddr a).toNat % 4 = 0 := by
  have h : ∀ a : BitVec 12, (wordAddr a).toNat % 4 = 0 := by decide +kernel
  exact h a

/-- The decoder selects a register at no other word. -/
theorem writeSel_eq_sel {a : BitVec 12} {r : DataReg} : writeSel (wordAddr a) = r.sel ↔ wordAddr a = r.addr := by
  constructor
  · intro h
    have hmod := wordAddr_mod a
    generalize wordAddr a = b at h hmod
    unfold writeSel at h
    split_ifs at h
    all_goals cases r <;> cases h
    case pos.midstate | pos.tail | pos.target =>
      apply BitVec.eq_of_toNat_eq
      simp only [addr, BitVec.toNat_ofNat]
      omega
    case pos.nonceStart | pos.nonceCount => assumption
  · intro h
    rw [h, writeSel_addr]

end DataReg

/-- An abstract register file: the bytes of each register, byte `0` least significant. -/
abbrev RegFile := DataReg → Fin 4 → Byte

/-- A write replaces the strobed bytes of the addressed word. -/
def RegFile.write (f : RegFile) (r : WriteReq) : RegFile := fun x k =>
  if wordAddr r.addr = x.addr ∧ r.strb.getLsbD k = true then byteAt r.data (k * 8) else f x k

/-- The contents of the registers. -/
def MinerCore.regFile {α : Type} {cfg : MinerCfg} (s : MinerCore α cfg) : RegFile := fun x k => byteAt (x.get s) (k * 8)

/-- A write to another address leaves the job. -/
theorem WriteReq.decode_job {r : WriteReq} (h : ∀ x : DataReg, wordAddr r.addr = x.addr → x.isJob = false) (j : Latched) :
    j.write r.decode = j := by
  have hsel : ∀ x : DataReg, x.isJob = true → writeSel (wordAddr r.addr) ≠ x.sel := by
    intro x hx heq
    rw [h x (DataReg.writeSel_eq_sel.1 heq)] at hx
    cases hx
  unfold Latched.write WriteReq.decode
  dsimp only
  split
  case h_1 i hi => exact absurd hi (hsel (.midstate i) rfl)
  case h_2 i hi => exact absurd hi (hsel (.tail i) rfl)
  case h_3 i hi => exact absurd hi (hsel (.target i) rfl)
  case h_4 => rfl

/-- One byte of a word that is written. -/
theorem byteAt_applyWstrb (old new : Word) (strobe : BitVec 4) (k : Fin 4) :
    byteAt (applyWstrb old new strobe) (k * 8) =
      if strobe.getLsbD k = true then byteAt new (k * 8) else byteAt old (k * 8) := by
  have h := beBytes_ofBe (if strobe.getLsbD 3 then byteAt new 24 else byteAt old 24)
    (if strobe.getLsbD 2 then byteAt new 16 else byteAt old 16) (if strobe.getLsbD 1 then byteAt new 8 else byteAt old 8)
    (if strobe.getLsbD 0 then byteAt new 0 else byteAt old 0)
  simp only [beBytes, List.cons.injEq, and_true] at h
  fin_cases k
  · exact h.2.2.2
  · exact h.2.2.1
  · exact h.2.1
  · exact h.1

theorem writeWord_apply {n : Nat} (old : Words n) (j i : Fin n) (w : Write) :
    writeWord old j w i = if j = i then applyWstrb (old i) w.data w.strb else old i := by
  by_cases h : j = i
  · subst h
    simp [writeWord]
  · simp [writeWord, h, Ne.symm h]

section Registers

variable {α : Type} [Inhabited α] {cfg : MinerCfg} {obs : Engine → α} {s : MinerCore α cfg}

theorem DataReg.get_step_none (x : DataReg) : x.get (s.step obs none) = x.get s := by cases x <;> rfl

/-- A register after an applied write. -/
theorem DataReg.get_step_some (x : DataReg) (w : Write) :
    x.get (s.step obs (some w)) = if w.sel = x.sel then applyWstrb (x.get s) w.data w.strb else x.get s := by
  obtain ⟨sel, d, b⟩ := w
  cases x with
  | midstate i =>
    cases sel with
    | midstate j =>
      simp only [DataReg.get, DataReg.sel, MinerCore.step, Option.elim_some, Latched.write, writeWord_apply,
        WriteSel.midstate.injEq]
    | _ => rfl
  | tail i =>
    cases sel with
    | tail j =>
      simp only [DataReg.get, DataReg.sel, MinerCore.step, Option.elim_some, Latched.write, writeWord_apply,
        WriteSel.tail.injEq]
    | _ => rfl
  | target i =>
    cases sel with
    | target j =>
      simp only [DataReg.get, DataReg.sel, MinerCore.step, Option.elim_some, Latched.write, writeWord_apply,
        WriteSel.target.injEq]
    | _ => rfl
  | nonceStart => cases sel <;> rfl
  | nonceCount => cases sel <;> rfl

/-- The register file takes the request when its write is applied. -/
theorem regFile_step (r : Option WriteReq) :
    (s.step obs (r.map WriteReq.decode)).regFile = r.elim s.regFile s.regFile.write := by
  funext x k
  cases r with
  | none => simp only [MinerCore.regFile, Option.map_none, DataReg.get_step_none, Option.elim_none]
  | some r =>
    simp only [MinerCore.regFile, Option.map_some, DataReg.get_step_some, Option.elim_some, RegFile.write,
      WriteReq.decode, DataReg.writeSel_eq_sel]
    by_cases ha : wordAddr r.addr = x.addr
    · simp only [ha, if_true, true_and, byteAt_applyWstrb]
    · simp only [ha, if_false, false_and]

/-- An edge that writes a register of the file is otherwise an edge without a write. -/
theorem step_dataReg {w : Write} {x : DataReg} (h : w.sel = x.sel) :
    s.step obs (some w) = { s.step obs none with
      job := (s.step obs (some w)).job
      nonceStartQ := (s.step obs (some w)).nonceStartQ
      nonceCountQ := (s.step obs (some w)).nonceCountQ } := by
  obtain ⟨sel, d, b⟩ := w
  cases x <;> cases h <;> rfl

end Registers

/-! ## Handshakes -/

namespace MinerAxi

variable {cfg : MinerCfg}

/-- The address accepted on the write address channel. -/
def awTaken (i : AxiIn) (s : MinerAxi cfg) : Option (BitVec 12) :=
  if i.awvalid && s.awready then some i.awaddr else none

/-- The data and strobes accepted on the write data channel. -/
def wTaken (i : AxiIn) (s : MinerAxi cfg) : Option (Word × BitVec 4) :=
  if i.wvalid && s.wready then some (i.wdata, i.wstrb) else none

/-- The write whose address and data are accepted. -/
def writeTaken (i : AxiIn) (s : MinerAxi cfg) : Option WriteReq :=
  if i.awvalid && s.awready && i.wvalid && s.wready then some ⟨i.awaddr, i.wdata, i.wstrb⟩ else none

/-- The answer that an accepted write is due: `OKAY`. -/
def writeDue (i : AxiIn) (s : MinerAxi cfg) : Option (BitVec 2) := (s.writeTaken i).map fun _ => 0

/-- The write response that the master takes. -/
def bTaken (i : AxiIn) (s : MinerAxi cfg) : Option (BitVec 2) := if s.bvalid && i.bready then some s.bresp else none

/-- The address accepted on the read address channel. -/
def arTaken (i : AxiIn) (s : MinerAxi cfg) : Option (BitVec 12) :=
  if i.arvalid && s.arready then some i.araddr else none

/-- The answer that an accepted read is due: the addressed register as it is at the handshake, and `OKAY`. -/
def readDue (i : AxiIn) (s : MinerAxi cfg) : Option (Word × BitVec 2) :=
  (s.arTaken i).map fun a => (readReg id s.core (wordAddr a), 0)

/-- The read response that the master takes. -/
def rTaken (i : AxiIn) (s : MinerAxi cfg) : Option (Word × BitVec 2) :=
  if s.rvalid && i.rready then some (s.rdata, s.rresp) else none

/-- The write responses that are still to be taken. -/
def bHeld (s : MinerAxi cfg) : List (BitVec 2) :=
  if s.bvalid then [s.bresp] else if s.wrStage2ValidQ then [0] else []

/-- The read responses that are still to be taken. -/
def rHeld (s : MinerAxi cfg) : List (Word × BitVec 2) :=
  if s.rvalid then [(s.rdata, s.rresp)] else if s.rdStage2ValidQ then [(s.rdStage2DataQ, 0)] else []

/-- A master presents at the next edge, `i'`, what it presented without being accepted. -/
structure Holds (i : AxiIn) (s : MinerAxi cfg) (i' : AxiIn) : Prop where
  aw : i.awvalid = true → s.awready = false → i'.awvalid = true ∧ i'.awaddr = i.awaddr
  w : i.wvalid = true → s.wready = false → i'.wvalid = true ∧ i'.wdata = i.wdata ∧ i'.wstrb = i.wstrb
  ar : i.arvalid = true → s.arready = false → i'.arvalid = true ∧ i'.araddr = i.araddr

/-- An AXI-compliant master: it may present requests and take responses at any edge, and holds its requests. -/
def Compliant (inp : Nat → AxiIn) (s : MinerAxi cfg) : Prop :=
  ∀ t, Holds (inp t) (Clocked.run step inp s t) (inp (t + 1))

/-! ## The pipelines -/

/-- Each pipeline holds one transfer. -/
structure PipeOk (s : MinerAxi cfg) : Prop where
  awready : s.awready = s.wrStage1ValidQ
  wready : s.wready = s.wrStage1ValidQ
  arready : s.arready = s.rdStage1ValidQ
  write1 : s.wrStage1ValidQ = true → s.wrStage2ValidQ = false ∧ s.bvalid = false
  write2 : s.wrStage2ValidQ = true → s.bvalid = false
  read1 : s.rdStage1ValidQ = true → s.rdStage2ValidQ = false ∧ s.rvalid = false
  read2 : s.rdStage2ValidQ = true → s.rvalid = false

/-- The first stages hold what the master presents. -/
structure Presents (i : AxiIn) (s : MinerAxi cfg) : Prop where
  write : s.wrStage1ValidQ = true → i.awvalid = true ∧ i.wvalid = true ∧ s.wrStage1AddrQ = wordAddr i.awaddr ∧
    s.wrStage1DataQ = i.wdata ∧ s.wrStage1StrbQ = i.wstrb
  read : s.rdStage1ValidQ = true → i.arvalid = true ∧ s.rdStage1AddrQ = wordAddr i.araddr

namespace PipeOk

variable {i : AxiIn} {s : MinerAxi cfg}

theorem wrStage1_step (h : PipeOk s) : (s.step i).wrStage1ValidQ = s.writeFire i := by
  cases h1 : s.wrStage1ValidQ with
  | false => simp [MinerAxi.step, writeDecode, h1]
  | true => simp [MinerAxi.step, writeDecode, writeFire, h1, h.write1 h1]

theorem wrStage2_step (h : PipeOk s) : (s.step i).wrStage2ValidQ = s.wrStage1ValidQ := by
  cases h1 : s.wrStage1ValidQ with
  | false =>
    cases h2 : s.wrStage2ValidQ with
    | false => simp [MinerAxi.step, writeDecode, h1, h2]
    | true => simp [MinerAxi.step, writeApply, h2, h.write2 h2]
  | true => simp [MinerAxi.step, writeDecode, writeApply, h1, h.write1 h1]

theorem bvalid_step (h : PipeOk s) : (s.step i).bvalid = (s.wrStage2ValidQ || (s.bvalid && !i.bready)) := by
  cases h2 : s.wrStage2ValidQ with
  | false => cases hb : i.bready <;> simp [MinerAxi.step, writeApply, h2, hb]
  | true => simp [MinerAxi.step, writeApply, h2, h.write2 h2]

theorem rdStage1_step : (s.step i).rdStage1ValidQ = s.readFire i := by
  cases h1 : s.rdStage1ValidQ <;> simp [MinerAxi.step, readFire, h1]

theorem rdStage2_step (h : PipeOk s) : (s.step i).rdStage2ValidQ = s.rdStage1ValidQ := by
  cases h1 : s.rdStage1ValidQ with
  | false =>
    cases h2 : s.rdStage2ValidQ with
    | false => simp [MinerAxi.step, h1, h2]
    | true => simp [MinerAxi.step, h2, h.read2 h2]
  | true => simp [MinerAxi.step, h1, h.read1 h1]

theorem rvalid_step (h : PipeOk s) : (s.step i).rvalid = (s.rdStage2ValidQ || (s.rvalid && !i.rready)) := by
  cases h2 : s.rdStage2ValidQ with
  | false => cases hr : i.rready <;> simp [MinerAxi.step, h2, hr]
  | true => simp [MinerAxi.step, h2, h.read2 h2]

theorem step (h : PipeOk s) : PipeOk (s.step i) where
  awready := h.wrStage1_step.symm
  wready := h.wrStage1_step.symm
  arready := rdStage1_step.symm
  write1 := by
    rw [h.wrStage1_step, h.wrStage2_step, h.bvalid_step, writeFire]
    simp +contextual
  write2 := by
    rw [h.wrStage2_step, h.bvalid_step]
    intro h1
    simp [h.write1 h1]
  read1 := by
    rw [rdStage1_step, h.rdStage2_step, h.rvalid_step, readFire]
    simp +contextual
  read2 := by
    rw [h.rdStage2_step, h.rvalid_step]
    intro h1
    simp [h.read1 h1]

theorem presents_step {i' : AxiIn} (h : PipeOk s) (hi : Holds i s i') : Presents i' (s.step i) where
  write := by
    rw [h.wrStage1_step]
    intro hf
    have hfire := hf
    simp only [writeFire, Bool.and_eq_true, Bool.not_eq_true'] at hf
    obtain ⟨⟨⟨⟨haw, hw⟩, h1⟩, -⟩, -⟩ := hf
    obtain ⟨haw', haddr⟩ := hi.aw haw (h.awready.trans h1)
    obtain ⟨hw', hdata, hstrb⟩ := hi.w hw (h.wready.trans h1)
    refine ⟨haw', hw', ?_⟩
    simp [MinerAxi.step, hfire, haddr, hdata, hstrb]
  read := by
    rw [rdStage1_step]
    intro hf
    have hfire := hf
    simp only [readFire, Bool.and_eq_true, Bool.not_eq_true'] at hf
    obtain ⟨⟨⟨har, h1⟩, -⟩, -⟩ := hf
    obtain ⟨har', haddr⟩ := hi.ar har (h.arready.trans h1)
    refine ⟨har', ?_⟩
    simp [MinerAxi.step, hfire, haddr]

end PipeOk

/-! ## One edge -/

section Edge

variable {i : AxiIn} {s : MinerAxi cfg}

theorem writeTaken_eq (h : PipeOk s) (hp : Presents i s) :
    s.writeTaken i = if s.wrStage1ValidQ then some ⟨i.awaddr, i.wdata, i.wstrb⟩ else none := by
  cases h1 : s.wrStage1ValidQ with
  | false => simp [writeTaken, h.awready, h1]
  | true => simp [writeTaken, h.awready, h.wready, h1, hp.write h1]

theorem awTaken_eq (h : PipeOk s) (hp : Presents i s) : s.awTaken i = (s.writeTaken i).map WriteReq.addr := by
  rw [writeTaken_eq h hp]
  cases h1 : s.wrStage1ValidQ with
  | false => simp [awTaken, h.awready, h1]
  | true => simp [awTaken, h.awready, h1, hp.write h1]

theorem wTaken_eq (h : PipeOk s) (hp : Presents i s) :
    s.wTaken i = (s.writeTaken i).map fun r => (r.data, r.strb) := by
  rw [writeTaken_eq h hp]
  cases h1 : s.wrStage1ValidQ with
  | false => simp [wTaken, h.wready, h1]
  | true => simp [wTaken, h.wready, h1, hp.write h1]

theorem arTaken_eq (h : PipeOk s) (hp : Presents i s) :
    s.arTaken i = if s.rdStage1ValidQ then some i.araddr else none := by
  cases h1 : s.rdStage1ValidQ with
  | false => simp [arTaken, h.arready, h1]
  | true => simp [arTaken, h.arready, h1, hp.read h1]

/-- An accepted write is applied at the next edge. -/
theorem applied_step (h : PipeOk s) (hp : Presents i s) : (s.step i).applied = (s.writeTaken i).map WriteReq.decode := by
  rw [writeTaken_eq h hp]
  cases h1 : s.wrStage1ValidQ with
  | false => simp [applied, writeApply, h.wrStage2_step, h1]
  | true =>
    obtain ⟨h2, hb⟩ := h.write1 h1
    obtain ⟨-, -, haddr, hdata, hstrb⟩ := hp.write h1
    have hdec : s.writeDecode = true := by simp [writeDecode, h1, h2, hb]
    have happly : (s.step i).writeApply = true := by simp [writeApply, h.wrStage2_step, h.bvalid_step, h1, h2, hb]
    simp only [applied, happly, if_true, Option.map_some, WriteReq.decode]
    simp [step, hdec, haddr, hdata, hstrb]

/-- An accepted write joins the responses that are due, and a response that is taken leaves them. -/
theorem bHeld_step (h : PipeOk s) (hp : Presents i s) :
    s.bHeld ++ (s.writeDue i).toList = (s.bTaken i).toList ++ (s.step i).bHeld := by
  rw [writeDue, writeTaken_eq h hp]
  simp only [bHeld, h.bvalid_step, h.wrStage2_step]
  cases h1 : s.wrStage1ValidQ with
  | true => simp [bTaken, h.write1 h1]
  | false =>
    cases h2 : s.wrStage2ValidQ with
    | true => simp [bTaken, step, writeApply, h2, h.write2 h2]
    | false =>
      cases hb : s.bvalid with
      | false => simp [bTaken, hb]
      | true => cases hr : i.bready <;> simp [bTaken, step, writeApply, h2, hb, hr]

/-- An accepted read joins the responses that are due, and a response that is taken leaves them. -/
theorem rHeld_step (h : PipeOk s) (hp : Presents i s) :
    s.rHeld ++ (s.readDue i).toList = (s.rTaken i).toList ++ (s.step i).rHeld := by
  simp only [readDue, arTaken_eq h hp, rHeld, h.rvalid_step, h.rdStage2_step]
  cases h1 : s.rdStage1ValidQ with
  | true => simp [rTaken, h.read1 h1, step, h1, hp.read h1]
  | false =>
    cases h2 : s.rdStage2ValidQ with
    | true => simp [rTaken, step, h2, h.read2 h2]
    | false =>
      cases hb : s.rvalid with
      | false => simp [rTaken, hb]
      | true => cases hr : i.rready <;> simp [rTaken, step, h2, hb, hr]

end Edge

/-! ## Whole runs -/

/-- The transfers of a run are those of a register file that takes every write whole. -/
structure RefinesRegFile (inp : Nat → AxiIn) (s : MinerAxi cfg) : Prop where
  /-- Every address that is accepted is that of an accepted write. -/
  addresses : ∀ n, Clocked.events step awTaken inp s n = (Clocked.events step writeTaken inp s n).map WriteReq.addr
  /-- Every word of data that is accepted is that of an accepted write. -/
  data : ∀ n, Clocked.events step wTaken inp s n =
    (Clocked.events step writeTaken inp s n).map fun r => (r.data, r.strb)
  /-- The writes that are applied are the accepted ones, one edge later. -/
  applied : ∀ n, Clocked.events step (fun _ => applied) inp s (n + 1) =
    (Clocked.events step writeTaken inp s n).map WriteReq.decode
  /-- The registers hold what the accepted writes make of them. -/
  registers : ∀ n, (Clocked.run step inp s (n + 1)).core.regFile =
    (Clocked.events step writeTaken inp s n).foldl RegFile.write s.core.regFile
  /-- A write to one of the registers has no effect but on them. -/
  others : ∀ t r (x : DataReg), (Clocked.run step inp s t).writeTaken (inp t) = some r → wordAddr r.addr = x.addr →
    ∃ job start count, (Clocked.run step inp s (t + 2)).core =
      { (Clocked.run step inp s (t + 1)).core.step Engine.resultNonceO none with
        job := job, nonceStartQ := start, nonceCountQ := count }
  /-- Every accepted write has its response taken once, or still to be taken. -/
  responses : ∀ n, Clocked.events step writeDue inp s n =
    Clocked.events step bTaken inp s n ++ (Clocked.run step inp s n).bHeld
  /-- It is offered two edges after the handshake, ... -/
  answered : ∀ t r, (Clocked.run step inp s t).writeTaken (inp t) = some r → (Clocked.run step inp s (t + 2)).bvalid = true
  /-- ... and until it is taken. -/
  stable : ∀ t, (Clocked.run step inp s t).bvalid = true → (inp t).bready = false →
    (Clocked.run step inp s (t + 1)).bvalid = true ∧
      (Clocked.run step inp s (t + 1)).bresp = (Clocked.run step inp s t).bresp
  /-- Every accepted read has its response, with the value at the handshake, taken once, or still to be taken. -/
  reads : ∀ n, Clocked.events step readDue inp s n =
    Clocked.events step rTaken inp s n ++ (Clocked.run step inp s n).rHeld
  /-- It is offered two edges after the handshake, ... -/
  readAnswered : ∀ t a, (Clocked.run step inp s t).arTaken (inp t) = some a →
    (Clocked.run step inp s (t + 2)).rvalid = true ∧
      (Clocked.run step inp s (t + 2)).rdata = readReg id (Clocked.run step inp s t).core (wordAddr a)
  /-- ... and until it is taken. -/
  readStable : ∀ t, (Clocked.run step inp s t).rvalid = true → (inp t).rready = false →
    (Clocked.run step inp s (t + 1)).rvalid = true ∧
      (Clocked.run step inp s (t + 1)).rdata = (Clocked.run step inp s t).rdata ∧
      (Clocked.run step inp s (t + 1)).rresp = (Clocked.run step inp s t).rresp
  /-- A write that is presented is accepted, if responses are taken again and again. -/
  accepted : (∀ t, ∃ u ≥ t, (inp u).bready = true) → ∀ t, (inp t).awvalid = true → (inp t).wvalid = true →
    ∃ u ≥ t, (Clocked.run step inp s u).writeTaken (inp u) = some ⟨(inp t).awaddr, (inp t).wdata, (inp t).wstrb⟩
  /-- A read that is presented is accepted, if responses are taken again and again. -/
  readAccepted : (∀ t, ∃ u ≥ t, (inp u).rready = true) → ∀ t, (inp t).arvalid = true →
    ∃ u ≥ t, (Clocked.run step inp s u).arTaken (inp u) = some (inp t).araddr

section Run

variable {inp : Nat → AxiIn} {engines : Fin cfg.numEngines → Engine}

theorem pipeOk_reset : PipeOk (reset engines) := by
  constructor <;> simp [reset]

theorem pipeOk_run (inp : Nat → AxiIn) (engines : Fin cfg.numEngines → Engine) (n : Nat) :
    PipeOk (Clocked.run step inp (reset engines) n) :=
  Clocked.run_invariant pipeOk_reset (fun _ _ h => h.step) n

theorem presents_run (h : Compliant inp (reset engines)) :
    ∀ n, Presents (inp n) (Clocked.run step inp (reset engines) n)
  | 0 => ⟨fun hv => by simp [reset] at hv, fun hv => by simp [reset] at hv⟩
  | n + 1 => (pipeOk_run inp engines n).presents_step (h n)

/-- What waits for an event that never comes waits for ever. -/
theorem waits_on {P Q : Nat → Prop} {t : Nat} (h : P t) (hs : ∀ u ≥ t, P u → Q u ∨ P (u + 1))
    (hnever : ¬ ∃ u ≥ t, Q u) : ∀ u ≥ t, P u := by
  intro u hu
  induction u, hu using Nat.le_induction with
  | base => exact h
  | succ u hu ih => exact (hs u hu ih).resolve_left fun hq => hnever ⟨u, hu, hq⟩

/-- Two stages and a register for the response take in what is presented for long enough, if responses are taken again
and again. -/
theorem takes_in (valid stage1 stage2 response ready : Nat → Bool) {t : Nat}
    (h1 : ∀ u, stage1 (u + 1) = (valid u && !stage1 u && !stage2 u && !response u)) (h2 : ∀ u, stage2 (u + 1) = stage1 u)
    (hr : ∀ u, response (u + 1) = (stage2 u || (response u && !ready u))) (hready : ∀ u, ∃ v ≥ u, ready v = true)
    (hvalid : ∀ u ≥ t, valid u = true) : ∃ u ≥ t, stage1 u = true := by
  by_contra hnever
  have hfirst : ∀ u ≥ t, stage1 u = false := fun u hu => by
    by_contra hn
    exact hnever ⟨u, hu, eq_true_of_ne_false hn⟩
  have hsecond : ∀ u ≥ t + 1, stage2 u = false := by
    intro u hu
    obtain ⟨v, rfl⟩ : ∃ v, u = v + 1 := ⟨u - 1, by omega⟩
    rw [h2, hfirst v (by omega)]
  -- a response is offered for ever, although one is taken
  have hoffered : ∀ u ≥ t + 1, response u = true := by
    intro u hu
    have hfire := hfirst (u + 1) (by omega)
    simpa [h1, hvalid u (by omega), hfirst u (by omega), hsecond u hu] using hfire
  obtain ⟨u, hu, htaken⟩ := hready (t + 1)
  have hnext := hoffered (u + 1) (by omega)
  rw [hr, hsecond u hu, htaken] at hnext
  simp at hnext

/-- A write that is presented is accepted. -/
theorem write_accepted (h : Compliant inp (reset engines)) (hb : ∀ t, ∃ u ≥ t, (inp u).bready = true) (t : Nat)
    (haw : (inp t).awvalid = true) (hw : (inp t).wvalid = true) :
    ∃ u ≥ t, (Clocked.run step inp (reset engines) u).writeTaken (inp u) =
      some ⟨(inp t).awaddr, (inp t).wdata, (inp t).wstrb⟩ := by
  by_contra hnever
  have hok := pipeOk_run inp engines
  -- the request stays, ...
  have hwaits := waits_on
    (P := fun u => (inp u).awvalid = true ∧ (inp u).wvalid = true ∧ (inp u).awaddr = (inp t).awaddr ∧
      (inp u).wdata = (inp t).wdata ∧ (inp u).wstrb = (inp t).wstrb) ⟨haw, hw, rfl, rfl, rfl⟩ (by
    rintro u - ⟨hawu, hwu, haddr, hdata, hstrb⟩
    cases h1 : (Clocked.run step inp (reset engines) u).wrStage1ValidQ with
    | true =>
      refine .inl ?_
      rw [writeTaken_eq (hok u) (presents_run h u), if_pos h1, haddr, hdata, hstrb]
    | false =>
      obtain ⟨haw', haddr'⟩ := (h u).aw hawu ((hok u).awready.trans h1)
      obtain ⟨hw', hdata', hstrb'⟩ := (h u).w hwu ((hok u).wready.trans h1)
      exact .inr ⟨haw', hw', haddr'.trans haddr, hdata'.trans hdata, hstrb'.trans hstrb⟩) hnever
  -- ... so the pipeline takes it in
  obtain ⟨u, hu, h1⟩ := takes_in (fun u => (inp u).awvalid && (inp u).wvalid)
    (fun u => (Clocked.run step inp (reset engines) u).wrStage1ValidQ)
    (fun u => (Clocked.run step inp (reset engines) u).wrStage2ValidQ)
    (fun u => (Clocked.run step inp (reset engines) u).bvalid) (fun u => (inp u).bready)
    (fun u => (hok u).wrStage1_step) (fun u => (hok u).wrStage2_step) (fun u => (hok u).bvalid_step) hb
    (fun u hu => by simp only [(hwaits u hu).1, (hwaits u hu).2.1, Bool.and_true])
  obtain ⟨-, -, haddr, hdata, hstrb⟩ := hwaits u hu
  refine hnever ⟨u, hu, ?_⟩
  rw [writeTaken_eq (hok u) (presents_run h u), if_pos h1, haddr, hdata, hstrb]

/-- A read that is presented is accepted. -/
theorem read_accepted (h : Compliant inp (reset engines)) (hb : ∀ t, ∃ u ≥ t, (inp u).rready = true) (t : Nat)
    (har : (inp t).arvalid = true) :
    ∃ u ≥ t, (Clocked.run step inp (reset engines) u).arTaken (inp u) = some (inp t).araddr := by
  by_contra hnever
  have hok := pipeOk_run inp engines
  have hwaits := waits_on (P := fun u => (inp u).arvalid = true ∧ (inp u).araddr = (inp t).araddr) ⟨har, rfl⟩ (by
    rintro u - ⟨haru, haddr⟩
    cases h1 : (Clocked.run step inp (reset engines) u).rdStage1ValidQ with
    | true =>
      refine .inl ?_
      rw [arTaken_eq (hok u) (presents_run h u), if_pos h1, haddr]
    | false =>
      obtain ⟨har', haddr'⟩ := (h u).ar haru ((hok u).arready.trans h1)
      exact .inr ⟨har', haddr'.trans haddr⟩) hnever
  obtain ⟨u, hu, h1⟩ := takes_in (fun u => (inp u).arvalid)
    (fun u => (Clocked.run step inp (reset engines) u).rdStage1ValidQ)
    (fun u => (Clocked.run step inp (reset engines) u).rdStage2ValidQ)
    (fun u => (Clocked.run step inp (reset engines) u).rvalid) (fun u => (inp u).rready)
    (fun _ => PipeOk.rdStage1_step) (fun u => (hok u).rdStage2_step) (fun u => (hok u).rvalid_step) hb
    (fun u hu => (hwaits u hu).1)
  refine hnever ⟨u, hu, ?_⟩
  rw [arTaken_eq (hok u) (presents_run h u), if_pos h1, (hwaits u hu).2]

/-- The registers follow the writes that are applied. -/
theorem core_applied (h : Compliant inp (reset engines)) (t : Nat) :
    (Clocked.run step inp (reset engines) (t + 2)).core =
      (Clocked.run step inp (reset engines) (t + 1)).core.step Engine.resultNonceO
        (((Clocked.run step inp (reset engines) t).writeTaken (inp t)).map WriteReq.decode) := by
  rw [← applied_step (pipeOk_run inp engines t) (presents_run h t)]
  rfl

theorem regFile_run (h : Compliant inp (reset engines)) (n : Nat) :
    (Clocked.run step inp (reset engines) (n + 1)).core.regFile =
      (Clocked.events step writeTaken inp (reset engines) n).foldl RegFile.write (reset engines).core.regFile := by
  induction n with
  | zero => rfl
  | succ n ih =>
    rw [core_applied h, regFile_step, ih, Clocked.events_succ, List.foldl_append]
    cases (Clocked.run step inp (reset engines) n).writeTaken (inp n) <;> rfl

theorem job_run (h : Compliant inp (reset engines)) (n : Nat) :
    (Clocked.run step inp (reset engines) (n + 1)).core.job =
      ((Clocked.events step writeTaken inp (reset engines) n).map WriteReq.decode).foldl Latched.write
        (reset engines).core.job := by
  induction n with
  | zero => rfl
  | succ n ih =>
    rw [core_applied h, Clocked.events_succ, List.map_append, List.foldl_append, ← ih]
    cases (Clocked.run step inp (reset engines) n).writeTaken (inp n) <;> rfl

theorem write_answered (h : Compliant inp (reset engines)) {t : Nat} {r : WriteReq}
    (hr : (Clocked.run step inp (reset engines) t).writeTaken (inp t) = some r) :
    (Clocked.run step inp (reset engines) (t + 2)).bvalid = true := by
  have h1 : (Clocked.run step inp (reset engines) t).wrStage1ValidQ = true := by
    by_contra hn
    simp [writeTaken_eq (pipeOk_run inp engines t) (presents_run h t), hn] at hr
  rw [Clocked.run_succ, (pipeOk_run inp engines (t + 1)).bvalid_step, Clocked.run_succ,
    (pipeOk_run inp engines t).wrStage2_step, h1, Bool.true_or]

theorem response_stable {t : Nat} (hv : (Clocked.run step inp (reset engines) t).bvalid = true)
    (hr : (inp t).bready = false) :
    (Clocked.run step inp (reset engines) (t + 1)).bvalid = true ∧
      (Clocked.run step inp (reset engines) (t + 1)).bresp = (Clocked.run step inp (reset engines) t).bresp := by
  have hok := pipeOk_run inp engines t
  have h2 : (Clocked.run step inp (reset engines) t).wrStage2ValidQ = false := by
    by_contra hn
    simp [hok.write2 (by simpa using hn)] at hv
  rw [Clocked.run_succ, hok.bvalid_step]
  simp [step, writeApply, h2, hv, hr]

theorem read_answered (h : Compliant inp (reset engines)) {t : Nat} {a : BitVec 12}
    (ha : (Clocked.run step inp (reset engines) t).arTaken (inp t) = some a) :
    (Clocked.run step inp (reset engines) (t + 2)).rvalid = true ∧
      (Clocked.run step inp (reset engines) (t + 2)).rdata =
        readReg id (Clocked.run step inp (reset engines) t).core (wordAddr a) := by
  have hok := pipeOk_run inp engines
  have hp := presents_run h t
  have h1 : (Clocked.run step inp (reset engines) t).rdStage1ValidQ = true := by
    by_contra hn
    simp [arTaken_eq (hok t) hp, hn] at ha
  obtain ⟨-, haddr⟩ := hp.read h1
  rw [arTaken_eq (hok t) hp, if_pos h1, Option.some.injEq] at ha
  have h2 : (Clocked.run step inp (reset engines) (t + 1)).rdStage2ValidQ = true := by
    rw [Clocked.run_succ, (hok t).rdStage2_step, h1]
  constructor
  · rw [Clocked.run_succ, (hok (t + 1)).rvalid_step, h2, Bool.true_or]
  · have hdata : (Clocked.run step inp (reset engines) (t + 2)).rdata =
        (Clocked.run step inp (reset engines) (t + 1)).rdStage2DataQ := by
      rw [Clocked.run_succ _ _ (t + 1)]
      simp [step, h2, (hok (t + 1)).read2 h2]
    rw [hdata, Clocked.run_succ]
    simp [step, h1, haddr, ha]

theorem read_stable {t : Nat} (hv : (Clocked.run step inp (reset engines) t).rvalid = true)
    (hr : (inp t).rready = false) :
    (Clocked.run step inp (reset engines) (t + 1)).rvalid = true ∧
      (Clocked.run step inp (reset engines) (t + 1)).rdata = (Clocked.run step inp (reset engines) t).rdata ∧
      (Clocked.run step inp (reset engines) (t + 1)).rresp = (Clocked.run step inp (reset engines) t).rresp := by
  have hok := pipeOk_run inp engines t
  have h2 : (Clocked.run step inp (reset engines) t).rdStage2ValidQ = false := by
    by_contra hn
    simp [hok.read2 (by simpa using hn)] at hv
  rw [Clocked.run_succ, hok.rvalid_step]
  simp [step, h2, hv, hr]

/-- The transfers of every compliant master are atomic. -/
theorem transfers_atomic (h : Compliant inp (reset engines)) : RefinesRegFile inp (reset engines) where
  addresses := Clocked.events_map fun t => awTaken_eq (pipeOk_run inp engines t) (presents_run h t)
  data := Clocked.events_map fun t => wTaken_eq (pipeOk_run inp engines t) (presents_run h t)
  applied := Clocked.events_delayed rfl fun t => applied_step (pipeOk_run inp engines t) (presents_run h t)
  registers := regFile_run h
  others := by
    intro t r x hr hx
    rw [core_applied h, hr, Option.map_some, step_dataReg (DataReg.writeSel_eq_sel.2 hx)]
    exact ⟨_, _, _, rfl⟩
  responses := Clocked.events_conserved rfl fun t => bHeld_step (pipeOk_run inp engines t) (presents_run h t)
  answered := fun _ _ hr => write_answered h hr
  stable := fun _ hv hr => response_stable hv hr
  reads := Clocked.events_conserved rfl fun t => rHeld_step (pipeOk_run inp engines t) (presents_run h t)
  readAnswered := fun _ _ ha => read_answered h ha
  readStable := fun _ hv hr => read_stable hv hr
  accepted := write_accepted h
  readAccepted := read_accepted h

end Run

end MinerAxi

end Vek280Miner.Rtl
