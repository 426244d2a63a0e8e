import Vek280Miner.Rtl.MinerAxi
import Vek280Miner.Software.Job

/-!
# The register interface of the miner (`miner_regs.c`)

The driver reaches every miner instance through words at fixed offsets. Its functions are lists of register writes, in
the order in which they are made; the functions that also read are part of the tasks that run them.
-/

namespace Vek280Miner.Sw

open Rtl

/-! ## Configuration and offsets -/

/-- What `app_config.h` and `FreeRTOSConfig.h` fix for the tasks. -/
structure HostCfg where
  instances : Nat
  enginesPerInstance : Word
  hashrateHs : Nat
  tickRateHz : Nat
  instances_pos : 0 < instances
  instances_lt : instances < 2 ^ 32
  tickRateHz_pos : 0 < tickRateHz

/-- The values of `app_config.h`. -/
def appConfig : HostCfg := ⟨4, 32, 4 * 32 * 250000000 / 512, 1000, by decide, by decide, by decide⟩

def minerRegControl : BitVec 12 := 0x000
def minerRegStatus : BitVec 12 := 0x004
def minerRegMidstate0 : BitVec 12 := 0x020
def minerRegHeaderTail0 : BitVec 12 := 0x040
def minerRegTarget0 : BitVec 12 := 0x060
def minerRegNonceStart : BitVec 12 := 0x080
def minerRegNonceCount : BitVec 12 := 0x084
def minerRegResultNonce : BitVec 12 := 0x090
def minerRegResultEngine : BitVec 12 := 0x094
def minerRegResultStatus : BitVec 12 := 0x098
def minerRegIrqControl : BitVec 12 := 0x0a0

def minerControlStart : Word := 1
def minerControlStop : Word := 2
def minerControlClear : Word := 4

def minerStatusRunning : Word := 1
def minerStatusResult : Word := 2
def minerStatusDone : Word := 4
def minerStatusOverflow : Word := 8

def minerResultStatusResult : Word := 1
def minerResultStatusOverflow : Word := 2

def minerIrqControlMask : Word := 1

/-! ## Writes -/

/-- `miner_write_reg_instance` of an instance that exists. -/
structure RegWrite (K : Nat) where
  inst : Fin K
  offset : BitVec 12
  value : Word
deriving DecidableEq

/-- The write that reaches the instance; the processor writes whole words. -/
def RegWrite.write {K : Nat} (w : RegWrite K) : Write := ⟨writeSel w.offset, w.value, 0xf⟩

section Driver

variable {K : Nat}

def minerClear : List (RegWrite K) := (List.finRange K).flatMap fun inst =>
  [⟨inst, minerRegControl, minerControlClear⟩,
   ⟨inst, minerRegResultStatus, minerResultStatusResult ||| minerResultStatusOverflow⟩]

def minerStop : List (RegWrite K) := (List.finRange K).map fun inst => ⟨inst, minerRegControl, minerControlStop⟩

/-- `miner_init`, whose base address is that of the instances. -/
def minerInit : List (RegWrite K) := minerStop ++ minerClear

/-- `offset + i * 4U`. -/
def wordOffset (offset : BitVec 12) (i : Nat) : BitVec 12 := offset + BitVec.ofNat 12 (i * 4)

/-- The writes of `miner_program_job` to one instance. -/
def programInstance (midstate : Words 8) (headerTail : Words 4) (target : Words 8) (inst : Fin K) : List (RegWrite K) :=
  ((List.finRange 8).flatMap fun i =>
    [⟨inst, wordOffset minerRegMidstate0 i, midstate i⟩, ⟨inst, wordOffset minerRegTarget0 i, target i⟩]) ++
  (List.finRange 4).map fun i => ⟨inst, wordOffset minerRegHeaderTail0 i, headerTail i⟩

def minerProgramJob (midstate : Words 8) (headerTail : Words 4) (target : Words 8) : List (RegWrite K) :=
  (List.finRange K).flatMap (programInstance midstate headerTail target)

/-- The writes of `miner_start_range` to one instance. -/
def startInstance (rangeStart rangeCount : Word) (inst : Fin K) : List (RegWrite K) :=
  [⟨inst, minerRegNonceStart, rangeStart⟩, ⟨inst, minerRegNonceCount, rangeCount⟩,
   ⟨inst, minerRegControl, minerControlStart⟩]

/-- The loop of `miner_start_range`. -/
def startRangeLoop (baseCount remainder : Word) : List (Fin K) → Word → List (RegWrite K)
  | [], _ => []
  | inst :: rest, rangeStart =>
    let rangeCount := baseCount + if BitVec.ofNat 32 inst < remainder then 1 else 0
    startInstance rangeStart rangeCount inst ++ startRangeLoop baseCount remainder rest (rangeStart + rangeCount)

def minerStartRange (nonceStart nonceCount : Word) : List (RegWrite K) :=
  startRangeLoop (nonceCount / BitVec.ofNat 32 K) (nonceCount % BitVec.ofNat 32 K) (List.finRange K) nonceStart

end Driver

/-! ## `miner_status` -/

/-- The locals of `miner_status`. -/
structure StatusAcc where
  aggregate : Word
  allDone : Bool
deriving DecidableEq

def StatusAcc.init : StatusAcc := ⟨0, true⟩

/-- One instance's `STATUS`. -/
def StatusAcc.next (acc : StatusAcc) (status : Word) : StatusAcc where
  aggregate := acc.aggregate ||| (status &&& minerStatusRunning) ||| (status &&& minerStatusResult) |||
    (status &&& minerStatusOverflow)
  allDone := acc.allDone && status &&& minerStatusDone != 0

/-- What `miner_status` returns. -/
def StatusAcc.result (acc : StatusAcc) : Word := if acc.allDone then acc.aggregate ||| minerStatusDone else acc.aggregate

end Vek280Miner.Sw
