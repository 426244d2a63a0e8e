import Vek280Miner.Lib.Sha256

/-!
# The iterative SHA-256 core (`sha256_core_iterative.sv`)

The registers of the core, its combinational wires and one clock edge. The core keeps the last sixteen schedule words in
a ring and spends four or five edges on a round; a start is taken only while it is idle. The wrappers
`sha256_core_fabric`, `sha256_core_dsp`, `sha256_core_dsp_explicit` and `sha256_core_4phase` fix the parameters.
-/

namespace Vek280Miner.Rtl

open Sha256 (Vars)

/-! ## The functions of the core -/

def rotr (x : Word) (n : Nat) : Word := (x >>> n) ||| (x <<< (32 - n))

def ch (x y z : Word) : Word := (x &&& y) ^^^ (~~~x &&& z)

def maj (x y z : Word) : Word := (x &&& y) ^^^ (x &&& z) ^^^ (y &&& z)

def bigSigma0 (x : Word) : Word := rotr x 2 ^^^ rotr x 13 ^^^ rotr x 22

def bigSigma1 (x : Word) : Word := rotr x 6 ^^^ rotr x 11 ^^^ rotr x 25

def smallSigma0 (x : Word) : Word := rotr x 7 ^^^ rotr x 18 ^^^ (x >>> 3)

def smallSigma1 (x : Word) : Word := rotr x 17 ^^^ rotr x 19 ^^^ (x >>> 10)

/-- The `case` of the function `k`; indices past 63 give its default. -/
def k (idx : BitVec 7) : Word :=
  [0x428a2f98, 0x71374491, 0xb5c0fbcf, 0xe9b5dba5, 0x3956c25b, 0x59f111f1, 0x923f82a4, 0xab1c5ed5,
   0xd807aa98, 0x12835b01, 0x243185be, 0x550c7dc3, 0x72be5d74, 0x80deb1fe, 0x9bdc06a7, 0xc19bf174,
   0xe49b69c1, 0xefbe4786, 0x0fc19dc6, 0x240ca1cc, 0x2de92c6f, 0x4a7484aa, 0x5cb0a9dc, 0x76f988da,
   0x983e5152, 0xa831c66d, 0xb00327c8, 0xbf597fc7, 0xc6e00bf3, 0xd5a79147, 0x06ca6351, 0x14292967,
   0x27b70a85, 0x2e1b2138, 0x4d2c6dfc, 0x53380d13, 0x650a7354, 0x766a0abb, 0x81c2c92e, 0x92722c85,
   0xa2bfe8a1, 0xa81a664b, 0xc24b8b70, 0xc76c51a3, 0xd192e819, 0xd6990624, 0xf40e3585, 0x106aa070,
   0x19a4c116, 0x1e376c08, 0x2748774c, 0x34b0bcb5, 0x391c0cb3, 0x4ed8aa4a, 0x5b9cca4f, 0x682e6ff3,
   0x748f82ee, 0x78a5636f, 0x84c87814, 0x8cc70208, 0x90befffa, 0xa4506ceb, 0xbef9a3f7, 0xc67178f2].getD idx.toNat 0

/-- The modular adder that `dsp58_add32` maps to a DSP58. -/
def dsp58Add32 (a b : Word) : Word := a + b

/-! ## Registers and wires -/

/-- The parameters of `sha256_core_iterative`. -/
structure CoreCfg where
  explicitDspSchedule : Bool
  fourPhase : Bool
deriving DecidableEq

/-- The registers; `vQ` are `a_q .. h_q` and `hQ` are `h0_q .. h7_q`. -/
structure Sha256Core where
  wMem : BitVec 4 → Word
  hQ : Words 8
  vQ : Vars
  roundQ : BitVec 7
  phaseQ : BitVec 3
  busyQ : Bool
  t1AQ : Word
  t1BQ : Word
  t1CQ : Word
  t1Q : Word
  t2Q : Word
  wNewQ : Word
  wS0Q : Word
  wS1Q : Word
  wM7Q : Word
  wM16Q : Word
  wAbQ : Word
  wCdQ : Word
  doneO : Bool
  digestO : Words 8
deriving Inhabited

/-- The inputs sampled at an edge. -/
structure CoreIn where
  start : Bool
  block : Words 16
  h : Words 8

namespace Sha256Core

variable (cfg : CoreCfg) (s : Sha256Core)

def wIdx : BitVec 4 := s.roundQ.setWidth 4

def wAbAdd : Word := if cfg.explicitDspSchedule then dsp58Add32 s.wS1Q s.wM7Q else s.wS1Q + s.wM7Q

def wCdAdd : Word := if cfg.explicitDspSchedule then dsp58Add32 s.wS0Q s.wM16Q else s.wS0Q + s.wM16Q

def wNewAdd : Word := if cfg.explicitDspSchedule then dsp58Add32 s.wAbQ s.wCdQ else s.wAbQ + s.wCdQ

def t1WAdd : Word := if s.roundQ < 16 then s.t1CQ else s.wNewAdd cfg

def t1AbAdd : Word :=
  if cfg.explicitDspSchedule && cfg.fourPhase then dsp58Add32 s.t1AQ s.t1BQ else s.t1AQ + s.t1BQ

def t1TotalAdd : Word :=
  if cfg.explicitDspSchedule && cfg.fourPhase then dsp58Add32 (s.t1AbAdd cfg) (s.t1WAdd cfg)
  else s.t1AbAdd cfg + s.t1WAdd cfg

def aNext : Word := s.t1Q + s.t2Q

def eNext : Word := s.vQ.d + s.t1Q

/-- `{digest_h0, .., digest_h7}`. -/
def digestH : Words 8 :=
  ![s.hQ 0 + s.aNext, s.hQ 1 + s.vQ.a, s.hQ 2 + s.vQ.b, s.hQ 3 + s.vQ.c,
    s.hQ 4 + s.eNext, s.hQ 5 + s.vQ.e, s.hQ 6 + s.vQ.f, s.hQ 7 + s.vQ.g]

/-- The last phase of a round: the same statements in phase 3 of the four-phase core and in phase 4 of the other. -/
def finishRound (n : Sha256Core) : Sha256Core :=
  let n := { n with
    wMem := if 16 ≤ s.roundQ then Function.update n.wMem s.wIdx s.wNewQ else n.wMem
    vQ := ⟨s.aNext, s.vQ.a, s.vQ.b, s.vQ.c, s.eNext, s.vQ.e, s.vQ.f, s.vQ.g⟩ }
  if s.roundQ = 64 - 1 then { n with digestO := s.digestH, busyQ := false, doneO := true, phaseQ := 0 }
  else { n with roundQ := s.roundQ + 1, phaseQ := 0 }

/-- One clock edge out of reset. -/
def step (cfg : CoreCfg) (i : CoreIn) (s : Sha256Core) : Sha256Core :=
  let n := { s with doneO := false }
  if i.start && !s.busyQ then
    { n with
      wMem := fun j => i.block j.toFin
      hQ := i.h, vQ := Vars.ofWords i.h
      roundQ := 0, phaseQ := 0, busyQ := true }
  else if s.busyQ then
    if s.phaseQ = 0 then
      { n with
        t1AQ := s.vQ.h + bigSigma1 s.vQ.e
        t1BQ := ch s.vQ.e s.vQ.f s.vQ.g + k s.roundQ
        t1CQ := s.wMem s.wIdx
        t2Q := bigSigma0 s.vQ.a + maj s.vQ.a s.vQ.b s.vQ.c
        wS1Q := smallSigma1 (s.wMem (s.wIdx - 2))
        wM7Q := s.wMem (s.wIdx - 7)
        wS0Q := smallSigma0 (s.wMem (s.wIdx - 15))
        wM16Q := s.wMem (s.wIdx - 0)
        phaseQ := 1 }
    else if s.phaseQ = 1 then { n with wAbQ := s.wAbAdd cfg, wCdQ := s.wCdAdd cfg, phaseQ := 2 }
    else if s.phaseQ = 2 then
      { n with
        wNewQ := s.wNewAdd cfg, phaseQ := 3
        t1Q := if cfg.fourPhase then s.t1TotalAdd cfg else s.t1Q }
    else if s.phaseQ = 3 then
      if cfg.fourPhase then s.finishRound n
      else { n with t1Q := s.t1AQ + s.t1BQ + (if s.roundQ < 16 then s.t1CQ else s.wNewQ), phaseQ := 4 }
    else s.finishRound n
  else n

/-- Reset; the datapath keeps whatever it held. -/
def reset : Sha256Core := { s with roundQ := 0, phaseQ := 0, busyQ := false, doneO := false }

end Sha256Core

/-- The configurations of `sha256_core_dsp`, `sha256_core_fabric` (both the defaults) and of `sha256_core_dsp_explicit`,
`sha256_core_4phase`. -/
def sha256CoreDsp : CoreCfg := ⟨false, false⟩

def sha256CoreDspExplicit : CoreCfg := ⟨true, true⟩

end Vek280Miner.Rtl
