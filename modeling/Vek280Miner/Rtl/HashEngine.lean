import Vek280Miner.Rtl.Sha256Core

/-!
# The nonce engine (`bitcoin_hash_engine.sv`) and its fixed-block front end (`bitcoin_sha256_core.sv`)

An engine latches a job when a start reaches it idle, then launches two compressions per nonce on its own core, compares
the digest with the target word by word and steps to the next nonce. `stop_i` returns the state machine to idle but does
not reach the core.
-/

namespace Vek280Miner.Rtl

/-! ## The two blocks of a Bitcoin header -/

/-- `SHA256_IV` of `bitcoin_sha256_core` and of `bitcoin_sha256_core_dsp_explicit`. -/
def sha256Iv : Words 8 :=
  ![0x6a09e667, 0xbb67ae85, 0x3c6ef372, 0xa54ff53a, 0x510e527f, 0x9b05688c, 0x1f83d9ab, 0x5be0cd19]

/-- `block` when `first_pass_i` is set. -/
def firstBlock (headerTail : Words 4) (nonce : Word) : Words 16 :=
  ![headerTail 0, headerTail 1, headerTail 2, nonce ||| (headerTail 3 &&& 0x00000000),
    0x80000000, 0, 0, 0, 0, 0, 0, 0, 0, 0, 0, 0x00000280]

/-- `block` when `first_pass_i` is clear. -/
def secondBlock (firstDigest : Words 8) : Words 16 :=
  ![firstDigest 0, firstDigest 1, firstDigest 2, firstDigest 3, firstDigest 4, firstDigest 5, firstDigest 6,
    firstDigest 7, 0x80000000, 0, 0, 0, 0, 0, 0, 0x00000100]

/-- What either front end presents to its core. -/
def bitcoinSha256CoreIn (start firstPass : Bool) (midstate : Words 8) (headerTail : Words 4) (nonce : Word)
    (firstDigest : Words 8) : CoreIn where
  start := start
  block := if firstPass then firstBlock headerTail nonce else secondBlock firstDigest
  h := if firstPass then midstate else sha256Iv

/-! ## Registers -/

/-- The parameters of `bitcoin_hash_engine`. -/
structure EngineCfg where
  nonceStride : Word
  explicitDspSchedule : Bool

/-- The core that `EXPLICIT_DSP_SCHEDULE` selects. -/
def EngineCfg.core (cfg : EngineCfg) : CoreCfg := if cfg.explicitDspSchedule then sha256CoreDspExplicit else sha256CoreDsp

/-- The states `ST_IDLE` to `ST_CHECK`. -/
inductive EngineState where
  | idle
  | launch
  | pass1
  | pass2
  | compare
  | check
deriving DecidableEq, Inhabited

/-- The part of a job that an engine latches. -/
@[ext] structure Latched where
  midstate : Words 8
  headerTail : Words 4
  target : Words 8
deriving DecidableEq, Inhabited

structure Engine where
  stateQ : EngineState
  coreStartQ : Bool
  launchStateQ : EngineState
  coreFirstPassQ : Bool
  latchedQ : Latched
  nonceQ : Word
  remainingQ : Word
  digestQ : Words 8
  cmpIdxQ : Fin 8
  cmpLtQ : Bool
  cmpGtQ : Bool
  doneO : Bool
  resultValidO : Bool
  resultNonceO : Word
  core : Sha256Core
deriving Inhabited

/-- The inputs sampled at an edge. -/
structure EngineIn where
  start : Bool
  stop : Bool
  job : Latched
  nonceStart : Word
  nonceCount : Word

namespace Engine

/-- `busy_o`. -/
def busyO (s : Engine) : Bool := s.stateQ != .idle || s.core.busyQ

/-- The ports of `u_core`. -/
def coreIn (s : Engine) : CoreIn :=
  bitcoinSha256CoreIn s.coreStartQ s.coreFirstPassQ s.latchedQ.midstate s.latchedQ.headerTail s.nonceQ s.digestQ

/-- The decision taken with the last word. -/
def hit (s : Engine) : Bool := s.cmpLtQ || (!s.cmpGtQ && decide (s.digestQ 7 ≤ s.latchedQ.target 7))

/-- `cmp_lt_q` and `cmp_gt_q` after the word at `cmp_idx_q`. -/
def cmpNext (s : Engine) : Bool × Bool :=
  let d := s.digestQ s.cmpIdxQ
  let t := s.latchedQ.target s.cmpIdxQ
  if !s.cmpLtQ && !s.cmpGtQ then
    if d < t then (true, s.cmpGtQ)
    else if t < d then (s.cmpLtQ, true)
    else (s.cmpLtQ, s.cmpGtQ)
  else (s.cmpLtQ, s.cmpGtQ)

/-- `ST_COMPARE`. -/
def compareStep (s n : Engine) : Engine :=
  let n := { n with cmpLtQ := s.cmpNext.1, cmpGtQ := s.cmpNext.2 }
  if s.cmpIdxQ = 7 then
    { n with
      resultValidO := s.hit
      resultNonceO := if s.hit then s.nonceQ else s.resultNonceO
      stateQ := .check }
  else { n with cmpIdxQ := s.cmpIdxQ + 1 }

/-- The registers that every edge writes first, and the core. -/
def defaults (cfg : EngineCfg) (s : Engine) : Engine :=
  { s with coreStartQ := false, doneO := false, resultValidO := false, core := s.core.step cfg.core s.coreIn }

/-- One clock edge out of reset. -/
def step (cfg : EngineCfg) (i : EngineIn) (s : Engine) : Engine :=
  let n := s.defaults cfg
  if i.stop then { n with stateQ := .idle, doneO := s.stateQ != .idle }
  else
    match s.stateQ with
    | .idle =>
      if i.start && i.nonceCount != 0 then
        { n with
          latchedQ := i.job, nonceQ := i.nonceStart, remainingQ := i.nonceCount
          digestQ := 0, cmpIdxQ := 0, cmpLtQ := false, cmpGtQ := false
          coreFirstPassQ := true, launchStateQ := .pass1, stateQ := .launch }
      else n
    | .launch => { n with coreStartQ := true, stateQ := s.launchStateQ }
    | .pass1 =>
      if s.core.doneO then
        { n with digestQ := s.core.digestO, coreFirstPassQ := false, launchStateQ := .pass2, stateQ := .launch }
      else n
    | .pass2 =>
      if s.core.doneO then
        { n with digestQ := s.core.digestO, cmpIdxQ := 0, cmpLtQ := false, cmpGtQ := false, stateQ := .compare }
      else n
    | .compare => s.compareStep n
    | .check =>
      if s.remainingQ ≤ 1 then { n with doneO := true, stateQ := .idle }
      else
        { n with
          remainingQ := s.remainingQ - 1, nonceQ := s.nonceQ + cfg.nonceStride
          coreFirstPassQ := true, launchStateQ := .pass1, stateQ := .launch }

/-- Reset; the core's datapath keeps whatever it held. -/
def reset (s : Engine) : Engine where
  stateQ := .idle
  launchStateQ := .idle
  coreStartQ := false
  coreFirstPassQ := true
  latchedQ := ⟨0, 0, 0⟩
  nonceQ := 0
  remainingQ := 0
  digestQ := 0
  cmpIdxQ := 0
  cmpLtQ := false
  cmpGtQ := false
  doneO := false
  resultValidO := false
  resultNonceO := 0
  core := s.core.reset

end Engine

/-! ## One edge from each state -/

section Step

variable {cfg : EngineCfg} {i : EngineIn} {s : Engine}

theorem step_stop (hi : i.stop = true) :
    s.step cfg i = { s.defaults cfg with stateQ := .idle, doneO := s.stateQ != .idle } := by
  rw [Engine.step, if_pos hi]

theorem step_idle (hi : i.stop = false) (hst : s.stateQ = .idle) (hs : (i.start && i.nonceCount != 0) = false) :
    s.step cfg i = s.defaults cfg := by
  simp only [Engine.step, hi, hst, hs, Bool.false_eq_true, if_false]

theorem step_accept (hi : i.stop = false) (hst : s.stateQ = .idle) (hs : (i.start && i.nonceCount != 0) = true) :
    s.step cfg i = { s.defaults cfg with
      latchedQ := i.job, nonceQ := i.nonceStart, remainingQ := i.nonceCount
      digestQ := 0, cmpIdxQ := 0, cmpLtQ := false, cmpGtQ := false
      coreFirstPassQ := true, launchStateQ := .pass1, stateQ := .launch } := by
  simp only [Engine.step, hi, hst, hs, Bool.false_eq_true, if_false, if_true]

theorem step_launch (hi : i.stop = false) (hst : s.stateQ = .launch) :
    s.step cfg i = { s.defaults cfg with coreStartQ := true, stateQ := s.launchStateQ } := by
  simp only [Engine.step, hi, hst, Bool.false_eq_true, if_false]

theorem step_pass1 (hi : i.stop = false) (hst : s.stateQ = .pass1) :
    s.step cfg i = if s.core.doneO then { s.defaults cfg with
      digestQ := s.core.digestO, coreFirstPassQ := false, launchStateQ := .pass2, stateQ := .launch }
    else s.defaults cfg := by
  simp only [Engine.step, hi, hst, Bool.false_eq_true, if_false]

theorem step_pass2 (hi : i.stop = false) (hst : s.stateQ = .pass2) :
    s.step cfg i = if s.core.doneO then { s.defaults cfg with
      digestQ := s.core.digestO, cmpIdxQ := 0, cmpLtQ := false, cmpGtQ := false, stateQ := .compare }
    else s.defaults cfg := by
  simp only [Engine.step, hi, hst, Bool.false_eq_true, if_false]

theorem step_compare (hi : i.stop = false) (hst : s.stateQ = .compare) :
    s.step cfg i = s.compareStep (s.defaults cfg) := by
  simp only [Engine.step, hi, hst, Bool.false_eq_true, if_false]

theorem step_check (hi : i.stop = false) (hst : s.stateQ = .check) :
    s.step cfg i = if s.remainingQ ≤ 1 then { s.defaults cfg with doneO := true, stateQ := .idle }
    else { s.defaults cfg with
      remainingQ := s.remainingQ - 1, nonceQ := s.nonceQ + cfg.nonceStride
      coreFirstPassQ := true, launchStateQ := .pass1, stateQ := .launch } := by
  simp only [Engine.step, hi, hst, Bool.false_eq_true, if_false]

/-- The core takes its step in every state of the engine. -/
theorem step_core : (s.step cfg i).core = s.core.step cfg.core s.coreIn := by
  cases hi : i.stop with
  | true => rw [step_stop hi]; rfl
  | false =>
    cases hst : s.stateQ with
    | idle =>
      cases hs : i.start && i.nonceCount != 0 with
      | true => rw [step_accept hi hst hs]; rfl
      | false => rw [step_idle hi hst hs]; rfl
    | launch => rw [step_launch hi hst]; rfl
    | pass1 => rw [step_pass1 hi hst]; split <;> rfl
    | pass2 => rw [step_pass2 hi hst]; split <;> rfl
    | compare =>
      rw [step_compare hi hst, Engine.compareStep]
      split <;> rfl
    | check => rw [step_check hi hst]; split <;> rfl

end Step

end Vek280Miner.Rtl
