import Vek280Miner.Software.Hex
import Vek280Miner.Software.Sha256

/-!
# Building jobs and submitting shares (`stratum_client.c`)

`build_job` turns a `mining.notify` and the session's state into the job that the miner runs: it assembles the coinbase
transaction, folds the merkle branches into it, and serialises the block header from which the midstate and the tail
words are taken. `submit_share` writes the line that reports a nonce to the pool.
-/

namespace Vek280Miner.Sw

/-- A zero-terminated text in a buffer of `n` characters. -/
abbrev CStr (n : Nat) := { s : List Char // s.length < n }

/-- `snprintf(dst, n + 1, "%s", s)`. -/
def CStr.copy {n : Nat} (s : List Char) : CStr (n + 1) := ⟨s.take n, by simp⟩

/-! ## Data -/

structure StratumNotify where
  jobId : CStr 64
  prevhash : CStr 65
  coinb1 : CStr 1025
  coinb2 : CStr 1025
  merkle : List (CStr 65)
  version : CStr 9
  nbits : CStr 9
  ntime : CStr 9
  cleanJobs : Bool
  merkle_count : merkle.length ≤ 16

/-- The part of the session's state that `build_job` reads; the subscribe response bounds the size of `extranonce2`. -/
structure StratumState where
  extranonce1 : CStr 65
  extranonce2Size : Nat
  extranonce2Counter : Word
  target : Words 8
  subscribed : Bool
  authorized : Bool
  haveTarget : Bool
  extranonce2Size_le : extranonce2Size ≤ 16

structure MinerJob where
  midstate : Words 8
  headerTail : Words 4
  target : Words 8
  nonceStart : Word
  nonceCount : Word
  jobId : CStr 64
  extranonce2 : CStr 33
  ntime : CStr 9
deriving DecidableEq

/-! ## `build_job` -/

def storeLe32 (value : Word) : List Byte := [byteAt value 0, byteAt value 8, byteAt value 16, byteAt value 24]

def reverseCopy (src : List Byte) : List Byte := src.reverse

/-- The bytes of `make_extranonce2`: the counter's last bytes, zeros in front. -/
def extranonce2Bytes (size : Nat) (value : Word) : List Byte :=
  (List.range size).map fun p => if size - 1 - p < 4 then byteAt value ((size - 1 - p) * 8) else 0

def makeExtranonce2 (state : StratumState) : Option (List Char) × StratumState :=
  let value := state.extranonce2Counter
  let state := { state with extranonce2Counter := value + 1 }
  if 33 < state.extranonce2Size * 2 + 1 then (none, state)
  else (some (bytesToHex (extranonce2Bytes state.extranonce2Size value)), state)

/-- The four parts of the coinbase transaction in the buffer of 512 bytes. -/
def coinbaseBytes (notify : StratumNotify) (extranonce1 extranonce2 : List Char) : Option (List Byte) := do
  let c1 ← hexToBytes notify.coinb1 512
  let e1 ← hexToBytes extranonce1 (512 - c1.length)
  let e2 ← hexToBytes extranonce2 (512 - (c1.length + e1.length))
  let c2 ← hexToBytes notify.coinb2 (512 - (c1.length + e1.length + e2.length))
  return c1 ++ e1 ++ e2 ++ c2

/-- Text that decodes to exactly 32 bytes. -/
def hex32 (hex : List Char) : Option (List Byte) :=
  (hexToBytes hex 32).bind fun b => if b.length ≠ 32 then none else some b

/-- The loop over the merkle branches; `merkleInternal` is the value it carries. -/
def merkleLoop : List (CStr 65) → List Byte → Option (List Byte)
  | [], merkleInternal => some merkleInternal
  | branch :: rest, merkleInternal =>
    match hex32 branch with
    | none => none
    | some b => merkleLoop rest (reverseCopy (doubleSha256 (merkleInternal ++ b)))

/-- The stores into the zeroed header. -/
def assembleHeader (version prevhash merkleInternal ntime nbits : List Byte) : List Byte :=
  let header := List.replicate 80 0
  let header := blit header 0 version
  let header := blit header 4 prevhash
  let header := blit header 36 merkleInternal
  let header := blit header 68 ntime
  blit header 72 nbits

/-- The header that `build_job` serialises. -/
def headerBytes (notify : StratumNotify) (coinbase : List Byte) : Option (List Byte) := do
  let merkleInternal ← merkleLoop notify.merkle (reverseCopy (doubleSha256 coinbase))
  let tmp ← hex32 notify.prevhash
  return assembleHeader (storeLe32 (hexU32 notify.version)) (reverseCopy tmp) merkleInternal
    (storeLe32 (hexU32 notify.ntime)) (storeLe32 (hexU32 notify.nbits))

/-- The job for a header. -/
def jobOfHeader (notify : StratumNotify) (target : Words 8) (extranonce2 : List Char) (header : List Byte) : MinerJob where
  midstate := bitcoinHeaderMidstate header
  headerTail := bitcoinHeaderTailWords header
  target := target
  nonceStart := 0
  nonceCount := 0xffffffff
  jobId := CStr.copy notify.jobId
  extranonce2 := CStr.copy extranonce2
  ntime := CStr.copy notify.ntime

/-- `build_job`; the counter advances whenever the session is ready, also when the job cannot be built. -/
def buildJob (notify : StratumNotify) (state : StratumState) : Option MinerJob × StratumState :=
  if !state.haveTarget || !state.subscribed || !state.authorized then (none, state)
  else
    match makeExtranonce2 state with
    | (none, state) => (none, state)
    | (some extranonce2, state) =>
      let header := (coinbaseBytes notify state.extranonce1 extranonce2).bind (headerBytes notify)
      (header.map (jobOfHeader notify state.target extranonce2), state)

/-! ## `submit_share` -/

/-- `snprintf` into a buffer of `n` characters. -/
def snprintf (n : Nat) (text : List Char) : List Char := text.take (n - 1)

/-- The text of the format in front of its first argument. -/
def submitOpen : List Char := "\x7b\"id\":4,\"method\":\"mining.submit\",\"params\":[\"".toList

/-- The text of the format between two arguments. -/
def submitSep : List Char := "\",\"".toList

/-- The text of the format behind its last argument. -/
def submitTail : List Char := "\"]\x7d\n".toList

/-- The line up to the nonce. -/
def submitHead (user : CStr 128) (job : MinerJob) : List Char :=
  submitOpen ++ user ++ submitSep ++ job.jobId ++ submitSep ++ job.extranonce2 ++ submitSep ++ job.ntime ++ submitSep

/-- The line that `submit_share` sends; a job without an id is not reported. -/
def submitShare (user : CStr 128) (nonce : Word) (job : MinerJob) : Option (List Char) :=
  if job.jobId.val = [] then none
  else some (snprintf 512 (submitHead user job ++ formatHex8 nonce ++ submitTail))

end Vek280Miner.Sw
