import Vek280Miner.Software.Job
import Mathlib.Data.Rat.Floor

/-!
# Messages of the pool (`stratum_client.c`)

The parsers that `handle_stratum_line` calls. They look for members by their names and read strings, numbers and
literals where they find them; they do not check that a line is a JSON object.

A pointer into the line is the list of the characters from there to the end of the buffer, the terminating zero and what
is behind it included. `deref` is the character under a pointer; the pointer past the end of the buffer, which no access
should reach, reads as zero.
-/

namespace Vek280Miner.Sw

/-! ## Text -/

/-- `*s`. -/
def deref (s : List Char) : Char := s.headD '\x00'

def skipWs (s : List Char) : List Char := s.dropWhile fun ch => ch == ' ' || ch == '\t' || ch == '\r' || ch == '\n'

/-- `strstr`, for a text without zeros that is not empty. -/
def strstr (needle : List Char) : List Char → Option (List Char)
  | [] => none
  | ch :: s =>
    if ch = '\x00' then none
    else if needle.isPrefixOf (ch :: s) then some (ch :: s)
    else strstr needle s

/-- `strchr`, for a character other than zero. -/
def strchr (c : Char) : List Char → Option (List Char)
  | [] => none
  | ch :: s => if ch = c then some (ch :: s) else if ch = '\x00' then none else strchr c s

/-- `isdigit`. -/
def isDigit (ch : Char) : Bool := '0' ≤ ch && ch ≤ '9'

/-- `strtoul(s, &end, 10)` with a result of 32 bits: a number that does not fit gives the largest one, and without
digits the end is the beginning. -/
def strtoul10 (s : List Char) : Word × List Char :=
  let (negative, digits) := stripSign (s.dropWhile isSpace)
  let row := digits.takeWhile isDigit
  if row = [] then (0, s)
  else
    let v := row.foldl (fun v ch => v * 10 + (ch.toNat - '0'.toNat)) 0
    let w : Word := if 2 ^ 32 ≤ v then 0xffffffff else if negative then -BitVec.ofNat 32 v else BitVec.ofNat 32 v
    (w, digits.dropWhile isDigit)

theorem isSpace_digit {d : Char} (h : isDigit d = true) : isSpace d = false := by
  rw [← Bool.not_eq_true]
  intro hsp
  have hd : d ∈ [' ', '\t', '\n', '\x0b', '\x0c', '\r'] := by simpa [isSpace] using hsp
  revert h
  fin_cases hd <;> decide

theorem stripSign_digit {d : Char} (h : isDigit d = true) (s : List Char) : stripSign (d :: s) = (false, d :: s) := by
  unfold stripSign
  split
  · rename_i heq
    obtain ⟨rfl, -⟩ := List.cons.inj heq
    exact absurd h (by decide)
  · rename_i heq
    obtain ⟨rfl, -⟩ := List.cons.inj heq
    exact absurd h (by decide)
  · rfl

/-- The end of a number is behind its first digit. -/
theorem length_strtoul10 {s : List Char} (h : isDigit (deref s) = true) : (strtoul10 s).2.length < s.length := by
  cases s with
  | nil => exact absurd h (by decide)
  | cons d s =>
    replace h : isDigit d = true := h
    have hrow : (d :: s).takeWhile isDigit ≠ [] := by simp [h]
    rw [strtoul10, List.dropWhile_cons_of_neg (by simp [isSpace_digit h]), stripSign_digit h]
    simp only [hrow, if_false]
    rw [List.dropWhile_cons_of_pos h]
    exact Nat.lt_succ_of_le (List.dropWhile_suffix _).length_le

theorem length_skipWs (s : List Char) : (skipWs s).length ≤ s.length := (List.dropWhile_suffix _).length_le

theorem strstr_suffix {needle s t : List Char} (h : strstr needle s = some t) : t <:+ s ∧ needle <+: t := by
  induction s with
  | nil => cases h
  | cons ch s ih =>
    rw [strstr] at h
    split at h
    · cases h
    · split at h
      · rename_i hpre
        obtain rfl := Option.some.inj h
        exact ⟨List.suffix_rfl, List.isPrefixOf_iff_prefix.1 hpre⟩
      · exact ⟨(ih h).1.trans (List.suffix_cons ch s), (ih h).2⟩

/-! ## Strings -/

/-- The next character of a string, stored as long as there is room. -/
def CStr.push {n : Nat} (dst : CStr n) (ch : Char) : CStr n :=
  if h : dst.1.length + 1 < n then ⟨dst.1 ++ [ch], by simpa using h⟩ else dst

/-- The loop of `read_json_string`. -/
def readJsonLoop {n : Nat} (dst : CStr n) : List Char → Option (CStr n × List Char)
  | [] => none
  | ch :: s =>
    if ch = '\x00' then none
    else if ch = '\\' then
      match s with
      | [] => none
      | ch' :: s' => if ch' = '\x00' then none else readJsonLoop (dst.push ch') s'
    else if ch = '"' then some (dst, s)
    else readJsonLoop (dst.push ch) s

/-- `read_json_string` into a buffer of `n + 1` characters, with the new cursor. -/
def readJsonString {n : Nat} (cursor : List Char) : Option (CStr (n + 1) × List Char) :=
  match skipWs cursor with
  | '"' :: s => readJsonLoop ⟨[], Nat.succ_pos n⟩ s
  | _ => none

theorem length_readJsonLoop {n : Nat} {dst dst' : CStr n} {s t : List Char} (h : readJsonLoop dst s = some (dst', t)) :
    t.length < s.length := by
  fun_induction readJsonLoop dst s with
  | case1 => cases h
  | case2 => cases h
  | case3 => cases h
  | case4 => cases h
  | case5 dst ch' s' _ _ ih =>
    have hlt := ih h
    simp only [List.length_cons]
    omega
  | case6 dst ch s =>
    obtain ⟨-, rfl⟩ := Prod.mk.inj (Option.some.inj h)
    exact Nat.lt_succ_self _
  | case7 dst ch s _ _ _ ih =>
    have hlt := ih h
    simp only [List.length_cons]
    omega

/-- A string takes up at least its quotes. -/
theorem length_readJsonString {n : Nat} {dst : CStr (n + 1)} {s t : List Char} (h : readJsonString s = some (dst, t)) :
    t.length < s.length := by
  unfold readJsonString at h
  split at h
  · rename_i s' hs
    have hle := length_skipWs s
    have hlt := length_readJsonLoop h
    rw [hs, List.length_cons] at hle
    omega
  · cases h

/-! ## Members -/

/-- Behind the bracket that opens the array of `"params"`. -/
def findParamsArray (line : List Char) : Option (List Char) :=
  (strstr "\"params\"".toList line).bind fun p => (strchr '[' p).map List.tail

/-- One of the members `"id"` has the value `id`. -/
def jsonHasId (line : List Char) (id : Word) : Bool :=
  match _h : strstr "\"id\"".toList line with
  | none => false
  | some p =>
    let p' := skipWs (p.drop 4)
    if deref p' ≠ ':' then jsonHasId p' id
    else
      let p'' := skipWs p'.tail
      if (strtoul10 p'').1 = id then true else jsonHasId p'' id
termination_by line.length
decreasing_by
  all_goals
    obtain ⟨hsuffix, hprefix⟩ := strstr_suffix _h
    have hle := hsuffix.length_le
    have hlen : 4 ≤ p.length := hprefix.length_le
    have h1 := length_skipWs (p.drop 4)
    have h2 := length_skipWs (skipWs (p.drop 4)).tail
    rw [List.length_drop] at h1
    rw [List.length_tail] at h2
    omega

def jsonMethodIs (line method : List Char) : Bool :=
  match strstr "\"method\"".toList line with
  | none => false
  | some p =>
    let p := skipWs (p.drop 8)
    if deref p ≠ ':' then false
    else
      match (readJsonString p.tail : Option (CStr 64 × List Char)) with
      | none => false
      | some (parsed, _) => parsed.1 == method

/-! ## Elements of `params` -/

/-- A comma that follows, if there is one. -/
def skipComma (s : List Char) : List Char := if deref (skipWs s) = ',' then (skipWs s).tail else skipWs s

def paramsString {n : Nat} (cursor : List Char) : Option (CStr (n + 1) × List Char) :=
  (readJsonString (skipWs cursor)).map fun (dst, s) => (dst, skipComma s)

def paramsBool (cursor : List Char) : Option (Bool × List Char) :=
  let s := skipWs cursor
  if "true".toList.isPrefixOf s then some (true, skipComma (s.drop 4))
  else if "false".toList.isPrefixOf s then some (false, skipComma (s.drop 5))
  else none

/-- The loop of `params_merkle_array` with room for `slots` more branches. -/
def merkleArrayLoop : (slots : Nat) → List Char → Option ({ l : List (CStr 65) // l.length ≤ slots } × List Char)
  | 0, s => if deref (skipWs s) = ']' then some (⟨[], le_rfl⟩, (skipWs s).tail) else none
  | slots + 1, s =>
    if deref (skipWs s) = ']' then some (⟨[], Nat.zero_le _⟩, (skipWs s).tail)
    else
      match (readJsonString (skipWs s) : Option (CStr 65 × List Char)) with
      | none => none
      | some (branch, s) =>
        let s := skipWs s
        if deref s = ',' then
          (merkleArrayLoop slots s.tail).map fun (rest, s) => (⟨branch :: rest.1, Nat.succ_le_succ rest.2⟩, s)
        else if deref s ≠ ']' then none
        else (merkleArrayLoop slots s).map fun (rest, s) => (⟨branch :: rest.1, Nat.succ_le_succ rest.2⟩, s)

def paramsMerkleArray (cursor : List Char) : Option ({ l : List (CStr 65) // l.length ≤ 16 } × List Char) :=
  let s := skipWs cursor
  if deref s ≠ '[' then none else (merkleArrayLoop 16 s.tail).map fun (merkle, s) => (merkle, skipComma s)

/-! ## Messages -/

def parseNotify (line : List Char) : Option StratumNotify := do
  let p ← findParamsArray line
  let (jobId, p) ← paramsString p
  let (prevhash, p) ← paramsString p
  let (coinb1, p) ← paramsString p
  let (coinb2, p) ← paramsString p
  let (merkle, p) ← paramsMerkleArray p
  let (version, p) ← paramsString p
  let (nbits, p) ← paramsString p
  let (ntime, p) ← paramsString p
  let (cleanJobs, _) ← paramsBool p
  return ⟨jobId, prevhash, coinb1, coinb2, merkle.1, version, nbits, ntime, cleanJobs, merkle.2⟩

/-- The words of 32 bytes, the first byte most significant. -/
def packWords (bytes : List Byte) : Words 8 := fun i =>
  ofBe (bytes.getD (i * 4) 0) (bytes.getD (i * 4 + 1) 0) (bytes.getD (i * 4 + 2) 0) (bytes.getD (i * 4 + 3) 0)

def parseTarget (line : List Char) : Option (Words 8) := do
  let p ← findParamsArray line
  let (targetHex, _) ← (paramsString p : Option (CStr 65 × List Char))
  let bytes ← hexToBytes targetHex 32
  if bytes.length ≠ 32 then none else some (packWords bytes)

/-- `parse_difficulty`; `strtod` is the number that the C library reads. -/
def parseDifficulty (strtod : List Char → Rat) (line : List Char) : Option Rat := do
  let p ← findParamsArray line
  let difficulty := strtod p
  if 0 < difficulty then some difficulty else none

/-- The loop of `compact_target_for_difficulty` from a remainder on. -/
def divideBytes (divisor : Nat) : Nat → List Byte → List Byte
  | _, [] => []
  | rem, b :: bytes =>
    let value := (rem <<< 8 ||| b.toNat) % 2 ^ 64
    BitVec.ofNat 8 (value / divisor) :: divideBytes divisor (value % divisor) bytes

/-- The target of difficulty 1. -/
def diff1Bytes : List Byte := [0x00, 0x00, 0x00, 0x00, 0xff, 0xff] ++ List.replicate 26 0x00

def compactTargetForDifficulty (difficulty : Rat) : Words 8 :=
  let divisor := (if difficulty < 1 then 1 else difficulty).floor.toNat % 2 ^ 32
  packWords (divideBytes divisor 0 diff1Bytes)

/-- The loop of `parse_subscribe_response`: the last string and the last number of the array. -/
def subscribeLoop (s : List Char) (lastString : CStr 65) (lastNumber : Word) (depth : Int) : Option (CStr 65 × Word) :=
  if h0 : deref s = '\x00' then some (lastString, lastNumber)
  else
    let t := skipWs s
    if deref t = '"' then
      match _hs : (readJsonString t : Option (CStr 65 × List Char)) with
      | none => none
      | some (string, t') => subscribeLoop t' string lastNumber depth
    else if deref t = '[' then subscribeLoop t.tail lastString lastNumber (depth + 1)
    else if deref t = ']' then
      if depth ≤ 1 then some (lastString, lastNumber) else subscribeLoop t.tail lastString lastNumber (depth - 1)
    else if _hd : isDigit (deref t) then subscribeLoop (strtoul10 t).2 lastString (strtoul10 t).1 depth
    else subscribeLoop t.tail lastString lastNumber depth
termination_by s.length
decreasing_by
  all_goals
    have hpos : 0 < s.length := List.length_pos_of_ne_nil fun hnil => h0 (by rw [hnil]; rfl)
    have hle := length_skipWs s
  · exact Nat.lt_of_lt_of_le (length_readJsonString _hs) hle
  · rw [List.length_tail]
    omega
  · rw [List.length_tail]
    omega
  · exact Nat.lt_of_lt_of_le (length_strtoul10 _hd) hle
  · rw [List.length_tail]
    omega

/-- `parse_subscribe_response`: the state with the subscription. -/
def parseSubscribeResponse (line : List Char) (state : StratumState) : Option StratumState :=
  match strstr "\"result\"".toList line with
  | none => none
  | some result =>
    if !jsonHasId line 1 then none
    else
      match strchr '[' result with
      | none => none
      | some s =>
        match subscribeLoop s ⟨[], by decide⟩ 0 0 with
        | none => none
        | some (lastString, lastNumber) =>
          if h : lastString.1 = [] ∨ 16 < lastNumber.toNat then none
          else
            some { state with
              extranonce1 := CStr.copy lastString
              extranonce2Size := lastNumber.toNat
              subscribed := true
              extranonce2Size_le := by omega }

/-- `parse_authorize_response`: the state with the authorization. -/
def parseAuthorizeResponse (line : List Char) (state : StratumState) : Option StratumState :=
  match strstr "\"result\"".toList line with
  | none => none
  | some result =>
    if !jsonHasId line 2 then none
    else if (strstr "true".toList result).isSome then some { state with authorized := true }
    else none

end Vek280Miner.Sw
