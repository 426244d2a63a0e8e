import Mathlib.Data.List.TakeWhile
import Vek280Miner.Lib.Word

/-!
# Hexadecimal text (`stratum_client.c`)

The decoder `hex_to_bytes`, the encoder `bytes_to_hex`, `hex_u32` with the rules of `strtoul` for base 16, and the
conversion `%08lx`. Text is a list of characters without the terminating zero byte.

* `hexToBytes_isSome_iff`: what the decoder accepts.
* `hexU32_eq`: on eight hex digits `hex_u32` is the big-endian word of the decoded bytes.
* `hexU32_formatHex8`: `%08lx` is read back by `hex_u32`.
-/

namespace Vek280Miner.Sw

/-! ## Decoding -/

def hexValue (ch : Char) : Option Nat :=
  if '0' ≤ ch ∧ ch ≤ '9' then some (ch.toNat - '0'.toNat)
  else if 'a' ≤ ch ∧ ch ≤ 'f' then some (10 + ch.toNat - 'a'.toNat)
  else if 'A' ≤ ch ∧ ch ≤ 'F' then some (10 + ch.toNat - 'A'.toNat)
  else none

/-- The loop of `hex_to_bytes`. -/
def hexPairs : List Char → Option (List Byte)
  | a :: b :: rest =>
    match hexValue a, hexValue b with
    | some hi, some lo => (hexPairs rest).map (BitVec.ofNat 8 (hi <<< 4 ||| lo) :: ·)
    | _, _ => none
  | _ => some []

def hexToBytes (hex : List Char) (maxBytes : Nat) : Option (List Byte) :=
  if hex.length % 2 ≠ 0 ∨ maxBytes < hex.length / 2 then none else hexPairs hex

/-- `isspace`. -/
def isSpace (ch : Char) : Bool := [' ', '\t', '\n', '\x0b', '\x0c', '\r'].contains ch

/-- A sign in front of the digits. -/
def stripSign : List Char → Bool × List Char
  | '-' :: s => (true, s)
  | '+' :: s => (false, s)
  | s => (false, s)

/-- `0x` in front of a digit. -/
def strip0x : List Char → List Char
  | '0' :: x :: d :: s => if (x == 'x' || x == 'X') && (hexValue d).isSome then d :: s else '0' :: x :: d :: s
  | s => s

/-- The number that a row of digits stands for. -/
def digitsValue (s : List Char) : Nat := s.foldl (fun v ch => v * 16 + (hexValue ch).getD 0) 0

/-- `strtoul(s, NULL, 16)` as a 32-bit value, for text that is too short to overflow. -/
def strtoul16 (s : List Char) : Word :=
  let (negative, s) := stripSign (s.dropWhile isSpace)
  let v := BitVec.ofNat 32 (digitsValue ((strip0x s).takeWhile fun ch => (hexValue ch).isSome))
  if negative then -v else v

def hexU32 (hex : List Char) : Word := strtoul16 hex

/-! ## Encoding -/

/-- `k_hex`. -/
def kHex (v : Nat) : Char :=
  ['0', '1', '2', '3', '4', '5', '6', '7', '8', '9', 'a', 'b', 'c', 'd', 'e', 'f'].getD v '0'

/-- `bytes_to_hex` into a buffer with room for all digits. -/
def bytesToHex (bytes : List Byte) : List Char := bytes.flatMap fun b : Byte => [kHex (b >>> 4).toNat, kHex (b &&& 0x0f).toNat]

/-- The conversion `%08lx` of a 32-bit value. -/
def formatHex8 (n : Word) : List Char := (List.range 8).map fun i => kHex (n >>> (28 - 4 * i) &&& 0xf).toNat

/-! ## What is read back -/

/-- The codes of the digits. -/
theorem hexValue_codes {ch : Char} (h : (hexValue ch).isSome) :
    48 ≤ ch.toNat ∧ ch.toNat ≤ 57 ∨ 97 ≤ ch.toNat ∧ ch.toNat ≤ 102 ∨ 65 ≤ ch.toNat ∧ ch.toNat ≤ 70 := by
  unfold hexValue at h
  split at h
  · exact .inl ‹_›
  · split at h
    · exact .inr (.inl ‹_›)
    · split at h
      · exact .inr (.inr ‹_›)
      · cases h

theorem hexValue_lt {ch : Char} {v : Nat} (h : hexValue ch = some v) : v < 16 := by
  unfold hexValue at h
  split at h
  · obtain rfl := Option.some.inj h
    rename_i hc
    have := Char.le_def.1 hc.2
    have h2 : ch.toNat ≤ 57 := this
    show ch.toNat - 48 < 16
    omega
  · split at h
    · obtain rfl := Option.some.inj h
      rename_i hc
      have h2 : ch.toNat ≤ 102 := Char.le_def.1 hc.2
      show 10 + ch.toNat - 97 < 16
      omega
    · split at h
      · obtain rfl := Option.some.inj h
        rename_i hc
        have h2 : ch.toNat ≤ 70 := Char.le_def.1 hc.2
        show 10 + ch.toNat - 65 < 16
        omega
      · simp at h

theorem hexValue_kHex {v : Nat} (h : v < 16) : hexValue (kHex v) = some v := by
  interval_cases v <;> decide

/-- The decoder accepts an even number of hex digits that fit into the buffer. -/
theorem hexPairs_isSome_iff : ∀ (s : List Char), s.length % 2 = 0 →
    ((hexPairs s).isSome ↔ ∀ ch ∈ s, (hexValue ch).isSome)
  | [], _ => by simp [hexPairs]
  | [_], h => by simp at h
  | a :: b :: rest, h => by
    have ih := hexPairs_isSome_iff rest (by simp at h; omega)
    simp only [hexPairs, List.mem_cons, forall_eq_or_imp]
    cases ha : hexValue a with
    | none => simp
    | some hi =>
      cases hb : hexValue b with
      | none => simp
      | some lo => simpa using ih

theorem hexToBytes_isSome_iff (s : List Char) (m : Nat) : (hexToBytes s m).isSome ↔
    s.length % 2 = 0 ∧ s.length / 2 ≤ m ∧ ∀ ch ∈ s, (hexValue ch).isSome := by
  rw [hexToBytes]
  by_cases h : s.length % 2 ≠ 0 ∨ m < s.length / 2
  · rw [if_pos h]
    simp only [Option.isSome_none, Bool.false_eq_true, false_iff]
    rintro ⟨h1, h2, -⟩
    omega
  · rw [if_neg h, hexPairs_isSome_iff s (by omega)]
    exact ⟨fun hs => ⟨by omega, by omega, hs⟩, fun hs => hs.2.2⟩

theorem length_hexPairs : ∀ {s : List Char} {b : List Byte}, hexPairs s = some b → b.length = s.length / 2
  | [], _, h => by rw [← Option.some.inj h]; rfl
  | [_], _, h => by rw [← Option.some.inj h]; simp
  | x :: y :: rest, b, h => by
    simp only [hexPairs] at h
    cases hx : hexValue x with
    | none => simp [hx] at h
    | some hi =>
      cases hy : hexValue y with
      | none => simp [hx, hy] at h
      | some lo =>
        simp only [hx, hy, Option.map_eq_some_iff] at h
        obtain ⟨t, ht, rfl⟩ := h
        have := length_hexPairs ht
        simp only [List.length_cons]
        omega

theorem length_hexToBytes {s : List Char} {m : Nat} {b : List Byte} (h : hexToBytes s m = some b) :
    b.length = s.length / 2 := by
  unfold hexToBytes at h
  split at h
  · simp at h
  · exact length_hexPairs h

@[simp] theorem bytesToHex_cons (b : Byte) (bytes : List Byte) :
    bytesToHex (b :: bytes) = kHex (b >>> 4).toNat :: kHex (b &&& 0x0f).toNat :: bytesToHex bytes := rfl

theorem length_bytesToHex (bytes : List Byte) : (bytesToHex bytes).length = 2 * bytes.length := by
  induction bytes with
  | nil => rfl
  | cons b bytes ih =>
    simp only [bytesToHex_cons, List.length_cons, ih]
    omega

theorem toNat_nibbles (b : Byte) : (b >>> 4).toNat = b.toNat / 16 ∧ (b &&& 0x0f).toNat = b.toNat % 16 := by
  rw [BitVec.toNat_ushiftRight, Nat.shiftRight_eq_div_pow, BitVec.toNat_and]
  exact ⟨rfl, Nat.and_two_pow_sub_one_eq_mod _ 4⟩

theorem hexValue_nibbles (b : Byte) : hexValue (kHex (b >>> 4).toNat) = some (b.toNat / 16) ∧
    hexValue (kHex (b &&& 0x0f).toNat) = some (b.toNat % 16) := by
  have hb := b.isLt
  rw [(toNat_nibbles b).1, (toNat_nibbles b).2]
  exact ⟨hexValue_kHex (by omega), hexValue_kHex (by omega)⟩

theorem hex_bytesToHex {bytes : List Byte} {ch : Char} (h : ch ∈ bytesToHex bytes) : (hexValue ch).isSome := by
  obtain ⟨b, -, h⟩ := List.mem_flatMap.1 h
  simp only [List.mem_cons, List.not_mem_nil, or_false] at h
  rcases h with rfl | rfl
  · rw [(hexValue_nibbles b).1]
    rfl
  · rw [(hexValue_nibbles b).2]
    rfl

/-- What the encoder writes is read back. -/
theorem hexPairs_bytesToHex (bytes : List Byte) : hexPairs (bytesToHex bytes) = some bytes := by
  induction bytes with
  | nil => rfl
  | cons b bytes ih =>
    have hb : (b.toNat / 16) <<< 4 ||| b.toNat % 16 = b.toNat := by
      rw [← Nat.shiftLeft_add_eq_or_of_lt (by omega), Nat.shiftLeft_eq]
      omega
    rw [bytesToHex_cons, hexPairs, (hexValue_nibbles b).1, (hexValue_nibbles b).2]
    simp only [ih, Option.map_some, hb, BitVec.ofNat_toNat, BitVec.setWidth_eq]

theorem hexToBytes_bytesToHex {bytes : List Byte} {m : Nat} (h : bytes.length ≤ m) :
    hexToBytes (bytesToHex bytes) m = some bytes := by
  rw [hexToBytes, length_bytesToHex, if_neg (by omega), hexPairs_bytesToHex]

/-- A hex digit is no blank, no sign and no `x`. -/
theorem hexValue_isSome_ne {ch : Char} (h : (hexValue ch).isSome) :
    isSpace ch = false ∧ ch ≠ '-' ∧ ch ≠ '+' ∧ ch ≠ 'x' ∧ ch ≠ 'X' := by
  refine ⟨?_, ?_, ?_, ?_, ?_⟩
  · by_contra hs
    simp only [isSpace, List.contains_eq_mem, List.mem_cons, List.not_mem_nil, or_false, Bool.not_eq_false,
      decide_eq_true_eq] at hs
    rcases hs with rfl | rfl | rfl | rfl | rfl | rfl <;> revert h <;> decide
  all_goals
    rintro rfl
    revert h
    decide

/-- `strtoul` on nothing but hex digits. -/
theorem strtoul16_digits {s : List Char} (h : ∀ ch ∈ s, (hexValue ch).isSome) :
    strtoul16 s = BitVec.ofNat 32 (digitsValue s) := by
  have hspace : s.dropWhile isSpace = s := by
    cases s with
    | nil => rfl
    | cons a t => rw [List.dropWhile_cons_of_neg (by simp [(hexValue_isSome_ne (h a List.mem_cons_self)).1])]
  have hsign : stripSign s = (false, s) := by
    cases s with
    | nil => rfl
    | cons a t =>
      have ha := hexValue_isSome_ne (h a List.mem_cons_self)
      rw [stripSign.eq_def]
      split
      · simp_all
      · simp_all
      · rfl
  have hx : strip0x s = s := by
    rw [strip0x.eq_def]
    split
    · rename_i x d t
      have hx := hexValue_isSome_ne (h x (by simp))
      rw [if_neg (by simp [hx])]
    · rfl
  have htake : s.takeWhile (fun ch => (hexValue ch).isSome) = s := List.takeWhile_eq_self_iff.2 (by simpa using h)
  simp only [strtoul16, hspace, hsign, hx, htake]
  simp

theorem toNat_pair {hi lo : Nat} (h1 : hi < 16) (h2 : lo < 16) : (BitVec.ofNat 8 (hi <<< 4 ||| lo)).toNat = hi * 16 + lo := by
  rw [BitVec.toNat_ofNat, ← Nat.shiftLeft_add_eq_or_of_lt (by omega), Nat.shiftLeft_eq]
  omega

/-- Eight hex digits decode to four bytes, whose big-endian word is the number that the digits stand for. -/
theorem hexU32_eq {s : List Char} (hl : s.length = 8) (h : ∀ ch ∈ s, (hexValue ch).isSome) :
    ∃ a b c d, hexToBytes s 4 = some [a, b, c, d] ∧ hexU32 s = ofBe a b c d := by
  have hstr := strtoul16_digits h
  rcases s with _ | ⟨c0, _ | ⟨c1, _ | ⟨c2, _ | ⟨c3, _ | ⟨c4, _ | ⟨c5, _ | ⟨c6, _ | ⟨c7, _ | ⟨c8, t⟩⟩⟩⟩⟩⟩⟩⟩⟩
  all_goals try simp at hl
  have hv : ∀ ch ∈ [c0, c1, c2, c3, c4, c5, c6, c7], ∃ v, hexValue ch = some v ∧ v < 16 := by
    intro ch hch
    obtain ⟨v, hv⟩ := Option.isSome_iff_exists.1 (h ch hch)
    exact ⟨v, hv, hexValue_lt hv⟩
  obtain ⟨v0, e0, l0⟩ := hv c0 (by simp)
  obtain ⟨v1, e1, l1⟩ := hv c1 (by simp)
  obtain ⟨v2, e2, l2⟩ := hv c2 (by simp)
  obtain ⟨v3, e3, l3⟩ := hv c3 (by simp)
  obtain ⟨v4, e4, l4⟩ := hv c4 (by simp)
  obtain ⟨v5, e5, l5⟩ := hv c5 (by simp)
  obtain ⟨v6, e6, l6⟩ := hv c6 (by simp)
  obtain ⟨v7, e7, l7⟩ := hv c7 (by simp)
  refine ⟨BitVec.ofNat 8 (v0 <<< 4 ||| v1), BitVec.ofNat 8 (v2 <<< 4 ||| v3), BitVec.ofNat 8 (v4 <<< 4 ||| v5),
    BitVec.ofNat 8 (v6 <<< 4 ||| v7), by simp [hexToBytes, hexPairs, e0, e1, e2, e3, e4, e5, e6, e7], ?_⟩
  rw [hexU32, hstr]
  apply BitVec.eq_of_toNat_eq
  rw [toNat_ofBe, toNat_pair l0 l1, toNat_pair l2 l3, toNat_pair l4 l5, toNat_pair l6 l7]
  simp only [digitsValue, List.foldl_cons, List.foldl_nil, e0, e1, e2, e3, e4, e5, e6, e7, Option.getD_some,
    BitVec.toNat_ofNat]
  omega

theorem toNat_nibble (n : Word) (k : Nat) : (n >>> k &&& 0xf).toNat = n.toNat / 2 ^ k % 16 := by
  rw [BitVec.toNat_and, BitVec.toNat_ushiftRight, Nat.shiftRight_eq_div_pow]
  exact Nat.and_two_pow_sub_one_eq_mod _ 4

theorem hex_formatHex8 {n : Word} {ch : Char} (h : ch ∈ formatHex8 n) : (hexValue ch).isSome := by
  obtain ⟨i, -, rfl⟩ := List.mem_map.1 h
  rw [toNat_nibble, hexValue_kHex (Nat.mod_lt _ (by omega))]
  rfl

/-- **Round trip.** A pool that reads the submitted text as a hex number gets the nonce. -/
theorem hexU32_formatHex8 (n : Word) : hexU32 (formatHex8 n) = n := by
  have hv : ∀ k : Nat, hexValue (kHex (n.toNat / 2 ^ k % 16)) = some (n.toNat / 2 ^ k % 16) := fun k =>
    hexValue_kHex (Nat.mod_lt _ (by omega))
  rw [hexU32, strtoul16_digits fun ch hch => hex_formatHex8 hch]
  apply BitVec.eq_of_toNat_eq
  have hn := n.isLt
  have hl : formatHex8 n = [28, 24, 20, 16, 12, 8, 4, 0].map fun k : Nat => kHex (n >>> k &&& 0xf).toNat := rfl
  rw [hl]
  simp only [digitsValue, List.map_cons, List.map_nil, List.foldl_cons, List.foldl_nil, toNat_nibble, hv, Option.getD_some,
    BitVec.toNat_ofNat]
  omega

end Vek280Miner.Sw
