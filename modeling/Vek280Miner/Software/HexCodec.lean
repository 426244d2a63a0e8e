import Vek280Miner.Software.Coinbase

/-!
# The hexadecimal codec (`bytes_to_hex`, `hex_to_bytes`)

`bytes_to_hex` writes two characters for a byte as long as both fit in front of the last cell of the buffer, and a
terminator behind them or into the last cell. The sizes are values of `size_t`, of any width `w`, and wrap around.
However small the buffer is, it holds a prefix of the encoding afterwards (`holdsText_bytesToHex`).
-/

namespace Vek280Miner.Sw

variable {w : Nat}

/-! ## Stores -/

/-- The loop of `bytes_to_hex` from the byte with index `i` on. -/
def bytesToHexLoop (hexSize : BitVec w) : List Byte → BitVec w → List (Char × Nat)
  | [], _ => []
  | b :: bytes, i =>
    if i * 2 + 1 < hexSize then
      (kHex (b >>> 4).toNat, (i * 2).toNat) :: (kHex (b &&& 0x0f).toNat, (i * 2 + 1).toNat) ::
        bytesToHexLoop hexSize bytes (i + 1)
    else []

/-- The cell of the terminator. -/
def hexEnd (len hexSize : BitVec w) : BitVec w := if len * 2 < hexSize then len * 2 else hexSize - 1

/-- The stores of `bytes_to_hex` into a buffer of `hexSize` characters. -/
def bytesToHexStores (bytes : List Byte) (hexSize : BitVec w) : List (Char × Nat) :=
  if hexSize = 0 then []
  else bytesToHexLoop hexSize bytes 0 ++ [('\x00', (hexEnd (BitVec.ofNat w bytes.length) hexSize).toNat)]

/-- A buffer of `size` characters that begins with the text `s` and its terminator. -/
def HoldsText (mem : Nat → Char) (size : Nat) (s : List Char) : Prop :=
  s.length < size ∧ '\x00' ∉ s ∧ cells mem s.length = s ∧ mem s.length = '\x00'

theorem bytesToHex_take (bytes : List Byte) (k : Nat) : bytesToHex (bytes.take k) = (bytesToHex bytes).take (2 * k) := by
  induction bytes generalizing k with
  | nil => simp [bytesToHex]
  | cons b bytes ih =>
    cases k with
    | zero => rfl
    | succ k => rw [List.take_succ_cons, bytesToHex_cons, ih, bytesToHex_cons, Nat.mul_succ]; rfl

/-- The indices do not wrap around before the loop ends. -/
theorem hexIndex_lt_iff {i hexSize : BitVec w} (h : i.toNat * 2 ≤ hexSize.toNat) :
    (i * 2).toNat = i.toNat * 2 ∧ (i * 2 + 1 < hexSize ↔ i.toNat * 2 + 1 < hexSize.toNat) ∧
      (i.toNat * 2 + 1 < hexSize.toNat → (i * 2 + 1).toNat = i.toNat * 2 + 1 ∧ (i + 1).toNat = i.toNat + 1) := by
  have hsize := hexSize.isLt
  have htwo : (i * 2).toNat = i.toNat * 2 := by
    rw [BitVec.toNat_mul]
    show i.toNat * (2 % 2 ^ w) % 2 ^ w = i.toNat * 2
    rw [Nat.mul_mod_mod, Nat.mod_eq_of_lt (by omega)]
  have hadd : ∀ j : BitVec w, (j + 1).toNat = (j.toNat + 1) % 2 ^ w := by
    intro j
    rw [BitVec.toNat_add]
    show (j.toNat + 1 % 2 ^ w) % 2 ^ w = _
    rw [Nat.add_mod_mod]
  have hone : (i * 2 + 1).toNat = (i.toNat * 2 + 1) % 2 ^ w := by rw [hadd, htwo]
  refine ⟨htwo, ?_, fun hlt => ⟨?_, ?_⟩⟩
  · rw [BitVec.lt_def, hone]
    cases w with
    | zero => omega
    | succ w => rw [Nat.mod_eq_of_lt (by omega)]
  · rw [hone, Nat.mod_eq_of_lt (by omega)]
  · rw [hadd, Nat.mod_eq_of_lt (by omega)]

/-- The loop stores the encoding of as many bytes as there is room for. -/
theorem bytesToHexLoop_eq (hexSize : BitVec w) : ∀ (bytes : List Byte) (i : BitVec w), i.toNat * 2 ≤ hexSize.toNat →
    bytesToHexLoop hexSize bytes i =
      (bytesToHex (bytes.take (hexSize.toNat / 2 - i.toNat))).zipIdx (i.toNat * 2)
  | [], _, _ => by simp [bytesToHexLoop, bytesToHex]
  | b :: bytes, i, hi => by
    obtain ⟨htwo, hiff, hnext⟩ := hexIndex_lt_iff hi
    rw [bytesToHexLoop]
    by_cases h : i.toNat * 2 + 1 < hexSize.toNat
    · obtain ⟨hone, hsucc⟩ := hnext h
      have hroom : hexSize.toNat / 2 - i.toNat = hexSize.toNat / 2 - (i + 1).toNat + 1 := by omega
      rw [if_pos (hiff.2 h), bytesToHexLoop_eq hexSize bytes (i + 1) (by omega), hroom, List.take_succ_cons,
        bytesToHex_cons, List.zipIdx_cons, List.zipIdx_cons, htwo, hone, hsucc, Nat.succ_mul]
    · rw [if_neg fun hlt => h (hiff.1 hlt), show hexSize.toNat / 2 - i.toNat = 0 by omega]
      rfl

/-- The terminator stands in the buffer, not behind the encoding, and not behind what the loop has stored. -/
theorem hexEnd_spec {len : Nat} {hexSize : BitVec w} (h0 : hexSize ≠ 0) (hlen : len < 2 ^ w) :
    (hexEnd (BitVec.ofNat w len) hexSize).toNat < hexSize.toNat ∧
      (hexEnd (BitVec.ofNat w len) hexSize).toNat ≤ 2 * min len (hexSize.toNat / 2) ∧
      (2 * len < hexSize.toNat → (hexEnd (BitVec.ofNat w len) hexSize).toNat = 2 * len) := by
  have hsize := hexSize.isLt
  have hpos : 0 < hexSize.toNat := Nat.pos_of_ne_zero fun h => h0 (BitVec.eq_of_toNat_eq h)
  obtain ⟨m, hm⟩ : ∃ m, 2 ^ w = 2 * m := by
    cases w with
    | zero => omega
    | succ v => exact ⟨2 ^ v, Nat.pow_succ'⟩
  have hdouble : (BitVec.ofNat w len * 2).toNat = 2 * len % 2 ^ w := by
    rw [BitVec.toNat_mul, BitVec.toNat_ofNat]
    show len % 2 ^ w * (2 % 2 ^ w) % 2 ^ w = _
    rw [← Nat.mul_mod, Nat.mul_comm]
  have hone : (hexSize - 1).toNat = hexSize.toNat - 1 := by
    have h1 : (1 : BitVec w).toNat = 1 := Nat.mod_eq_of_lt (show 1 < 2 ^ w by omega)
    rw [BitVec.toNat_sub_of_le (by rw [BitVec.le_def]; omega), h1]
  have hle := Nat.mod_le (2 * len) (2 ^ w)
  unfold hexEnd
  split
  · rename_i h
    rw [BitVec.lt_def, hdouble] at h
    rw [hdouble]
    have heven : 2 * len % 2 ^ w = 2 * (len % m) := by rw [hm, Nat.mul_mod_mul_left]
    exact ⟨h, by omega, fun hroom => Nat.mod_eq_of_lt (by omega)⟩
  · rename_i h
    rw [BitVec.lt_def, hdouble] at h
    rw [hone]
    refine ⟨by omega, by omega, fun hroom => ?_⟩
    rw [Nat.mod_eq_of_lt (by omega)] at h
    exact absurd hroom h

/-- **The buffer after `bytes_to_hex`.** -/
theorem holdsText_bytesToHex (bytes : List Byte) {hexSize : BitVec w} (h0 : hexSize ≠ 0) (hlen : bytes.length < 2 ^ w)
    (mem : Nat → Char) : (∀ store ∈ bytesToHexStores bytes hexSize, store.2 < hexSize.toNat) ∧
      HoldsText (storeLog mem (bytesToHexStores bytes hexSize)) hexSize.toNat
        ((bytesToHex bytes).take (hexEnd (BitVec.ofNat w bytes.length) hexSize).toNat) := by
  obtain ⟨hend, hstored, -⟩ := hexEnd_spec h0 hlen
  have hloop := bytesToHexLoop_eq hexSize bytes 0 (Nat.zero_le _)
  rw [show (0 : BitVec w).toNat = 0 from Nat.zero_mod _, Nat.zero_mul, Nat.sub_zero, bytesToHex_take] at hloop
  rw [bytesToHexStores, if_neg h0, hloop, storeLog_append]
  generalize (hexEnd (BitVec.ofNat w bytes.length) hexSize).toNat = e at *
  have hlength := length_bytesToHex bytes
  have htake : ((bytesToHex bytes).take e).length = e := by rw [List.length_take]; omega
  constructor
  · intro store hstore
    rcases List.mem_append.1 hstore with h | h
    · have hlt := List.snd_lt_of_mem_zipIdx h
      rw [List.length_take] at hlt
      omega
    · rw [List.mem_singleton.1 h]
      exact hend
  · refine ⟨by omega, fun hzero => ?_, ?_, ?_⟩
    · have hdigit := hex_bytesToHex (List.mem_of_mem_take hzero)
      revert hdigit
      decide
    · have hcells := cells_store mem 0 ((bytesToHex bytes).take (2 * (hexSize.toNat / 2)))
      have hle : e ≤ 0 + ((bytesToHex bytes).take (2 * (hexSize.toNat / 2))).length := by
        rw [List.length_take]
        omega
      rw [htake]
      show cells (Function.update _ e '\x00') e = _
      rw [cells_update le_rfl, ← take_cells hle, hcells]
      show ((bytesToHex bytes).take _).take e = _
      rw [List.take_take, Nat.min_eq_left (by omega)]
    · rw [htake]
      exact Function.update_self ..

/-- With room for all of it the buffer holds the encoding. -/
theorem holdsText_encoding {bytes : List Byte} {hexSize : BitVec w} (h : 2 * bytes.length < hexSize.toNat)
    (mem : Nat → Char) : HoldsText (storeLog mem (bytesToHexStores bytes hexSize)) hexSize.toNat (bytesToHex bytes) := by
  have hsize := hexSize.isLt
  have hlen : bytes.length < 2 ^ w := by omega
  have h0 : hexSize ≠ 0 := by
    rintro rfl
    rw [show (0 : BitVec w).toNat = 0 from Nat.zero_mod _] at h
    omega
  have hholds := (holdsText_bytesToHex bytes h0 hlen mem).2
  rwa [(hexEnd_spec h0 hlen).2.2 h, List.take_of_length_le (length_bytesToHex bytes).le] at hholds

/-! ## Reading back -/

/-- The digits of both cases. -/
def hexDigits : List Char := "0123456789abcdefABCDEF".toList

/-- A digit is one of 22 characters, and is encoded in lower case. -/
theorem hexValue_spec {ch : Char} (h : (hexValue ch).isSome) :
    ch ∈ hexDigits ∧ (hexValue ch).map kHex = some ch.toLower := by
  have hcodes := hexValue_codes h
  rw [← Char.ofNat_toNat ch]
  generalize ch.toNat = n at hcodes
  rcases hcodes with ⟨hlo, hhi⟩ | ⟨hlo, hhi⟩ | ⟨hlo, hhi⟩ <;> interval_cases n <;> decide

theorem hexValue_isSome_iff {ch : Char} : (hexValue ch).isSome ↔ ch ∈ hexDigits := by
  have hall : hexDigits.all (fun ch => (hexValue ch).isSome) = true := by decide
  exact ⟨fun h => (hexValue_spec h).1, fun h => List.all_eq_true.1 hall ch h⟩

/-- What is decoded is encoded again in lower case. -/
theorem bytesToHex_hexPairs : ∀ {s : List Char} {bytes : List Byte}, s.length % 2 = 0 → hexPairs s = some bytes →
    bytesToHex bytes = s.map Char.toLower
  | [], _, _, h => by rw [← Option.some.inj h]; rfl
  | [_], _, heven, _ => by cases heven
  | a :: b :: rest, bytes, heven, h => by
    rw [hexPairs] at h
    cases ha : hexValue a with
    | none => simp [ha] at h
    | some hi =>
      cases hb : hexValue b with
      | none => simp [ha, hb] at h
      | some lo =>
        simp only [ha, hb, Option.map_eq_some_iff] at h
        obtain ⟨bytes, hrest, rfl⟩ := h
        have ih := bytesToHex_hexPairs (by simp only [List.length_cons] at heven; omega) hrest
        have hhi := hexValue_lt ha
        have hlo := hexValue_lt hb
        have hbyte : (BitVec.ofNat 8 (hi <<< 4 ||| lo)).toNat = hi * 16 + lo := by
          rw [← Nat.shiftLeft_add_eq_or_of_lt (show lo < 2 ^ 4 by omega), Nat.shiftLeft_eq, BitVec.toNat_ofNat,
            Nat.mod_eq_of_lt (by omega)]
        have ha' : kHex hi = a.toLower := by
          have hspec := (@hexValue_spec a (by rw [ha]; rfl)).2
          rw [ha] at hspec
          exact Option.some.inj hspec
        have hb' : kHex lo = b.toLower := by
          have hspec := (@hexValue_spec b (by rw [hb]; rfl)).2
          rw [hb] at hspec
          exact Option.some.inj hspec
        rw [bytesToHex_cons, (toNat_nibbles _).1, (toNat_nibbles _).2, hbyte, show (hi * 16 + lo) / 16 = hi by omega,
          show (hi * 16 + lo) % 16 = lo by omega, ha', hb', ih]
        rfl

/-- Decoding what has been encoded. -/
theorem hexStore_bytesToHex {bytes : List Byte} {maxBytes : Nat} (hfits : bytes.length ≤ maxBytes) :
    hexStore (bytesToHex bytes) 0 maxBytes = (bytes.zipIdx, some bytes.length) := by
  rcases (hexStore_spec (bytesToHex bytes) 0 maxBytes).2 with ⟨-, hnone⟩ | ⟨bytes', hstore, hbytes⟩
  · rw [hexToBytes_bytesToHex hfits] at hnone
    cases hnone
  · rw [hexToBytes_bytesToHex hfits] at hbytes
    obtain rfl := Option.some.inj hbytes
    exact hstore

/-- The texts that are decoded. -/
theorem hexStore_isSome_iff (s : List Char) (maxBytes : Nat) : (hexStore s 0 maxBytes).2.isSome ↔
    s.length % 2 = 0 ∧ s.length ≤ 2 * maxBytes ∧ ∀ ch ∈ s, ch ∈ hexDigits := by
  have hsome : (hexStore s 0 maxBytes).2.isSome ↔ (hexToBytes s maxBytes).isSome := by
    rcases (hexStore_spec s 0 maxBytes).2 with ⟨hnone, hnone'⟩ | ⟨bytes, hstore, hbytes⟩
    · rw [hnone, hnone']
      exact Iff.rfl
    · rw [hstore, hbytes]
      exact iff_of_true rfl rfl
  rw [hsome, hexToBytes_isSome_iff]
  simp only [hexValue_isSome_iff]
  refine and_congr_right fun _ => and_congr_left fun _ => ?_
  omega

/-- Encoding what has been decoded. -/
theorem holdsText_decoded {w : Nat} {s : List Char} {maxBytes : Nat} {bytes : List Byte}
    (hbytes : hexToBytes s maxBytes = some bytes) {hexSize : BitVec w} (hroom : s.length < hexSize.toNat)
    (mem : Nat → Char) :
    HoldsText (storeLog mem (bytesToHexStores bytes hexSize)) hexSize.toNat (s.map Char.toLower) := by
  obtain ⟨heven, -, -⟩ := (hexToBytes_isSome_iff s maxBytes).1 (by rw [hbytes]; rfl)
  have hlen := length_hexToBytes hbytes
  have hpairs : hexPairs s = some bytes := by
    unfold hexToBytes at hbytes
    split at hbytes
    · cases hbytes
    · exact hbytes
  rw [← bytesToHex_hexPairs heven hpairs]
  exact holdsText_encoding (by omega) mem

/-- **The codec.** Encoding and decoding give the bytes back; the decoder takes the texts of digits that fit, and what
it decodes is encoded in lower case; and no buffer is too small for the encoder. -/
theorem hex_codec {w : Nat} :
    (∀ (bytes : List Byte) (hexSize : BitVec w) (maxBytes : Nat) (mem : Nat → Char), 2 * bytes.length < hexSize.toNat →
      bytes.length ≤ maxBytes → ∃ s, HoldsText (storeLog mem (bytesToHexStores bytes hexSize)) hexSize.toNat s ∧
        hexStore s 0 maxBytes = (bytes.zipIdx, some bytes.length)) ∧
    (∀ (s : List Char) (maxBytes : Nat),
      ((hexStore s 0 maxBytes).2.isSome ↔ s.length % 2 = 0 ∧ s.length ≤ 2 * maxBytes ∧ ∀ ch ∈ s, ch ∈ hexDigits) ∧
      ∀ outLen, (hexStore s 0 maxBytes).2 = some outLen → ∃ bytes : List Byte,
        (hexStore s 0 maxBytes).1 = bytes.zipIdx ∧ outLen = bytes.length ∧
          ∀ (hexSize : BitVec w) (mem : Nat → Char), s.length < hexSize.toNat →
            HoldsText (storeLog mem (bytesToHexStores bytes hexSize)) hexSize.toNat (s.map Char.toLower)) ∧
    ∀ (bytes : List Byte) (hexSize : BitVec w) (mem : Nat → Char), hexSize ≠ 0 → bytes.length < 2 ^ w →
      (∀ store ∈ bytesToHexStores bytes hexSize, store.2 < hexSize.toNat) ∧
        ∃ s, HoldsText (storeLog mem (bytesToHexStores bytes hexSize)) hexSize.toNat s ∧ s <+: bytesToHex bytes := by
  refine ⟨fun bytes hexSize maxBytes mem hroom hfits => ?_, fun s maxBytes => ⟨hexStore_isSome_iff s maxBytes, ?_⟩,
    fun bytes hexSize mem h0 hlen => ?_⟩
  · exact ⟨bytesToHex bytes, holdsText_encoding hroom mem, hexStore_bytesToHex hfits⟩
  · intro outLen hout
    rcases (hexStore_spec s 0 maxBytes).2 with ⟨hnone, -⟩ | ⟨bytes, hstore, hbytes⟩
    · rw [hnone] at hout
      cases hout
    · rw [hstore] at hout ⊢
      exact ⟨bytes, rfl, (Option.some.inj hout).symm, fun hexSize mem hroom => holdsText_decoded hbytes hroom mem⟩
  · obtain ⟨hstores, hholds⟩ := holdsText_bytesToHex bytes h0 hlen mem
    exact ⟨hstores, _, hholds, List.take_prefix _ _⟩

/-- Where the sizes do not fit the last digit gives way to the terminator. -/
example : bytesToHexStores [0xab, 0xcd] (4 : BitVec 32) =
    [('a', 0), ('b', 1), ('c', 2), ('d', 3), ('\x00', 3)] := by decide

end Vek280Miner.Sw
