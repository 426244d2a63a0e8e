import Vek280Miner.Lib.LongDivision
import Vek280Miner.Software.StratumParse

/-!
# The target for a difficulty (`compact_target_for_difficulty`)

The target of difficulty `D` is the target of difficulty 1 divided by `D`. The code divides byte by byte, by `D` as a
32-bit integer: a difficulty below 1 is taken as 1, which gives a harder target, and another one loses its fraction,
which gives an easier one. `neverEasier_iff` says for which difficulties the target is not easier,
`target_le_dyadic_iff` what that means for those a `double` can hold.
-/

namespace Vek280Miner.Sw

/-! ## The division -/

/-- `divisor`. -/
def difficultyDivisor (difficulty : Rat) : Nat := (if difficulty < 1 then 1 else difficulty).floor.toNat % 2 ^ 32

/-- The target of difficulty 1 as a number. -/
def diff1 : Nat := 0xffff * 2 ^ 208

theorem shift_or (rem : Nat) (b : Byte) : rem <<< 8 ||| b.toNat = rem * 256 + b.toNat := by
  rw [← Nat.shiftLeft_add_eq_or_of_lt b.isLt, Nat.shiftLeft_eq]

/-- A remainder of 32 bits with the next byte behind it. -/
theorem shift_or_byte {rem : Nat} (h : rem < 2 ^ 32) (b : Byte) :
    (rem <<< 8 ||| b.toNat) % 2 ^ 64 = rem * 256 + b.toNat := by
  have hb := b.isLt
  rw [shift_or, Nat.mod_eq_of_lt (by omega)]

/-- The loop is a long division. -/
theorem divideBytes_eq {divisor : Nat} (hd : divisor < 2 ^ 32) : ∀ {rem : Nat} (bytes : List Byte), rem < divisor →
    (divideBytes divisor rem bytes).map BitVec.toNat = longDiv 256 divisor rem (bytes.map BitVec.toNat)
  | _, [], _ => rfl
  | rem, b :: bytes, hrem => by
    have hq : (rem * 256 + b.toNat) / divisor < 256 :=
      longDiv_lt (l := [b.toNat]) hrem (by simpa using b.isLt) _ List.mem_cons_self
    rw [divideBytes, List.map_cons, List.map_cons, longDiv, shift_or_byte (by omega), BitVec.toNat_ofNat,
      Nat.mod_eq_of_lt hq, divideBytes_eq hd bytes (Nat.mod_lt _ (by omega))]

/-- The words of the bytes as a number. -/
theorem headValue_packWords {bytes : List Byte} : ∀ (i : Nat) (h : i ≤ 8), 4 * i ≤ bytes.length →
    headValue (packWords bytes) i h = digitsNat 256 ((bytes.take (4 * i)).map BitVec.toNat)
  | 0, _, _ => rfl
  | i + 1, h, hlen => by
    have h0 : i * 4 < bytes.length := by omega
    have h1 : i * 4 + 1 < bytes.length := by omega
    have h2 : i * 4 + 2 < bytes.length := by omega
    have h3 : i * 4 + 3 < bytes.length := by omega
    have htake : bytes.take (4 * (i + 1)) = bytes.take (4 * i) ++
        [bytes[i * 4], bytes[i * 4 + 1], bytes[i * 4 + 2], bytes[i * 4 + 3]] := by
      rw [show 4 * (i + 1) = i * 4 + 3 + 1 by omega, List.take_succ_eq_append_getElem h3,
        List.take_succ_eq_append_getElem h2, List.take_succ_eq_append_getElem h1, List.take_succ_eq_append_getElem h0,
        Nat.mul_comm 4 i]
      simp only [List.append_assoc, List.cons_append, List.nil_append]
    rw [headValue, headValue_packWords i (by omega) (by omega), htake, List.map_append, digitsNat_append, packWords,
      toNat_ofBe]
    simp only [List.getD_eq_getElem?_getD, List.getElem?_eq_getElem, h0, h1, h2, h3, Option.getD_some, List.map_cons,
      List.map_nil, List.length_cons, List.length_nil, digitsNat_cons]
    simp only [digitsNat, List.reverse_nil, Nat.ofDigits_nil]
    omega

theorem beValue_packWords {bytes : List Byte} (h : bytes.length = 32) :
    beValue (packWords bytes) = digitsNat 256 (bytes.map BitVec.toNat) := by
  rw [beValue, headValue_packWords 8 le_rfl (by omega), List.take_of_length_le (by omega)]

theorem length_divideBytes (divisor rem : Nat) (bytes : List Byte) :
    (divideBytes divisor rem bytes).length = bytes.length := by
  induction bytes generalizing rem with
  | nil => rfl
  | cons b bytes ih => rw [divideBytes, List.length_cons, ih, List.length_cons]

theorem digitsNat_diff1Bytes : digitsNat 256 (diff1Bytes.map BitVec.toNat) = diff1 := by decide +kernel

/-- The target is the quotient of the target of difficulty 1 by the divisor. -/
theorem beValue_compactTarget {difficulty : Rat} (h : 0 < difficultyDivisor difficulty) :
    beValue (compactTargetForDifficulty difficulty) = diff1 / difficultyDivisor difficulty := by
  have hlt : difficultyDivisor difficulty < 2 ^ 32 := Nat.mod_lt _ (by decide)
  have hlen : (divideBytes (difficultyDivisor difficulty) 0 diff1Bytes).length = 32 := length_divideBytes _ _ _
  show beValue (packWords (divideBytes (difficultyDivisor difficulty) 0 diff1Bytes)) = _
  rw [beValue_packWords hlen, divideBytes_eq hlt _ h, digitsNat_longDiv 256 _ h, digitsNat_diff1Bytes, Nat.zero_mul,
    Nat.zero_add]

/-! ## The loop in place -/

/-- `bytes` and `rem`. -/
structure DivideState where
  bytes : List Byte
  rem : Nat

/-- One iteration of the loop of `compact_target_for_difficulty`. -/
def divideStep (divisor i : Nat) (s : DivideState) : DivideState :=
  let value := (s.rem <<< 8 ||| (s.bytes.getD i 0).toNat) % 2 ^ 64
  ⟨s.bytes.set i (BitVec.ofNat 8 (value / divisor)), value % divisor⟩

/-- The variables after `n` iterations. -/
def divideLoop (divisor : Nat) : Nat → DivideState
  | 0 => ⟨diff1Bytes, 0⟩
  | n + 1 => divideStep divisor n (divideLoop divisor n)

/-- The remainder behind the bytes. -/
def divideRem (divisor : Nat) : Nat → List Byte → Nat
  | rem, [] => rem
  | rem, b :: bytes => divideRem divisor ((rem <<< 8 ||| b.toNat) % 2 ^ 64 % divisor) bytes

theorem divideBytes_append (divisor : Nat) : ∀ (rem : Nat) (l l' : List Byte), divideBytes divisor rem (l ++ l') =
    divideBytes divisor rem l ++ divideBytes divisor (divideRem divisor rem l) l'
  | _, [], _ => rfl
  | _, _ :: l, l' => congrArg (_ :: ·) (divideBytes_append divisor _ l l')

theorem divideRem_append (divisor : Nat) : ∀ (rem : Nat) (l l' : List Byte), divideRem divisor rem (l ++ l') =
    divideRem divisor (divideRem divisor rem l) l'
  | _, [], _ => rfl
  | _, _ :: l, l' => divideRem_append divisor _ l l'

theorem divideRem_lt {divisor : Nat} : ∀ {rem : Nat} (l : List Byte), rem < divisor → divideRem divisor rem l < divisor
  | _, [], h => h
  | _, _ :: l, h => divideRem_lt l (Nat.mod_lt _ (by omega))

/-- The bytes in front of index `n` are quotients, those behind it are still the dividend. -/
theorem divideLoop_eq (divisor : Nat) : ∀ {n : Nat}, n ≤ 32 → divideLoop divisor n =
    ⟨divideBytes divisor 0 (diff1Bytes.take n) ++ diff1Bytes.drop n, divideRem divisor 0 (diff1Bytes.take n)⟩
  | 0, _ => rfl
  | n + 1, hn => by
    have hlen : diff1Bytes.length = 32 := rfl
    have hdrop : diff1Bytes.drop n = diff1Bytes[n] :: diff1Bytes.drop (n + 1) := List.drop_eq_getElem_cons (by omega)
    have hfront : (divideBytes divisor 0 (diff1Bytes.take n)).length = n := by
      rw [length_divideBytes, List.length_take]
      omega
    have hget : (divideBytes divisor 0 (diff1Bytes.take n) ++ diff1Bytes.drop n).getD n 0 = diff1Bytes[n] := by
      rw [List.getD_eq_getElem?_getD, List.getElem?_append_right (by omega), hfront, Nat.sub_self, hdrop]
      rfl
    have hset : ∀ q, (divideBytes divisor 0 (diff1Bytes.take n) ++ diff1Bytes.drop n).set n q =
        divideBytes divisor 0 (diff1Bytes.take n) ++ ([q] ++ diff1Bytes.drop (n + 1)) := by
      intro q
      rw [List.set_append_right _ _ (by omega), hfront, Nat.sub_self, hdrop]
      rfl
    rw [divideLoop, divideLoop_eq divisor (by omega), divideStep]
    simp only [hget, hset]
    rw [List.take_succ_eq_append_getElem (by omega), divideBytes_append, divideRem_append, List.append_assoc]
    rfl

/-- **Exact division.** For every divisor of 32 bits the remainder stays below it, no shift and no cast loses a bit, and
the loop leaves the bytes of the quotient, which the words keep. -/
theorem divideLoop_exact {divisor : Nat} (h0 : 1 ≤ divisor) (hlt : divisor < 2 ^ 32) :
    (∀ i ≤ 32, (divideLoop divisor i).rem < divisor) ∧
      (∀ i < 32, let s := divideLoop divisor i
        let value := s.rem <<< 8 ||| (s.bytes.getD i 0).toNat
        value < 2 ^ 64 ∧ value / divisor < 2 ^ 8) ∧
      (divideLoop divisor 32).bytes.length = 32 ∧
      digitsNat 256 ((divideLoop divisor 32).bytes.map BitVec.toNat) = 0xffff * 2 ^ 208 / divisor ∧
      beValue (packWords (divideLoop divisor 32).bytes) = 0xffff * 2 ^ 208 / divisor ∧
      ∀ difficulty, difficultyDivisor difficulty = divisor →
        compactTargetForDifficulty difficulty = packWords (divideLoop divisor 32).bytes := by
  have hrem : ∀ i ≤ 32, (divideLoop divisor i).rem < divisor := by
    intro i hi
    rw [divideLoop_eq divisor hi]
    exact divideRem_lt _ h0
  have hbytes : (divideLoop divisor 32).bytes = divideBytes divisor 0 diff1Bytes := by
    rw [divideLoop_eq divisor le_rfl]
    exact List.append_nil _
  have hlen : (divideBytes divisor 0 diff1Bytes).length = 32 := length_divideBytes _ _ _
  have hvalue : digitsNat 256 ((divideBytes divisor 0 diff1Bytes).map BitVec.toNat) = 0xffff * 2 ^ 208 / divisor := by
    rw [divideBytes_eq hlt _ h0, digitsNat_longDiv 256 _ h0, digitsNat_diff1Bytes, Nat.zero_mul, Nat.zero_add, diff1]
  rw [hbytes]
  refine ⟨hrem, fun i hi => ?_, hlen, hvalue, (beValue_packWords hlen).trans hvalue, fun difficulty hd => ?_⟩
  · have hr := hrem i hi.le
    have hb := ((divideLoop divisor i).bytes.getD i 0).isLt
    have hq := longDiv_lt (b := 256) (l := [((divideLoop divisor i).bytes.getD i 0).toNat]) hr (by simpa using hb) _
      List.mem_cons_self
    dsimp only
    rw [shift_or]
    exact ⟨by omega, hq⟩
  · subst hd
    rfl

/-- The largest divisor. -/
theorem divideLoop_exact_max : beValue (packWords (divideLoop (2 ^ 32 - 1) 32).bytes) = 0xffff * 2 ^ 208 / (2 ^ 32 - 1) :=
  (divideLoop_exact (by decide) (by decide)).2.2.2.2.1

/-! ## Rounding -/

/-- The divisor is not zero, the target is at most the target of difficulty 1 divided by the difficulty, and so is every
digest that meets it. -/
structure NeverEasier (difficulty : Rat) : Prop where
  divisor_ne : difficultyDivisor difficulty ≠ 0
  target_le : (beValue (compactTargetForDifficulty difficulty) : ℚ) ≤ diff1 / difficulty
  digest_le : ∀ digest : Words 8, beValue digest ≤ beValue (compactTargetForDifficulty difficulty) →
    (beValue digest : ℚ) ≤ diff1 / difficulty

/-- The integer part of a difficulty, 1 if it is below 1. -/
theorem difficultyDivisor_eq {difficulty : Rat} (h : difficulty < 2 ^ 32) :
    difficultyDivisor difficulty = if difficulty < 1 then 1 else ⌊difficulty⌋₊ := by
  unfold difficultyDivisor
  split
  · rfl
  · rename_i hge
    have hlt : ⌊difficulty⌋₊ < 2 ^ 32 := (Nat.floor_lt (by linarith)).2 (by exact_mod_cast h)
    exact Nat.mod_eq_of_lt hlt

theorem difficultyDivisor_pos {difficulty : Rat} (h : difficulty < 2 ^ 32) : 0 < difficultyDivisor difficulty := by
  rw [difficultyDivisor_eq h]
  split
  · exact Nat.one_pos
  · rename_i hge
    exact Nat.floor_pos.2 (not_lt.1 hge)

/-- No divisor of 32 bits exceeds the target of difficulty 1. -/
theorem le_diff1_div {d : Nat} (h0 : 0 < d) (hd : d < 2 ^ 32) : 2 ^ 191 ≤ diff1 / d := by
  rw [Nat.le_div_iff_mul_le h0]
  calc 2 ^ 191 * d ≤ 2 ^ 191 * 2 ^ 32 := Nat.mul_le_mul_left _ hd.le
    _ ≤ diff1 := by decide

/-- What a difficulty may exceed its integer part by: what is left over in the division of the target of difficulty 1,
divided by the quotient. -/
def roundingSlack (difficulty : Rat) : Rat := (diff1 % ⌊difficulty⌋₊ : Nat) / (diff1 / ⌊difficulty⌋₊ : Nat)

theorem target_le_iff {difficulty : Rat} (hpos : 0 < difficulty) (h : difficulty < 2 ^ 32) :
    (beValue (compactTargetForDifficulty difficulty) : ℚ) ≤ diff1 / difficulty ↔
      difficulty ≤ 1 ∨ difficulty - ⌊difficulty⌋₊ ≤ roundingSlack difficulty := by
  rw [beValue_compactTarget (difficultyDivisor_pos h), difficultyDivisor_eq h]
  have hone : ∀ {x : ℚ}, 0 < x → x ≤ 1 → (diff1 : ℚ) ≤ diff1 / x := fun hx hle => le_div_self (by positivity) hx hle
  split
  · rename_i hlt
    rw [Nat.div_one]
    exact ⟨fun _ => .inl hlt.le, fun _ => hone hpos hlt.le⟩
  · rename_i hge
    have hd : 0 < ⌊difficulty⌋₊ := Nat.floor_pos.2 (not_lt.1 hge)
    have hd' : ⌊difficulty⌋₊ < 2 ^ 32 := (Nat.floor_lt hpos.le).2 (by exact_mod_cast h)
    have hq : 0 < diff1 / ⌊difficulty⌋₊ := lt_of_lt_of_le (by decide) (le_diff1_div hd hd')
    rw [div_le_div_iff_sub_le hpos hq]
    refine ⟨.inr, ?_⟩
    rintro (hle | hle)
    · obtain rfl : difficulty = 1 := le_antisymm hle (not_lt.1 hge)
      rw [Nat.floor_one, Nat.cast_one, sub_self]
      positivity
    · exact hle

/-- **Rounding.** For every difficulty below `2 ^ 32` that is read from a line, the target is not easier than the
difficulty exactly when the difficulty is at most 1 or an integer, up to the slack of the division. -/
theorem neverEasier_iff {strtod : List Char → Rat} {line : List Char} {difficulty : Rat}
    (hread : parseDifficulty strtod line = some difficulty) (h : difficulty < 2 ^ 32) :
    NeverEasier difficulty ↔ difficulty ≤ 1 ∨ difficulty - ⌊difficulty⌋₊ ≤ roundingSlack difficulty := by
  have hpos : 0 < difficulty := by
    simp only [parseDifficulty, Option.bind_eq_bind, Option.bind_eq_some_iff] at hread
    obtain ⟨p, -, hread⟩ := hread
    split at hread
    · obtain rfl := Option.some.inj hread
      assumption
    · cases hread
  rw [← target_le_iff hpos h]
  refine ⟨NeverEasier.target_le, fun hle => ⟨(difficultyDivisor_pos h).ne', hle, fun digest hdigest => ?_⟩⟩
  calc (beValue digest : ℚ) ≤ beValue (compactTargetForDifficulty difficulty) := by exact_mod_cast hdigest
    _ ≤ diff1 / difficulty := hle

/-- A difficulty of 1.5, which the code takes as 1. -/
theorem parseDifficulty_three_halves :
    parseDifficulty (fun _ => 3 / 2) "\"params\":[1.5]".toList = some (3 / 2) := by decide +kernel

theorem neverEasier_at_three_halves : NeverEasier (3 / 2) ↔
    (3 / 2 : ℚ) ≤ 1 ∨ (3 / 2 : ℚ) - ⌊(3 / 2 : ℚ)⌋₊ ≤ roundingSlack (3 / 2) :=
  neverEasier_iff parseDifficulty_three_halves (by norm_num)

theorem easier_at_three_halves : ¬ ∀ (strtod : List Char → Rat) (line : List Char) (difficulty : Rat),
    parseDifficulty strtod line = some difficulty → difficulty < 2 ^ 32 → NeverEasier difficulty := by
  intro h
  have hle := (h _ _ _ parseDifficulty_three_halves (by norm_num)).target_le
  rw [beValue_compactTarget (by decide +kernel)] at hle
  have hdiv : difficultyDivisor (3 / 2) = 1 := by decide +kernel
  rw [hdiv, diff1] at hle
  norm_num at hle

/-! ## Difficulties that a `double` can hold -/

theorem roundingSlack_lt {difficulty : Rat} (h1 : 1 ≤ difficulty) (h : difficulty < 2 ^ 32) :
    roundingSlack difficulty < 1 / 2 ^ 159 := by
  have hd : 0 < ⌊difficulty⌋₊ := Nat.floor_pos.2 h1
  have hd' : ⌊difficulty⌋₊ < 2 ^ 32 := (Nat.floor_lt (by linarith)).2 (by exact_mod_cast h)
  have hq := le_diff1_div hd hd'
  have hr : diff1 % ⌊difficulty⌋₊ < 2 ^ 32 := (Nat.mod_lt _ hd).trans hd'
  have hqpos : (0 : ℚ) < (diff1 / ⌊difficulty⌋₊ : Nat) := by exact_mod_cast lt_of_lt_of_le (by decide) hq
  rw [roundingSlack, div_lt_div_iff₀ hqpos (by positivity), one_mul]
  calc ((diff1 % ⌊difficulty⌋₊ : Nat) : ℚ) * 2 ^ 159 < 2 ^ 32 * 2 ^ 159 := by
        exact mul_lt_mul_of_pos_right (by exact_mod_cast hr) (by positivity)
    _ = 2 ^ 191 := by norm_num
    _ ≤ (diff1 / ⌊difficulty⌋₊ : Nat) := by exact_mod_cast hq

/-- A binary fraction of at most 159 digits, such as a `double` from 1 on, is in the slack only when it is an integer.
-/
theorem target_le_dyadic_iff {m k : Nat} {difficulty : Rat} (hdyadic : difficulty = m / 2 ^ k) (hk : k ≤ 159)
    (hpos : 0 < difficulty) (h : difficulty < 2 ^ 32) :
    (beValue (compactTargetForDifficulty difficulty) : ℚ) ≤ diff1 / difficulty ↔
      difficulty ≤ 1 ∨ difficulty = ⌊difficulty⌋₊ := by
  rw [target_le_iff hpos h]
  by_cases hle : difficulty ≤ 1
  · exact iff_of_true (.inl hle) (.inl hle)
  simp only [hle, false_or]
  constructor
  · intro hslack
    have hpow : (0 : ℚ) < 2 ^ k := by positivity
    have hlt : difficulty - ⌊difficulty⌋₊ < 1 / 2 ^ k := by
      calc difficulty - ⌊difficulty⌋₊ < 1 / 2 ^ 159 := hslack.trans_lt (roundingSlack_lt (not_le.1 hle).le h)
        _ ≤ 1 / 2 ^ k := one_div_le_one_div_of_le hpow (pow_le_pow_right₀ (by norm_num) hk)
    have hfloor : ((⌊difficulty⌋₊ : Nat) : ℚ) ≤ difficulty := Nat.floor_le hpos.le
    -- in units of the last digit, both sides are integers
    rw [lt_div_iff₀ hpow, sub_mul, hdyadic, div_mul_cancel₀ _ hpow.ne', ← hdyadic] at hlt
    rw [hdyadic, le_div_iff₀ hpow, ← hdyadic] at hfloor
    have hlt' : m < ⌊difficulty⌋₊ * 2 ^ k + 1 := by
      have : (m : ℚ) < ⌊difficulty⌋₊ * 2 ^ k + 1 := by linarith
      exact_mod_cast this
    have hle' : ⌊difficulty⌋₊ * 2 ^ k ≤ m := by exact_mod_cast hfloor
    have hm : m = ⌊difficulty⌋₊ * 2 ^ k := by omega
    have hm' : (m : ℚ) = ⌊difficulty⌋₊ * 2 ^ k := by exact_mod_cast hm
    calc difficulty = m / 2 ^ k := hdyadic
      _ = ⌊difficulty⌋₊ := by rw [hm', mul_div_cancel_right₀ _ hpow.ne']
  · intro heq
    rw [← heq, sub_self, roundingSlack]
    positivity

end Vek280Miner.Sw
