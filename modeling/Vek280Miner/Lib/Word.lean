import Mathlib.Data.Fin.VecNotation
import Mathlib.Data.Fintype.Basic
import Mathlib.Data.List.OfFn
import Mathlib.Data.Nat.Digits.Defs
import Mathlib.Tactic.IntervalCases

/-!
# Words, bytes and byte order

* A 32-bit word as four bytes, most significant first (`beBytes`, `ofBe`) or least significant first (`leBytes`);
  `bswap` exchanges the two.
* `Words n` is a packed bus of `n` words, word `0` most significant; `wordsBytes` writes it out byte by byte.
* A bus as a number (`beValue`), and the word-serial comparison of two buses from the most significant word on
  (`headValue`, `headValue_lt_succ`, `headValue_le_succ`); its bytes as a little-endian number (`leValue`).
* `blit dst off src` overwrites part of a buffer.
-/

namespace Vek280Miner

abbrev Byte := BitVec 8

abbrev Word := BitVec 32

/-- `n` words; a packed bus is read with word `0` most significant. -/
abbrev Words (n : Nat) := Fin n → Word

instance {n : Nat} : Zero (Words n) := ⟨fun _ => 0⟩

instance neZeroEight : NeZero 8 := ⟨by decide⟩

/-! ## The bytes of a word -/

/-- The byte of `x` that starts at bit `n`. -/
def byteAt (x : Word) (n : Nat) : Byte := (x >>> n).setWidth 8

/-- Four bytes, the first most significant. -/
def ofBe (a b c d : Byte) : Word :=
  (a.setWidth 32 <<< 24) ||| (b.setWidth 32 <<< 16) ||| (c.setWidth 32 <<< 8) ||| d.setWidth 32

/-- The bytes of a word, most significant first. -/
def beBytes (x : Word) : List Byte := [byteAt x 24, byteAt x 16, byteAt x 8, byteAt x 0]

/-- The bytes of a word, least significant first. -/
def leBytes (x : Word) : List Byte := [byteAt x 0, byteAt x 8, byteAt x 16, byteAt x 24]

@[simp] theorem length_beBytes (x : Word) : (beBytes x).length = 4 := rfl

@[simp] theorem length_leBytes (x : Word) : (leBytes x).length = 4 := rfl

@[simp] theorem ofBe_byteAt (x : Word) : ofBe (byteAt x 24) (byteAt x 16) (byteAt x 8) (byteAt x 0) = x := by
  unfold ofBe byteAt
  ext i hi
  simp only [BitVec.getElem_or, BitVec.getElem_shiftLeft, BitVec.getElem_setWidth, BitVec.getLsbD_ushiftRight,
    BitVec.getLsbD_setWidth]
  interval_cases i <;> simp

@[simp] theorem beBytes_ofBe (a b c d : Byte) : beBytes (ofBe a b c d) = [a, b, c, d] := by
  unfold beBytes ofBe byteAt
  simp only [List.cons.injEq, and_true]
  refine ⟨?_, ?_, ?_, ?_⟩ <;>
  · ext i hi
    simp only [BitVec.getElem_setWidth, BitVec.getLsbD_ushiftRight, BitVec.getLsbD_or, BitVec.getLsbD_shiftLeft,
      BitVec.getLsbD_setWidth]
    interval_cases i <;> simp

theorem beBytes_injective : Function.Injective beBytes := by
  intro x y h
  simp only [beBytes, List.cons.injEq, and_true] at h
  obtain ⟨h3, h2, h1, h0⟩ := h
  rw [← ofBe_byteAt x, h3, h2, h1, h0, ofBe_byteAt]

/-- The word with its four bytes in the other order. -/
def bswap (x : Word) : Word := ofBe (byteAt x 0) (byteAt x 8) (byteAt x 16) (byteAt x 24)

theorem beBytes_bswap (x : Word) : beBytes (bswap x) = leBytes x := beBytes_ofBe _ _ _ _

/-- The two byte orders of a word agree exactly when the word is its own byte swap. -/
theorem leBytes_eq_beBytes_iff (x : Word) : leBytes x = beBytes x ↔ bswap x = x := by
  rw [← beBytes_bswap]
  exact beBytes_injective.eq_iff

theorem toNat_byteAt (x : Word) (n : Nat) : (byteAt x n).toNat = x.toNat / 2 ^ n % 256 := by
  simp [byteAt, Nat.shiftRight_eq_div_pow]

theorem toNat_eq_bytes (x : Word) : x.toNat =
    (byteAt x 24).toNat * 2 ^ 24 + (byteAt x 16).toNat * 2 ^ 16 + (byteAt x 8).toNat * 2 ^ 8 + (byteAt x 0).toNat := by
  have := x.isLt
  simp only [toNat_byteAt]
  omega

theorem toNat_ofBe (a b c d : Byte) :
    (ofBe a b c d).toNat = a.toNat * 2 ^ 24 + b.toNat * 2 ^ 16 + c.toNat * 2 ^ 8 + d.toNat := by
  have h := beBytes_ofBe a b c d
  simp only [beBytes, List.cons.injEq, and_true] at h
  obtain ⟨h3, h2, h1, h0⟩ := h
  rw [toNat_eq_bytes, h3, h2, h1, h0]

/-! ## Buses -/

/-- The bytes of a bus, most significant first. -/
def wordsBytes {n : Nat} (w : Words n) : List Byte := (List.ofFn w).flatMap beBytes

@[simp] theorem length_wordsBytes {n : Nat} (w : Words n) : (wordsBytes w).length = 4 * n := by
  simp [wordsBytes, Function.comp_def, List.ofFn_const, Nat.mul_comm]

theorem wordsBytes_zero (w : Words 0) : wordsBytes w = [] := rfl

theorem wordsBytes_succ {n : Nat} (w : Words (n + 1)) :
    wordsBytes w = beBytes (w 0) ++ wordsBytes (fun i => w i.succ) := by
  rw [wordsBytes, List.ofFn_succ, List.flatMap_cons, wordsBytes]

/-- Byte `4 * i + j` of a row of words is byte `j` of word `i`. -/
theorem getElem?_flatMap_beBytes {j : Nat} (hj : j < 4) : ∀ (l : List Word) (i : Nat),
    (l.flatMap beBytes)[4 * i + j]? = l[i]?.bind (fun x => (beBytes x)[j]?)
  | [], _ => by simp
  | x :: l, 0 => by
    rw [List.flatMap_cons, List.getElem?_append_left (by simpa using hj)]
    simp
  | x :: l, i + 1 => by
    rw [List.flatMap_cons, List.getElem?_append_right (by simp; omega), length_beBytes,
      show 4 * (i + 1) + j - 4 = 4 * i + j by omega, getElem?_flatMap_beBytes hj l i, List.getElem?_cons_succ]

theorem getD_wordsBytes {n : Nat} (w : Words n) (i : Fin n) {j : Nat} (hj : j < 4) :
    (wordsBytes w).getD (4 * i + j) 0 = (beBytes (w i)).getD j 0 := by
  rw [List.getD_eq_getElem?_getD, wordsBytes, getElem?_flatMap_beBytes hj, List.getD_eq_getElem?_getD]
  simp

/-- The number of the first `i` words of a bus. -/
def headValue {n : Nat} (w : Words n) : (i : Nat) → i ≤ n → Nat
  | 0, _ => 0
  | i + 1, h => headValue w i (by omega) * 2 ^ 32 + (w ⟨i, h⟩).toNat

/-- A bus as a number. -/
def beValue {n : Nat} (w : Words n) : Nat := headValue w n le_rfl

/-- The bytes of a bus as a number, the last byte most significant. -/
def leValue {n : Nat} (w : Words n) : Nat := Nat.ofDigits 256 ((wordsBytes w).map BitVec.toNat)

/-- No bus is above the one with every bit set. -/
theorem headValue_le_ones {n : Nat} (w : Words n) : ∀ (i : Nat) (h : i ≤ n),
    headValue w i h ≤ headValue (fun _ : Fin n => (0xffffffff : Word)) i h
  | 0, _ => le_rfl
  | i + 1, h => by
    have hw := (w ⟨i, h⟩).isLt
    have hi := headValue_le_ones w i (by omega)
    have hm : (0xffffffff : Word).toNat = 2 ^ 32 - 1 := rfl
    simp only [headValue, hm]
    omega

theorem beValue_le_ones {n : Nat} (w : Words n) : beValue w ≤ beValue (fun _ : Fin n => (0xffffffff : Word)) :=
  headValue_le_ones w n le_rfl

/-- One step of the word-serial comparison: less so far, or equal so far and less in the next word. -/
theorem headValue_lt_succ {n : Nat} (v w : Words n) (i : Nat) (h : i + 1 ≤ n) :
    headValue v (i + 1) h < headValue w (i + 1) h ↔
      headValue v i (by omega) < headValue w i (by omega) ∨
        ¬ headValue w i (by omega) < headValue v i (by omega) ∧ v ⟨i, h⟩ < w ⟨i, h⟩ := by
  have hv := (v ⟨i, h⟩).isLt
  have hw := (w ⟨i, h⟩).isLt
  simp only [headValue, BitVec.lt_def]
  omega

theorem headValue_le_succ {n : Nat} (v w : Words n) (i : Nat) (h : i + 1 ≤ n) :
    headValue v (i + 1) h ≤ headValue w (i + 1) h ↔
      headValue v i (by omega) < headValue w i (by omega) ∨
        ¬ headValue w i (by omega) < headValue v i (by omega) ∧ v ⟨i, h⟩ ≤ w ⟨i, h⟩ := by
  have hv := (v ⟨i, h⟩).isLt
  have hw := (w ⟨i, h⟩).isLt
  simp only [headValue, BitVec.le_def]
  omega

/-! ## Buffers -/

section Buffers

variable {α : Type}

/-- The buffer `dst` with `src` written from index `off` on. -/
def blit (dst : List α) (off : Nat) (src : List α) : List α := dst.take off ++ src ++ dst.drop (off + src.length)

theorem length_blit {dst : List α} {off : Nat} {src : List α} (h : off + src.length ≤ dst.length) :
    (blit dst off src).length = dst.length := by
  simp [blit]
  omega

theorem take_blit {dst : List α} {off : Nat} (src : List α) (h : off ≤ dst.length) :
    (blit dst off src).take (off + src.length) = dst.take off ++ src := by
  rw [blit, List.take_left' (by simp [Nat.min_eq_left h])]

/-- Writing behind a part of the buffer. -/
theorem blit_append {a : List α} {off : Nat} (h : a.length = off) (rest src : List α) :
    blit (a ++ rest) off src = a ++ src ++ rest.drop src.length := by
  rw [blit, List.take_left' h, List.drop_append, List.drop_eq_nil_of_le (by omega), List.nil_append,
    show off + src.length - a.length = src.length by omega]

end Buffers

end Vek280Miner
