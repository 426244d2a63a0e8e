import Mathlib.Tactic.FinCases
import Vek280Miner.Lib.Sha256

/-!
# The firmware's SHA-256 (`sha256_sw.c`)

* `sha256Compress` is the compression function of the specification at the firmware's constants (`sha256Compress_eq`).
* A context has absorbed `m` (`Absorbed`) when its chaining value is that of the whole blocks of `m` and its buffer
  starts with the rest. `sha256Init` has absorbed nothing, `sha256Update` appends to what was absorbed
  (`absorbed_update`), and `sha256Final` then gives the hash of the message (`sha256Final_eq`).
* Hence `doubleSha256` is the hash of the hash (`doubleSha256_eq`), whatever the stack held before.
-/

namespace Vek280Miner.Sw

open Sha256 (Vars sched vars absorb blockWords)

/-! ## Constants and byte order -/

def kSha256 : List Word :=
  [0x428a2f98, 0x71374491, 0xb5c0fbcf, 0xe9b5dba5,
   0x3956c25b, 0x59f111f1, 0x923f82a4, 0xab1c5ed5,
   0xd807aa98, 0x12835b01, 0x243185be, 0x550c7dc3,
   0x72be5d74, 0x80deb1fe, 0x9bdc06a7, 0xc19bf174,
   0xe49b69c1, 0xefbe4786, 0x0fc19dc6, 0x240ca1cc,
   0x2de92c6f, 0x4a7484aa, 0x5cb0a9dc, 0x76f988da,
   0x983e5152, 0xa831c66d, 0xb00327c8, 0xbf597fc7,
   0xc6e00bf3, 0xd5a79147, 0x06ca6351, 0x14292967,
   0x27b70a85, 0x2e1b2138, 0x4d2c6dfc, 0x53380d13,
   0x650a7354, 0x766a0abb, 0x81c2c92e, 0x92722c85,
   0xa2bfe8a1, 0xa81a664b, 0xc24b8b70, 0xc76c51a3,
   0xd192e819, 0xd6990624, 0xf40e3585, 0x106aa070,
   0x19a4c116, 0x1e376c08, 0x2748774c, 0x34b0bcb5,
   0x391c0cb3, 0x4ed8aa4a, 0x5b9cca4f, 0x682e6ff3,
   0x748f82ee, 0x78a5636f, 0x84c87814, 0x8cc70208,
   0x90befffa, 0xa4506ceb, 0xbef9a3f7, 0xc67178f2]

/-- The round constants as the specification indexes them. -/
def roundConst (t : Nat) : Word := kSha256.getD t 0

/-- The initial chaining value that `sha256_init` stores. -/
def initialH : Words 8 :=
  ![0x6a09e667, 0xbb67ae85, 0x3c6ef372, 0xa54ff53a, 0x510e527f, 0x9b05688c, 0x1f83d9ab, 0x5be0cd19]

def rotr32 (x : Word) (n : Nat) : Word := (x >>> n) ||| (x <<< (32 - n))

/-- `load_be32` at the front of a byte string. -/
def loadBe32 (p : List Byte) : Word := ofBe (p.getD 0 0) (p.getD 1 0) (p.getD 2 0) (p.getD 3 0)

/-- The four bytes that `store_be32` writes. -/
def storeBe32 (x : Word) : List Byte := [byteAt x 24, byteAt x 16, byteAt x 8, byteAt x 0]

/-! ## `sha256_compress` -/

/-- The second schedule loop, run for `n` more words. -/
def extendW : Nat → List Word → List Word
  | 0, w => w
  | n + 1, w =>
    let i := w.length
    let w15 := w.getD (i - 15) 0
    let w2 := w.getD (i - 2) 0
    let s0 := rotr32 w15 7 ^^^ rotr32 w15 18 ^^^ (w15 >>> 3)
    let s1 := rotr32 w2 17 ^^^ rotr32 w2 19 ^^^ (w2 >>> 10)
    extendW n (w ++ [w.getD (i - 16) 0 + s0 + w.getD (i - 7) 0 + s1])

/-- The body of the round loop. -/
def compressRound (w : List Word) (v : Vars) (i : Nat) : Vars :=
  let s1 := rotr32 v.e 6 ^^^ rotr32 v.e 11 ^^^ rotr32 v.e 25
  let ch := (v.e &&& v.f) ^^^ (~~~v.e &&& v.g)
  let temp1 := v.h + s1 + ch + kSha256.getD i 0 + w.getD i 0
  let s0 := rotr32 v.a 2 ^^^ rotr32 v.a 13 ^^^ rotr32 v.a 22
  let maj := (v.a &&& v.b) ^^^ (v.a &&& v.c) ^^^ (v.b &&& v.c)
  let temp2 := s0 + maj
  ⟨temp1 + temp2, v.a, v.b, v.c, v.d + temp1, v.e, v.f, v.g⟩

def sha256Compress (state : Words 8) (block : List Byte) : Words 8 :=
  let w := extendW 48 ((List.range 16).map fun i => loadBe32 (block.drop (i * 4)))
  let v := (List.range 64).foldl (compressRound w) (Vars.ofWords state)
  ![state 0 + v.a, state 1 + v.b, state 2 + v.c, state 3 + v.d,
    state 4 + v.e, state 5 + v.f, state 6 + v.g, state 7 + v.h]

theorem loadBe32_drop (b : List Byte) (i : Fin 16) : loadBe32 (b.drop (i * 4)) = blockWords b i := by
  simp only [loadBe32, blockWords, List.getD_eq_getElem?_getD, List.getElem?_drop, Nat.mul_comm, Nat.add_zero]

/-- A schedule that holds the first words of `sched` holds more of them after the loop. -/
theorem extendW_sched (m : Words 16) : ∀ (n t : Nat), 16 ≤ t →
    extendW n ((List.range t).map (sched m)) = (List.range (t + n)).map (sched m)
  | 0, _, _ => rfl
  | n + 1, t, ht => by
    have hget : ∀ j < t, ((List.range t).map (sched m)).getD j 0 = sched m j := by
      intro j hj
      simp [List.getD_eq_getElem?_getD, List.getElem?_range hj]
    have hw : (sched m (t - 16) + Sha256.smallSigma0 (sched m (t - 15)) + sched m (t - 7) +
        Sha256.smallSigma1 (sched m (t - 2))) = sched m t := by
      rw [Sha256.sched_later m ht]
      ac_rfl
    have hl : (List.range t).map (sched m) ++ [sched m (t - 16) + Sha256.smallSigma0 (sched m (t - 15)) +
        sched m (t - 7) + Sha256.smallSigma1 (sched m (t - 2))] = (List.range (t + 1)).map (sched m) := by
      rw [hw, List.range_succ, List.map_append, List.map_cons, List.map_nil]
    simp only [extendW, List.length_map, List.length_range]
    rw [hget _ (by omega), hget _ (by omega), hget _ (by omega), hget _ (by omega),
      show t + (n + 1) = t + 1 + n by omega, ← extendW_sched m n (t + 1) (by omega), ← hl]
    rfl

/-- The round loop computes the working variables of the specification. -/
theorem foldl_compressRound {w : List Word} {m : Words 16} (hw : ∀ t < 64, w.getD t 0 = sched m t) (h : Words 8) :
    ∀ n ≤ 64, (List.range n).foldl (compressRound w) (Vars.ofWords h) = vars roundConst m h n
  | 0, _ => rfl
  | n + 1, hn => by
    rw [List.range_succ, List.foldl_append, foldl_compressRound hw h n (by omega), List.foldl_cons, List.foldl_nil]
    simp only [compressRound, hw n (by omega)]
    rfl

theorem sha256Compress_eq (h : Words 8) (b : List Byte) :
    sha256Compress h b = Sha256.compress roundConst h (blockWords b) := by
  have hw : extendW 48 ((List.range 16).map fun i => loadBe32 (b.drop (i * 4))) =
      (List.range 64).map (sched (blockWords b)) := by
    rw [← extendW_sched (blockWords b) 48 16 le_rfl]
    congr 1
    apply List.map_congr_left
    intro i hi
    rw [Sha256.sched_input _ (List.mem_range.mp hi)]
    exact loadBe32_drop b ⟨i, List.mem_range.mp hi⟩
  have hv := foldl_compressRound (m := blockWords b) (w := (List.range 64).map (sched (blockWords b)))
    (by intro t ht; simp [List.getD_eq_getElem?_getD, List.getElem?_range ht]) h 64 le_rfl
  funext i
  simp only [sha256Compress, Sha256.compress, hw, hv]
  fin_cases i <;> rfl

/-- The same for a block that is given as words. -/
theorem sha256Compress_wordsBytes (h : Words 8) (m : Words 16) :
    sha256Compress h (wordsBytes m) = Sha256.compress roundConst h m := by
  rw [sha256Compress_eq, Sha256.blockWords_wordsBytes]

/-! ## Contexts -/

/-- `sha256_ctx_t` between calls: the buffer has 64 bytes and at least one of them is free. -/
structure Sha256Ctx where
  h : Words 8
  bitCount : BitVec 64
  buffer : List Byte
  bufferLen : Nat
  buffer_length : buffer.length = 64
  bufferLen_lt : bufferLen < 64

/-- `sha256_init`; the buffer keeps what the memory held. -/
def sha256Init (ctx : Sha256Ctx) : Sha256Ctx :=
  { ctx with h := initialH, bitCount := 0, bufferLen := 0, bufferLen_lt := by decide }

/-- `take` in `sha256_update` for `len` remaining bytes. -/
def Sha256Ctx.take (ctx : Sha256Ctx) (len : Nat) : Nat :=
  let room := 64 - ctx.bufferLen
  if len < room then len else room

theorem Sha256Ctx.take_le (ctx : Sha256Ctx) (len : Nat) : ctx.take len ≤ len ∧ ctx.bufferLen + ctx.take len ≤ 64 := by
  have := ctx.bufferLen_lt
  simp only [Sha256Ctx.take]
  split <;> omega

theorem Sha256Ctx.take_pos (ctx : Sha256Ctx) {len : Nat} (h : 0 < len) : 0 < ctx.take len := by
  have := ctx.bufferLen_lt
  simp only [Sha256Ctx.take]
  split <;> omega

/-- The buffer after the `memcpy` of `sha256_update`. -/
def Sha256Ctx.fill (ctx : Sha256Ctx) (data : List Byte) : List Byte :=
  blit ctx.buffer ctx.bufferLen (data.take (ctx.take data.length))

theorem Sha256Ctx.length_fill (ctx : Sha256Ctx) (data : List Byte) : (ctx.fill data).length = 64 := by
  have h1 := ctx.buffer_length
  have h2 := ctx.take_le data.length
  rw [Sha256Ctx.fill, length_blit, h1]
  rw [List.length_take, h1]
  omega

/-- One pass of the loop of `sha256_update`, and the bytes it leaves. -/
def updateStep (ctx : Sha256Ctx) (data : List Byte) : Sha256Ctx × List Byte :=
  if h : ctx.bufferLen + ctx.take data.length = 64 then
    ({ ctx with
        h := sha256Compress ctx.h (ctx.fill data), buffer := ctx.fill data, bufferLen := 0
        buffer_length := ctx.length_fill data, bufferLen_lt := by decide },
      data.drop (ctx.take data.length))
  else
    ({ ctx with
        buffer := ctx.fill data, bufferLen := ctx.bufferLen + ctx.take data.length
        buffer_length := ctx.length_fill data
        bufferLen_lt := by have := ctx.take_le data.length; omega },
      data.drop (ctx.take data.length))

theorem updateStep_snd (ctx : Sha256Ctx) (data : List Byte) :
    (updateStep ctx data).2 = data.drop (ctx.take data.length) := by
  unfold updateStep
  split <;> rfl

/-- The loop of `sha256_update`. -/
def updateLoop (ctx : Sha256Ctx) (data : List Byte) : Sha256Ctx :=
  if _h : data = [] then ctx
  else updateLoop (updateStep ctx data).1 (updateStep ctx data).2
termination_by data.length
decreasing_by
  have := ctx.take_pos (List.length_pos_iff.mpr _h)
  have := (ctx.take_le data.length).1
  rw [updateStep_snd, List.length_drop]
  omega

def sha256Update (ctx : Sha256Ctx) (data : List Byte) : Sha256Ctx :=
  updateLoop { ctx with bitCount := ctx.bitCount + BitVec.ofNat 64 data.length * 8 } data

/-- The loops `while (buffer_len < n) buffer[buffer_len++] = 0`. -/
def zeroFill (buffer : List Byte) (len n : Nat) : List Byte :=
  if len < n then zeroFill (buffer.set len 0) (len + 1) n else buffer
termination_by n - len

/-- `sha256_final`: the 32 digest bytes. -/
def sha256Final (ctx : Sha256Ctx) : List Byte :=
  let buffer := ctx.buffer.set ctx.bufferLen 0x80
  let len := ctx.bufferLen + 1
  let (h, buffer, len) :=
    if 56 < len then
      let full := zeroFill buffer len 64
      (sha256Compress ctx.h full, full, 0)
    else (ctx.h, buffer, len)
  let buffer := blit (zeroFill buffer len 56) 56 (Sha256.lengthBytes ctx.bitCount)
  (List.ofFn (sha256Compress h buffer)).flatMap storeBe32

/-! ## What a context has absorbed -/

/-- The bytes of the buffer that are in use. -/
def Sha256Ctx.pending (ctx : Sha256Ctx) : List Byte := ctx.buffer.take ctx.bufferLen

theorem Sha256Ctx.length_pending (ctx : Sha256Ctx) : ctx.pending.length = ctx.bufferLen := by
  have h1 := ctx.buffer_length
  have h2 := ctx.bufferLen_lt
  simp only [Sha256Ctx.pending, List.length_take]
  omega

/-- The chaining value is that of the whole blocks of `m`, the buffer has the rest. -/
def Absorbed (ctx : Sha256Ctx) (m : List Byte) : Prop :=
  ∃ n full, full.length = 64 * n ∧ m = full ++ ctx.pending ∧ ctx.h = absorb roundConst initialH full

theorem absorbed_init (ctx : Sha256Ctx) : Absorbed (sha256Init ctx) [] :=
  ⟨0, [], rfl, rfl, (Sha256.absorb_nil _).symm⟩

theorem Sha256Ctx.take_fill (ctx : Sha256Ctx) (data : List Byte) :
    (ctx.fill data).take (ctx.bufferLen + ctx.take data.length) =
      ctx.pending ++ data.take (ctx.take data.length) := by
  have h1 := ctx.buffer_length
  have h2 := ctx.bufferLen_lt
  have h3 : (data.take (ctx.take data.length)).length = ctx.take data.length := by
    rw [List.length_take, Nat.min_eq_left (ctx.take_le _).1]
  have h4 := take_blit (data.take (ctx.take data.length)) (show ctx.bufferLen ≤ ctx.buffer.length by omega)
  rwa [h3] at h4

theorem absorbed_updateStep {ctx : Sha256Ctx} {m : List Byte} (h : Absorbed ctx m) (data : List Byte) :
    Absorbed (updateStep ctx data).1 (m ++ data.take (ctx.take data.length)) := by
  obtain ⟨n, full, hn, rfl, hh⟩ := h
  have hf := ctx.take_fill data
  unfold updateStep
  split
  case isTrue h64 =>
    have hl := ctx.length_fill data
    rw [h64, List.take_of_length_le (by omega)] at hf
    refine ⟨n + 1, full ++ ctx.fill data, by simp [hn, hl]; omega, ?_, ?_⟩
    · simp [Sha256Ctx.pending, hf]
    · rw [Sha256.absorb_append _ hn, Sha256.absorb_block hl, ← hh]
      exact sha256Compress_eq _ _
  case isFalse h64 =>
    refine ⟨n, full, hn, ?_, hh⟩
    rw [List.append_assoc]
    exact congrArg (full ++ ·) hf.symm

theorem absorbed_updateLoop {ctx : Sha256Ctx} {m data : List Byte} (h : Absorbed ctx m) :
    Absorbed (updateLoop ctx data) (m ++ data) := by
  induction ctx, data using updateLoop.induct generalizing m with
  | case1 ctx => rwa [updateLoop, dif_pos rfl, List.append_nil]
  | case2 ctx data hd ih =>
    rw [updateLoop, dif_neg hd]
    have h' := ih (absorbed_updateStep h data)
    rwa [updateStep_snd, List.append_assoc, List.take_append_drop, ← updateStep_snd] at h'

theorem updateStep_bitCount (ctx : Sha256Ctx) (data : List Byte) : (updateStep ctx data).1.bitCount = ctx.bitCount := by
  unfold updateStep
  split <;> rfl

theorem updateLoop_bitCount (ctx : Sha256Ctx) (data : List Byte) : (updateLoop ctx data).bitCount = ctx.bitCount := by
  induction ctx, data using updateLoop.induct with
  | case1 ctx => rw [updateLoop, dif_pos rfl]
  | case2 ctx data hd ih => rw [updateLoop, dif_neg hd, ih, updateStep_bitCount]

/-- An update appends to what was absorbed. -/
theorem absorbed_update {ctx : Sha256Ctx} {m : List Byte} (h : Absorbed ctx m) (data : List Byte) :
    Absorbed (sha256Update ctx data) (m ++ data) :=
  absorbed_updateLoop h

theorem sha256Update_bitCount {c : Sha256Ctx} {n : Nat} (h : c.bitCount = BitVec.ofNat 64 (8 * n))
    (data : List Byte) : (sha256Update c data).bitCount = BitVec.ofNat 64 (8 * (n + data.length)) := by
  rw [sha256Update, updateLoop_bitCount, h]
  apply BitVec.eq_of_toNat_eq
  simp
  omega

/-! ## `sha256_final` -/

theorem length_zeroFill (b : List Byte) (len n : Nat) : (zeroFill b len n).length = b.length := by
  induction b, len using zeroFill.induct n with
  | case1 b len h ih => rw [zeroFill, if_pos h, ih, List.length_set]
  | case2 b len h => rw [zeroFill, if_neg h]

theorem take_zeroFill {b : List Byte} {l n : Nat} (hl : l ≤ n) (hn : n ≤ b.length) :
    (zeroFill b l n).take n = b.take l ++ List.replicate (n - l) 0 := by
  induction b, l using zeroFill.induct n with
  | case1 b l h ih =>
    rw [zeroFill, if_pos h, ih (by omega) (by simpa using hn), List.take_succ_eq_append_getElem (by simp; omega),
      show n - l = (n - (l + 1)) + 1 by omega, List.replicate_succ, List.take_set_of_le le_rfl]
    simp
  | case2 b l h =>
    rw [zeroFill, if_neg h, show n = l by omega]
    simp

/-- The buffer after the delimiter is stored. -/
theorem take_set_delimiter (ctx : Sha256Ctx) :
    (ctx.buffer.set ctx.bufferLen 0x80).take (ctx.bufferLen + 1) = ctx.pending ++ [0x80] := by
  have h1 := ctx.buffer_length
  have h2 := ctx.bufferLen_lt
  rw [List.take_succ_eq_append_getElem (by simp; omega), List.take_set_of_le le_rfl]
  simp [Sha256Ctx.pending]

/-- The final block buffer, once its first 56 bytes are known. -/
theorem blit_length {b l p : List Byte} (hb : b.length = 64) (hl : l.length = 8) (hp : b.take 56 = p) :
    blit b 56 l = p ++ l := by
  rw [blit, hp, hl, List.drop_eq_nil_of_le (by omega), List.append_nil]

/-- `sha256_final` after a message is absorbed gives the hash of the message. -/
theorem sha256Final_eq {ctx : Sha256Ctx} {m : List Byte} (h : Absorbed ctx m)
    (hc : ctx.bitCount = BitVec.ofNat 64 (8 * m.length)) :
    sha256Final ctx = wordsBytes (Sha256.hash roundConst initialH m) := by
  obtain ⟨n, full, hn, rfl, hh⟩ := h
  have h1 := ctx.buffer_length
  have h2 := ctx.bufferLen_lt
  have hp := ctx.length_pending
  have hd := take_set_delimiter ctx
  have hmod : (full ++ ctx.pending).length % 64 = ctx.bufferLen := by simp [hn, hp]; omega
  have hsl : (ctx.buffer.set ctx.bufferLen 0x80).length = 64 := by simpa using h1
  have hpad : Sha256.hash roundConst initialH (full ++ ctx.pending) =
      absorb roundConst ctx.h (ctx.pending ++ 0x80 :: (List.replicate ((119 - ctx.bufferLen) % 64) 0 ++
        Sha256.lengthBytes ctx.bitCount)) := by
    rw [Sha256.hash, Sha256.pad, Sha256.zeroBytes, hmod, List.append_assoc, Sha256.absorb_append _ hn, ← hh, ← hc]
  rw [hpad]
  unfold sha256Final wordsBytes
  by_cases h56 : 56 < ctx.bufferLen + 1
  · -- the padding spills into a second block
    have hz : zeroFill (ctx.buffer.set ctx.bufferLen 0x80) (ctx.bufferLen + 1) 64 =
        ctx.pending ++ 0x80 :: List.replicate (63 - ctx.bufferLen) 0 := by
      have hz := take_zeroFill (b := ctx.buffer.set ctx.bufferLen 0x80) (l := ctx.bufferLen + 1) (n := 64)
        (by omega) (by omega)
      rw [List.take_of_length_le (by rw [length_zeroFill]; omega), hd] at hz
      simpa using hz
    have hlen : (ctx.pending ++ 0x80 :: List.replicate (63 - ctx.bufferLen) (0 : Byte)).length = 64 := by
      simp [hp]; omega
    have hb := blit_length (b := zeroFill (ctx.pending ++ 0x80 :: List.replicate (63 - ctx.bufferLen) 0) 0 56)
      (l := Sha256.lengthBytes ctx.bitCount) (by rw [length_zeroFill, hlen]) (by simp)
      (take_zeroFill (by omega) (by omega))
    have hsplit : ctx.pending ++ 0x80 :: (List.replicate ((119 - ctx.bufferLen) % 64) 0 ++
        Sha256.lengthBytes ctx.bitCount) = (ctx.pending ++ 0x80 :: List.replicate (63 - ctx.bufferLen) 0) ++
          (List.replicate 56 0 ++ Sha256.lengthBytes ctx.bitCount) := by
      rw [show (119 - ctx.bufferLen) % 64 = (63 - ctx.bufferLen) + 56 by omega, List.replicate_add]
      simp only [List.append_assoc, List.cons_append]
    simp only [h56, ↓reduceIte, hz, hb, sha256Compress_eq]
    rw [hsplit, Sha256.absorb_cons_block _ hlen, Sha256.absorb_block (by simp)]
    rfl
  · have ht := take_zeroFill (b := ctx.buffer.set ctx.bufferLen 0x80) (l := ctx.bufferLen + 1) (n := 56)
      (by omega) (by omega)
    rw [hd] at ht
    have hb := blit_length (l := Sha256.lengthBytes ctx.bitCount) (by rw [length_zeroFill, hsl]) (by simp) ht
    have hz : (119 - ctx.bufferLen) % 64 = 56 - (ctx.bufferLen + 1) := by omega
    simp only [h56, ↓reduceIte, hb, sha256Compress_eq]
    rw [hz, Sha256.absorb_block (by simp [hp]; omega)]
    simp
    rfl

/-! ## Whole messages -/

/-- `sha256_init`, one `sha256_update` and `sha256_final` on the context `ctx`. -/
def sha256 (ctx : Sha256Ctx) (data : List Byte) : List Byte := sha256Final (sha256Update (sha256Init ctx) data)

theorem sha256_eq (ctx : Sha256Ctx) (data : List Byte) :
    sha256 ctx data = wordsBytes (Sha256.hash roundConst initialH data) := by
  have h := absorbed_update (absorbed_init ctx) data
  have hc := sha256Update_bitCount (c := sha256Init ctx) (n := 0) rfl data
  rw [List.nil_append] at h
  rw [Nat.zero_add] at hc
  exact sha256Final_eq h hc

/-- A context in memory that was never written. -/
def uninitCtx : Sha256Ctx := ⟨0, 0, List.replicate 64 0, 0, rfl, by decide⟩

def doubleSha256 (data : List Byte) : List Byte := sha256 (sha256Init uninitCtx) (sha256 uninitCtx data)

/-- The hash of the hash, as 32 bytes. -/
theorem doubleSha256_eq (data : List Byte) : doubleSha256 data =
    wordsBytes (Sha256.hash roundConst initialH (wordsBytes (Sha256.hash roundConst initialH data))) := by
  rw [doubleSha256, sha256_eq, sha256_eq]

def bitcoinHeaderMidstate (header : List Byte) : Words 8 := (sha256Update (sha256Init uninitCtx) (header.take 64)).h

def bitcoinHeaderTailWords (header : List Byte) : Words 4 := fun i => loadBe32 (header.drop (64 + i * 4))

/-- The midstate is one compression of the first 64 header bytes. -/
theorem bitcoinHeaderMidstate_eq {header : List Byte} (h : 64 ≤ header.length) :
    bitcoinHeaderMidstate header = Sha256.compress roundConst initialH (blockWords header) := by
  have hl : (header.take 64).length = 64 := by simp [h]
  obtain ⟨n, full, hn, hm, hh⟩ := absorbed_update (absorbed_init uninitCtx) (header.take 64)
  have hp := (sha256Update (sha256Init uninitCtx) (header.take 64)).length_pending
  have hlt := (sha256Update (sha256Init uninitCtx) (header.take 64)).bufferLen_lt
  have hlen := congrArg List.length hm
  rw [List.nil_append, List.length_append, hl, hn, hp] at hlen
  rw [List.nil_append, List.eq_nil_of_length_eq_zero (hp.trans (by omega)), List.append_nil] at hm
  subst hm
  rw [bitcoinHeaderMidstate, hh, Sha256.absorb_block hl]
  conv_rhs => rw [← List.take_append_drop 64 header, Sha256.blockWords_append _ (by omega)]

end Vek280Miner.Sw
