import Vek280Miner.Software.Sha256

/-!
# Streaming SHA-256 (`sha256_sw.c`)

`sha256_update` may be called any number of times, with any chunks. The context has then absorbed their concatenation,
and `sha256_final` gives its SHA-256 digest (`sha256Final_chunks`). The elements of the buffer that the functions touch
are listed beside them (`updateAccesses`, `finalAccesses`): an index is written from `bufferLen` on, and a full buffer
is read.
-/

namespace Vek280Miner.Sw

/-! ## The constants of the standard -/

theorem roundConst_eq : roundConst = Sha256.constants := by
  have hk : kSha256 = Sha256.primes.map (Sha256.rootBits 3) := by decide +kernel
  funext t
  have hzero : (0 : Word) = Sha256.rootBits 3 0 := rfl
  rw [roundConst, hk, hzero, List.getD_eq_getElem?_getD, List.getElem?_map, Option.getD_map, ← List.getD_eq_getElem?_getD]
  rfl

theorem initialH_eq : initialH = Sha256.initial := by
  have hall : ∀ i, initialH i = Sha256.initial i := by decide +kernel
  exact funext hall

/-! ## The elements of the buffer -/

/-- The 64 bytes that `sha256_compress` reads. -/
def compressAccesses : List Nat := (List.range 16).flatMap fun i => [i * 4, i * 4 + 1, i * 4 + 2, i * 4 + 3]

/-- One pass of the loop of `sha256_update`: the `memcpy`, and the compression of a full buffer. -/
def stepAccesses (ctx : Sha256Ctx) (data : List Byte) : List Nat :=
  List.range' ctx.bufferLen (ctx.take data.length) ++
    if ctx.bufferLen + ctx.take data.length = 64 then compressAccesses else []

/-- The loop of `sha256_update`. -/
def updateLoopAccesses (ctx : Sha256Ctx) (data : List Byte) : List Nat :=
  if _h : data = [] then []
  else stepAccesses ctx data ++ updateLoopAccesses (updateStep ctx data).1 (updateStep ctx data).2
termination_by data.length
decreasing_by
  have := ctx.take_pos (List.length_pos_iff.mpr _h)
  have := (ctx.take_le data.length).1
  rw [updateStep_snd, List.length_drop]
  omega

def updateAccesses (ctx : Sha256Ctx) (data : List Byte) : List Nat :=
  updateLoopAccesses { ctx with bitCount := ctx.bitCount + BitVec.ofNat 64 data.length * 8 } data

/-- The loops `while (buffer_len < n) buffer[buffer_len++] = 0`. -/
def zeroFillAccesses (len n : Nat) : List Nat :=
  if len < n then len :: zeroFillAccesses (len + 1) n else []
termination_by n - len

def finalAccesses (ctx : Sha256Ctx) : List Nat :=
  let len := ctx.bufferLen + 1
  [ctx.bufferLen] ++
    (if 56 < len then zeroFillAccesses len 64 ++ compressAccesses ++ zeroFillAccesses 0 56 else zeroFillAccesses len 56) ++
    (List.range 8).map (56 + ·) ++ compressAccesses

theorem compressAccesses_lt : ∀ i ∈ compressAccesses, i < 64 := by decide

theorem zeroFillAccesses_lt {len n : Nat} : ∀ i ∈ zeroFillAccesses len n, i < n := by
  fun_induction zeroFillAccesses len n with
  | case1 len h ih =>
    intro i hi
    obtain rfl | hi := List.mem_cons.1 hi
    · exact h
    · exact ih i hi
  | case2 len h =>
    intro i hi
    cases hi

theorem stepAccesses_lt (ctx : Sha256Ctx) (data : List Byte) : ∀ i ∈ stepAccesses ctx data, i < 64 := by
  have hle := (ctx.take_le data.length).2
  intro i hi
  obtain hi | hi := List.mem_append.1 hi
  · obtain ⟨-, hi⟩ := List.mem_range'_1.1 hi
    omega
  · split at hi
    · exact compressAccesses_lt i hi
    · cases hi

theorem updateLoopAccesses_lt (ctx : Sha256Ctx) (data : List Byte) : ∀ i ∈ updateLoopAccesses ctx data, i < 64 := by
  fun_induction updateLoopAccesses ctx data with
  | case1 ctx =>
    intro i hi
    cases hi
  | case2 ctx data h ih =>
    intro i hi
    obtain hi | hi := List.mem_append.1 hi
    · exact stepAccesses_lt ctx data i hi
    · exact ih i hi

theorem finalAccesses_lt (ctx : Sha256Ctx) : ∀ i ∈ finalAccesses ctx, i < 64 := by
  have hlt := ctx.bufferLen_lt
  intro i hi
  simp only [finalAccesses, List.mem_append, List.mem_singleton, List.mem_map, List.mem_range] at hi
  obtain ((rfl | hi) | ⟨j, hj, rfl⟩) | hi := hi
  · exact hlt
  · split at hi
    · simp only [List.mem_append] at hi
      obtain (hi | hi) | hi := hi
      · exact zeroFillAccesses_lt i hi
      · exact compressAccesses_lt i hi
      · exact Nat.lt_of_lt_of_le (zeroFillAccesses_lt i hi) (by omega)
    · exact Nat.lt_of_lt_of_le (zeroFillAccesses_lt i hi) (by omega)
  · omega
  · exact compressAccesses_lt i hi

/-! ## Chunks -/

/-- A context after `sha256_init` and a `sha256_update` for each chunk. -/
def afterChunks (ctx : Sha256Ctx) (chunks : List (List Byte)) : Sha256Ctx := chunks.foldl sha256Update (sha256Init ctx)

theorem afterChunks_snoc (ctx : Sha256Ctx) (chunks : List (List Byte)) (chunk : List Byte) :
    afterChunks ctx (chunks ++ [chunk]) = sha256Update (afterChunks ctx chunks) chunk := by
  rw [afterChunks, List.foldl_append]
  rfl

/-- The chunks are absorbed as one message, and counted. -/
theorem absorbed_chunks (ctx : Sha256Ctx) (chunks : List (List Byte)) :
    Absorbed (afterChunks ctx chunks) chunks.flatten ∧
      (afterChunks ctx chunks).bitCount = BitVec.ofNat 64 (8 * chunks.flatten.length) := by
  induction chunks using List.reverseRecOn with
  | nil => exact ⟨absorbed_init ctx, rfl⟩
  | append_singleton chunks chunk ih =>
    rw [afterChunks_snoc, List.flatten_append, List.flatten_singleton, List.length_append]
    exact ⟨absorbed_update ih.1 chunk, sha256Update_bitCount ih.2 chunk⟩

/-- What is pending is the rest of the message behind its whole blocks. -/
theorem Absorbed.bufferLen {ctx : Sha256Ctx} {m : List Byte} (h : Absorbed ctx m) : ctx.bufferLen = m.length % 64 := by
  obtain ⟨n, full, hn, rfl, -⟩ := h
  have hp := ctx.length_pending
  have hlt := ctx.bufferLen_lt
  rw [List.length_append, hn, hp]
  omega

theorem sha256Final_chunks (ctx : Sha256Ctx) (chunks : List (List Byte)) :
    sha256Final (afterChunks ctx chunks) = Sha256.digest chunks.flatten := by
  obtain ⟨habsorbed, hcount⟩ := absorbed_chunks ctx chunks
  rw [sha256Final_eq habsorbed hcount, Sha256.digest, roundConst_eq, initialH_eq]

/-- **Streaming SHA-256.** However a message is cut into chunks, it is hashed to its SHA-256 digest. Before and after
every call fewer than 64 bytes are in the buffer, as many as the message so far has behind its whole blocks, and no call
touches an element of the buffer past its end. -/
theorem streaming_sha256 (ctx : Sha256Ctx) (m : List Byte) (chunks : List (List Byte)) (hm : chunks.flatten = m) :
    sha256Final (afterChunks ctx chunks) = Sha256.digest m ∧
      (∀ before after, chunks = before ++ after →
        (afterChunks ctx before).bufferLen = before.flatten.length % 64 ∧ (afterChunks ctx before).bufferLen < 64) ∧
      (∀ before chunk after, chunks = before ++ chunk :: after →
        ∀ i ∈ updateAccesses (afterChunks ctx before) chunk, i < 64) ∧
      ∀ i ∈ finalAccesses (afterChunks ctx chunks), i < 64 := by
  refine ⟨?_, fun before after _ => ?_, fun before chunk after _ => ?_, finalAccesses_lt _⟩
  · rw [← hm]
    exact sha256Final_chunks ctx chunks
  · exact ⟨(absorbed_chunks ctx before).1.bufferLen, (afterChunks ctx before).bufferLen_lt⟩
  · exact updateLoopAccesses_lt _ chunk

/-- The message `abc` in two chunks, with an empty one between them. -/
theorem streaming_abc : sha256Final (afterChunks uninitCtx [[0x61], [], [0x62, 0x63]]) =
    Sha256.digest [0x61, 0x62, 0x63] :=
  (streaming_sha256 uninitCtx [0x61, 0x62, 0x63] [[0x61], [], [0x62, 0x63]] rfl).1

end Vek280Miner.Sw
