import Vek280Miner.Lib.StoreLog
import Vek280Miner.Software.JobHeader

/-!
# The coinbase buffer (`build_job`)

The four parts of the coinbase transaction are decoded into a buffer of 512 bytes, each behind the one before it, in the
room that is left. Here with every store that `hex_to_bytes` makes, also before it fails, and with the computation of
the room in 32 bits (`coinbase_assembly`). `coinbaseBytes` is what the buffer holds in the end (`hashed_eq`).
-/

namespace Vek280Miner.Sw

/-! ## `hex_to_bytes` with its stores -/

/-- The loop of `hex_to_bytes` from index `off` of the buffer on, and whether it gets to the end of the text. -/
def hexStoreLoop : Nat → List Char → List (Byte × Nat) × Bool
  | off, a :: b :: rest =>
    match hexValue a, hexValue b with
    | some hi, some lo =>
      let run := hexStoreLoop (off + 1) rest
      ((BitVec.ofNat 8 (hi <<< 4 ||| lo), off) :: run.1, run.2)
    | _, _ => ([], false)
  | _, _ => ([], true)

/-- `hex_to_bytes` with its stores and the length that it returns. -/
def hexStore (hex : List Char) (off maxBytes : Nat) : List (Byte × Nat) × Option Nat :=
  if hex.length % 2 ≠ 0 ∨ maxBytes < hex.length / 2 then ([], none)
  else
    let run := hexStoreLoop off hex
    (run.1, if run.2 then some (hex.length / 2) else none)

/-- The stores are those of the decoded bytes, up to the character that is not a digit. -/
theorem hexStoreLoop_spec : ∀ (off : Nat) (hex : List Char),
    (∀ store ∈ (hexStoreLoop off hex).1, store.2 < off + hex.length / 2) ∧
      (hexPairs hex = if (hexStoreLoop off hex).2 then some ((hexStoreLoop off hex).1.map Prod.fst) else none) ∧
      (hexStoreLoop off hex).1 = ((hexStoreLoop off hex).1.map Prod.fst).zipIdx off
  | _, [] => ⟨by simp [hexStoreLoop], rfl, rfl⟩
  | _, [_] => ⟨by simp [hexStoreLoop], rfl, rfl⟩
  | off, a :: b :: rest => by
    obtain ⟨hlt, hpairs, hzip⟩ := hexStoreLoop_spec (off + 1) rest
    cases ha : hexValue a with
    | none => simp [hexStoreLoop, hexPairs, ha]
    | some hi =>
      cases hb : hexValue b with
      | none => simp [hexStoreLoop, hexPairs, ha, hb]
      | some lo =>
        simp only [hexStoreLoop, hexPairs, ha, hb]
        refine ⟨?_, ?_, ?_⟩
        · intro store hstore
          rcases List.mem_cons.1 hstore with rfl | hstore
          · show off < _
            simp only [List.length_cons]
            omega
          · have h := hlt store hstore
            simp only [List.length_cons]
            omega
        · rw [hpairs]
          cases (hexStoreLoop (off + 1) rest).2 <;> rfl
        · rw [List.map_cons, List.zipIdx_cons, ← hzip]

/-- `hexToBytes` is the decoder without its stores, which stay in the room. -/
theorem hexStore_spec (hex : List Char) (off maxBytes : Nat) :
    (∀ store ∈ (hexStore hex off maxBytes).1, store.2 < off + maxBytes) ∧
      ((hexStore hex off maxBytes).2 = none ∧ hexToBytes hex maxBytes = none ∨
        ∃ bytes : List Byte, hexStore hex off maxBytes = (bytes.zipIdx off, some bytes.length) ∧
          hexToBytes hex maxBytes = some bytes) := by
  obtain ⟨hlt, hpairs, hzip⟩ := hexStoreLoop_spec off hex
  rw [hexStore, hexToBytes]
  split
  · exact ⟨by simp, .inl ⟨rfl, rfl⟩⟩
  · rename_i hroom
    refine ⟨fun store hstore => ?_, ?_⟩
    · have h := hlt store hstore
      omega
    · cases hdone : (hexStoreLoop off hex).2 with
      | false => exact .inl ⟨by simp [hdone], by rw [hpairs, hdone]; rfl⟩
      | true =>
        rw [hdone] at hpairs
        refine .inr ⟨_, ?_, hpairs⟩
        rw [← hzip, length_hexPairs hpairs]
        simp [hdone]

/-! ## The buffer -/

/-- A run of the four decodes: `coinbase_len` whenever the room is computed from it, the stores at their indices in the
buffer, and the length of the coinbase transaction unless a part fails. -/
structure CoinbaseRun where
  lens : List Word
  stores : List (Byte × Nat)
  result : Option Word

/-- The decodes one after the other, each into `sizeof(coinbase) - coinbase_len` bytes. -/
def coinbaseLoop : List (List Char) → Word → CoinbaseRun
  | [], coinbaseLen => ⟨[], [], some coinbaseLen⟩
  | hex :: parts, coinbaseLen =>
    match hexStore hex coinbaseLen.toNat (512 - coinbaseLen).toNat with
    | (stores, none) => ⟨[coinbaseLen], stores, none⟩
    | (stores, some partLen) =>
      let run := coinbaseLoop parts (coinbaseLen + BitVec.ofNat 32 partLen)
      ⟨coinbaseLen :: run.lens, stores ++ run.stores, run.result⟩

/-- The parts in their order. -/
def coinbaseParts (notify : StratumNotify) (state : StratumState) : List (List Char) :=
  [notify.coinb1, state.extranonce1, jobExtranonce2 state, notify.coinb2]

def coinbaseRun (notify : StratumNotify) (state : StratumState) : CoinbaseRun := coinbaseLoop (coinbaseParts notify state) 0

/-- The bytes that are hashed, from a buffer with whatever is in its memory. -/
def CoinbaseRun.hashed (run : CoinbaseRun) (mem : Nat → Byte) : Option (List Byte) :=
  run.result.map fun coinbaseLen => cells (storeLog mem run.stores) coinbaseLen.toNat

/-! ## What the run decodes -/

/-- The bytes of the parts behind the first `len`. -/
def partsBytes : List (List Char) → Nat → Option (List Byte)
  | [], _ => some []
  | hex :: parts, len =>
    (hexToBytes hex (512 - len)).bind fun bytes => (partsBytes parts (len + bytes.length)).map (bytes ++ ·)

theorem length_le_of_hexToBytes {hex : List Char} {maxBytes : Nat} {bytes : List Byte}
    (h : hexToBytes hex maxBytes = some bytes) : bytes.length ≤ maxBytes := by
  have hle := ((hexToBytes_isSome_iff hex maxBytes).1 (by rw [h]; rfl)).2.1
  rw [length_hexToBytes h]
  exact hle

theorem coinbaseBytes_eq_parts (notify : StratumNotify) (state : StratumState) :
    jobCoinbase notify state = partsBytes (coinbaseParts notify state) 0 := by
  simp [jobCoinbase, coinbaseBytes, partsBytes, coinbaseParts, Option.map_bind, Function.comp_def]
  simp only [Option.map_eq_bind, Function.comp_def]

/-- **The run.** In a buffer whose first `coinbaseLen` bytes are filled: the room never underflows, every store is
inside the buffer, and the decoded bytes end up behind what is filled. -/
theorem coinbaseLoop_spec : ∀ (parts : List (List Char)) (coinbaseLen : Word) (mem : Nat → Byte),
    coinbaseLen.toNat ≤ 512 →
    (∀ len ∈ (coinbaseLoop parts coinbaseLen).lens, len.toNat ≤ 512) ∧
      (∀ store ∈ (coinbaseLoop parts coinbaseLen).stores, store.2 < 512) ∧
      (coinbaseLoop parts coinbaseLen).hashed mem =
        (partsBytes parts coinbaseLen.toNat).map (cells mem coinbaseLen.toNat ++ ·)
  | [], coinbaseLen, mem, _ => ⟨by simp [coinbaseLoop], by simp [coinbaseLoop], by
      simp [coinbaseLoop, partsBytes, CoinbaseRun.hashed]⟩
  | hex :: parts, coinbaseLen, mem, hlen => by
    have hroom : (512 - coinbaseLen).toNat = 512 - coinbaseLen.toNat := by
      rw [BitVec.toNat_sub_of_le (BitVec.le_def.2 hlen)]
      rfl
    obtain ⟨hstores, hnone | ⟨bytes, hrun, hbytes⟩⟩ :=
      hexStore_spec hex coinbaseLen.toNat (512 - coinbaseLen).toNat
    · obtain ⟨hresult, hbytes⟩ := hnone
      have heq : coinbaseLoop (hex :: parts) coinbaseLen =
          ⟨[coinbaseLen], (hexStore hex coinbaseLen.toNat (512 - coinbaseLen).toNat).1, none⟩ := by
        rw [coinbaseLoop]
        split
        · rename_i hrun
          rw [hrun]
        · rename_i hrun
          rw [hrun] at hresult
          cases hresult
      rw [heq, partsBytes, ← hroom, hbytes]
      refine ⟨by simpa using hlen, fun store hstore => ?_, rfl⟩
      have h := hstores store hstore
      omega
    · have hle := length_le_of_hexToBytes hbytes
      have hnext : (coinbaseLen + BitVec.ofNat 32 bytes.length).toNat = coinbaseLen.toNat + bytes.length := by
        rw [BitVec.toNat_add, BitVec.toNat_ofNat]
        omega
      obtain ⟨hlens', hstores', hhashed'⟩ := coinbaseLoop_spec parts (coinbaseLen + BitVec.ofNat 32 bytes.length)
        (storeLog mem (bytes.zipIdx coinbaseLen.toNat)) (by omega)
      rw [hrun] at hstores
      rw [coinbaseLoop, hrun, partsBytes, ← hroom, hbytes]
      refine ⟨?_, ?_, ?_⟩
      · intro len hmem
        rcases List.mem_cons.1 hmem with rfl | hmem
        · exact hlen
        · exact hlens' len hmem
      · intro store hmem
        rcases List.mem_append.1 hmem with hmem | hmem
        · have h := hstores store hmem
          omega
        · exact hstores' store hmem
      · rw [CoinbaseRun.hashed] at hhashed' ⊢
        rw [storeLog_append, hhashed', hnext, cells_store, Option.bind_some, Option.map_map]
        simp [Function.comp_def]

/-! ## When a part fails -/

/-- Pairs of hex digits. -/
def HexText (s : List Char) : Prop := s.length % 2 = 0 ∧ ∀ ch ∈ s, (hexValue ch).isSome

/-- The number of bytes that a text of hex digits stands for. -/
def hexLength (s : List Char) : Nat := s.length / 2

theorem hexToBytes_eq_none_iff {s : List Char} {m : Nat} : hexToBytes s m = none ↔ ¬ HexText s ∨ m < hexLength s := by
  rw [← Option.not_isSome_iff_eq_none, hexToBytes_isSome_iff, HexText, hexLength]
  constructor
  · intro h
    by_cases hhex : s.length % 2 = 0 ∧ ∀ ch ∈ s, (hexValue ch).isSome
    · exact .inr (Nat.lt_of_not_le fun hle => h ⟨hhex.1, hle, hhex.2⟩)
    · exact .inl hhex
  · rintro (h | h) ⟨heven, hle, hdigits⟩
    · exact h ⟨heven, hdigits⟩
    · exact absurd hle (Nat.not_le.2 h)

/-- The parts fail exactly when one of them is not hex or all of them are too long together. -/
theorem partsBytes_eq_none_iff {parts : List (List Char)} {len : Nat} (hlen : len ≤ 512) :
    partsBytes parts len = none ↔ (∃ hex ∈ parts, ¬ HexText hex) ∨ 512 < len + (parts.map hexLength).sum := by
  induction parts generalizing len with
  | nil => simp [partsBytes, hlen]
  | cons hex parts ih =>
    rw [partsBytes, List.exists_mem_cons_iff, List.map_cons, List.sum_cons]
    cases hbytes : hexToBytes hex (512 - len) with
    | none =>
      rw [Option.bind_none]
      refine iff_of_true rfl ?_
      rcases hexToBytes_eq_none_iff.1 hbytes with h | h
      · exact .inl (.inl h)
      · exact .inr (by omega)
    | some bytes =>
      have hhex : HexText hex := by
        by_contra h
        rw [hexToBytes_eq_none_iff.2 (.inl h)] at hbytes
        cases hbytes
      have hle := length_le_of_hexToBytes hbytes
      rw [Option.bind_some, Option.map_eq_none_iff, ih (by omega), length_hexToBytes hbytes]
      simp only [hhex, not_true_eq_false, false_or, hexLength, Nat.add_assoc]

theorem hexToBytes_mono {hex : List Char} {m m' : Nat} {bytes : List Byte} (h : hexToBytes hex m = some bytes)
    (hm : m ≤ m') : hexToBytes hex m' = some bytes := by
  unfold hexToBytes at h ⊢
  split at h
  · cases h
  · rw [if_neg (by omega)]
    exact h

/-- Parts that do not fail are decoded side by side. -/
theorem partsBytes_some {parts : List (List Char)} {len : Nat} {bytes : List Byte} (h : partsBytes parts len = some bytes) :
    ∃ decoded : List (List Byte), parts.map (hexToBytes · 512) = decoded.map some ∧ bytes = decoded.flatten := by
  induction parts generalizing len bytes with
  | nil =>
    obtain rfl := Option.some.inj h
    exact ⟨[], rfl, rfl⟩
  | cons hex parts ih =>
    rw [partsBytes, Option.bind_eq_some_iff] at h
    obtain ⟨first, hfirst, h⟩ := h
    obtain ⟨rest, hrest, rfl⟩ := Option.map_eq_some_iff.1 h
    obtain ⟨decoded, hdecoded, rfl⟩ := ih hrest
    refine ⟨first :: decoded, ?_, rfl⟩
    rw [List.map_cons, List.map_cons, hexToBytes_mono hfirst (by omega), hdecoded]

/-! ## The coinbase of a job -/

variable {notify : StratumNotify} {state : StratumState}

theorem length_extranonce2Bytes (size : Nat) (value : Word) : (extranonce2Bytes size value).length = size := by
  simp [extranonce2Bytes]

theorem length_jobExtranonce2 (state : StratumState) : (jobExtranonce2 state).length = 2 * state.extranonce2Size := by
  rw [jobExtranonce2, length_bytesToHex, length_extranonce2Bytes]

/-- The coinbase transaction fails exactly when a text is malformed or the total exceeds the buffer. -/
theorem jobCoinbase_eq_none_iff : jobCoinbase notify state = none ↔
    ¬ HexText notify.coinb1 ∨ ¬ HexText state.extranonce1 ∨ ¬ HexText notify.coinb2 ∨
      512 < hexLength notify.coinb1 + hexLength state.extranonce1 + state.extranonce2Size + hexLength notify.coinb2 := by
  have hlen := length_jobExtranonce2 state
  have he2 : HexText (jobExtranonce2 state) := ⟨by omega, fun ch hch => hex_bytesToHex hch⟩
  have hsize : hexLength (jobExtranonce2 state) = state.extranonce2Size := by
    rw [hexLength, hlen]
    omega
  rw [coinbaseBytes_eq_parts, partsBytes_eq_none_iff (by omega)]
  simp only [coinbaseParts, List.exists_mem_cons_iff, List.not_mem_nil, false_and, exists_false, or_false, he2,
    not_true_eq_false, false_or, List.map_cons, List.map_nil, List.sum_cons, List.sum_nil, hsize]
  simp only [or_assoc, Nat.add_zero, Nat.zero_add, Nat.add_assoc]

/-- The bytes that are hashed are those of the decoders without their stores. -/
theorem hashed_eq (notify : StratumNotify) (state : StratumState) (mem : Nat → Byte) :
    (coinbaseRun notify state).hashed mem = jobCoinbase notify state := by
  rw [coinbaseRun, (coinbaseLoop_spec (coinbaseParts notify state) 0 mem (by decide)).2.2, coinbaseBytes_eq_parts]
  exact Option.map_id'

/-- `build_job` for a session that is ready. -/
theorem buildJob_ready (htarget : state.haveTarget = true) (hsub : state.subscribed = true)
    (hauth : state.authorized = true) : (buildJob notify state).1 =
      ((jobCoinbase notify state).bind (headerBytes notify)).map
        (jobOfHeader notify state.target (jobExtranonce2 state)) := by
  rw [buildJob, if_neg (by simp [htarget, hsub, hauth]), makeExtranonce2_eq]
  rfl

/-- What `build_job` does in the buffer. -/
structure CoinbaseAssembled (notify : StratumNotify) (state : StratumState) (mem : Nat → Byte) : Prop where
  /-- The header is built from the bytes that are hashed, and without them there is no job. -/
  job : (buildJob notify state).1 = (((coinbaseRun notify state).hashed mem).bind (headerBytes notify)).map
    (jobOfHeader notify state.target (jobExtranonce2 state))
  /-- The bytes that are hashed are the four parts. -/
  bytes : ∀ {bytes}, (coinbaseRun notify state).hashed mem = some bytes → ∃ coinb1 extranonce1 coinb2,
    hexToBytes notify.coinb1 512 = some coinb1 ∧ hexToBytes state.extranonce1 512 = some extranonce1 ∧
      hexToBytes notify.coinb2 512 = some coinb2 ∧
      bytes = coinb1 ++ extranonce1 ++ extranonce2Bytes state.extranonce2Size state.extranonce2Counter ++ coinb2
  /-- Nothing is hashed exactly when a text is malformed or the total exceeds the buffer. -/
  fails_iff : (coinbaseRun notify state).hashed mem = none ↔
    ¬ HexText notify.coinb1 ∨ ¬ HexText state.extranonce1 ∨ ¬ HexText notify.coinb2 ∨
      512 < hexLength notify.coinb1 + hexLength state.extranonce1 + state.extranonce2Size + hexLength notify.coinb2
  /-- The room is never negative. -/
  no_underflow : ∀ len ∈ (coinbaseRun notify state).lens, len.toNat ≤ 512
  /-- No store is outside the buffer, also when a part fails. -/
  in_bounds : ∀ store ∈ (coinbaseRun notify state).stores, store.2 < 512

/-- **Coinbase assembly.** For every notify and every session that is ready. -/
theorem coinbase_assembly (notify : StratumNotify) (state : StratumState) (mem : Nat → Byte)
    (htarget : state.haveTarget = true) (hsub : state.subscribed = true) (hauth : state.authorized = true) :
    CoinbaseAssembled notify state mem := by
  obtain ⟨hlens, hstores, -⟩ := coinbaseLoop_spec (coinbaseParts notify state) 0 mem (by decide)
  refine ⟨?_, fun {bytes} h => ?_, ?_, hlens, hstores⟩
  · rw [hashed_eq]
    exact buildJob_ready htarget hsub hauth
  · rw [hashed_eq, coinbaseBytes_eq_parts] at h
    obtain ⟨decoded, hdecoded, rfl⟩ := partsBytes_some h
    have hsize := state.extranonce2Size_le
    have he2 : hexToBytes (jobExtranonce2 state) 512 =
        some (extranonce2Bytes state.extranonce2Size state.extranonce2Counter) :=
      hexToBytes_bytesToHex (by rw [length_extranonce2Bytes]; omega)
    rcases decoded with _ | ⟨c1, _ | ⟨e1, _ | ⟨e2, _ | ⟨c2, _ | ⟨x, decoded⟩⟩⟩⟩⟩
    all_goals try simp [coinbaseParts] at hdecoded
    simp only [he2] at hdecoded
    obtain ⟨h1, h2, h3, h4⟩ := hdecoded
    exact ⟨c1, e1, c2, h1, h2, h4, by simp [Option.some.inj h3]⟩
  · rw [hashed_eq]
    exact jobCoinbase_eq_none_iff

/-- The session of the mock pool. -/
theorem coinbase_assembly_mock : CoinbaseAssembled (mockNotify zeroPrevhash) mockState fun _ => 0 :=
  coinbase_assembly (mockNotify zeroPrevhash) mockState (fun _ => 0) rfl rfl rfl

end Vek280Miner.Sw
