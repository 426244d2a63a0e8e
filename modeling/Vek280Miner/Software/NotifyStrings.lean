import Vek280Miner.Software.JsonLine

/-!
# The strings of a notify (`parse_notify`)

A notify is a JSON object, and its strings are elements of the member `params` (`Sends`). `parse_notify` does not read the
object. It takes the elements behind the first text `"params"` (`notifyStrings`), cuts each one at the size of its buffer
(`parseNotify_cut`), and stores an escape as the letter behind the backslash. `storedInFull_iff` says which notifies
are stored as they have been sent.
-/

namespace Vek280Miner.Sw

/-! ## The elements behind the first `"params"` -/

/-- The loop of `read_json_string` without a buffer. -/
def rawLoop : List Char → Option (RawString × List Char)
  | [] => none
  | ch :: s =>
    if h0 : ch = '\x00' then none
    else if hb : ch = '\\' then
      match s with
      | [] => none
      | ch' :: s' => if h : ch' = '\x00' then none else (rawLoop s').map fun r => (.escaped ch' h :: r.1, r.2)
    else if hq : ch = '"' then some ([], s)
    else (rawLoop s).map fun r => (.plain ch ⟨h0, hb, hq⟩ :: r.1, r.2)

/-- `read_json_string` without a buffer. -/
def readRaw (cursor : List Char) : Option (RawString × List Char) :=
  if deref (skipWs cursor) = '"' then rawLoop (skipWs cursor).tail else none

/-- `params_string` without a buffer. -/
def paramsRaw (cursor : List Char) : Option (RawString × List Char) :=
  (readRaw (skipWs cursor)).map fun (raw, s) => (raw, skipComma s)

/-- The loop of `params_merkle_array` without buffers. -/
def merkleRawLoop : (slots : Nat) → List Char → Option (List RawString × List Char)
  | 0, s => if deref (skipWs s) = ']' then some ([], (skipWs s).tail) else none
  | slots + 1, s =>
    if deref (skipWs s) = ']' then some ([], (skipWs s).tail)
    else
      match readRaw (skipWs s) with
      | none => none
      | some (branch, s) =>
        let s := skipWs s
        if deref s = ',' then (merkleRawLoop slots s.tail).map fun (rest, s) => (branch :: rest, s)
        else if deref s ≠ ']' then none
        else (merkleRawLoop slots s).map fun (rest, s) => (branch :: rest, s)

def merkleRaw (cursor : List Char) : Option (List RawString × List Char) :=
  let s := skipWs cursor
  if deref s ≠ '[' then none else (merkleRawLoop 16 s.tail).map fun (merkle, s) => (merkle, skipComma s)

/-- The elements that are read. -/
structure NotifyStrings where
  jobId : RawString
  prevhash : RawString
  coinb1 : RawString
  coinb2 : RawString
  merkle : List RawString
  version : RawString
  nbits : RawString
  ntime : RawString
  cleanJobs : Bool

def notifyStrings (line : List Char) : Option NotifyStrings := do
  let p ← findParamsArray line
  let (jobId, p) ← paramsRaw p
  let (prevhash, p) ← paramsRaw p
  let (coinb1, p) ← paramsRaw p
  let (coinb2, p) ← paramsRaw p
  let (merkle, p) ← merkleRaw p
  let (version, p) ← paramsRaw p
  let (nbits, p) ← paramsRaw p
  let (ntime, p) ← paramsRaw p
  let (cleanJobs, _) ← paramsBool p
  return ⟨jobId, prevhash, coinb1, coinb2, merkle, version, nbits, ntime, cleanJobs⟩

/-! ## The buffers -/

theorem readJsonLoop_eq {n : Nat} (dst : CStr n) (s : List Char) :
    readJsonLoop dst s = (rawLoop s).map fun r => (r.1.stored.foldl CStr.push dst, r.2) := by
  fun_induction rawLoop s generalizing dst with
  | case1 => rw [readJsonLoop.eq_def]; rfl
  | case2 s => rw [readJsonLoop.eq_def]; simp
  | case3 => rw [readJsonLoop.eq_def]; simp
  | case4 s' => rw [readJsonLoop.eq_def]; simp
  | case5 ch' s' _ _ ih => rw [readJsonLoop_escaped ‹_›, ih, Option.map_map]; rfl
  | case6 s => rw [readJsonLoop_quote]; rfl
  | case7 ch s h0 hb hq ih => rw [readJsonLoop_plain ⟨h0, hb, hq⟩, ih, Option.map_map]; rfl

/-- `read_json_string` cuts the string at the size of the buffer. -/
theorem readJsonString_raw {n : Nat} (s : List Char) : (readJsonString s : Option (CStr (n + 1) × List Char)) =
    (readRaw s).map fun r => (CStr.copy r.1.stored, r.2) := by
  have hcut : ∀ raw : RawString,
      raw.stored.foldl CStr.push (⟨[], Nat.succ_pos n⟩ : CStr (n + 1)) = CStr.copy raw.stored := fun raw =>
    Subtype.ext (by rw [foldl_push]; rfl)
  rw [readJsonString_eq, readRaw]
  split
  · simp only [readJsonLoop_eq, hcut]
  · rfl

theorem paramsString_raw {n : Nat} (s : List Char) : (paramsString s : Option (CStr (n + 1) × List Char)) =
    (paramsRaw s).map fun r => (CStr.copy r.1.stored, r.2) := by
  rw [paramsString, paramsRaw, readJsonString_raw, Option.map_map, Option.map_map]
  rfl

/-- The buffers of a row of branches. -/
def copyBranches (merkle : List RawString) : List (CStr 65) := merkle.map fun raw => CStr.copy raw.stored

theorem merkleArrayLoop_raw (slots : Nat) (s : List Char) : (merkleArrayLoop slots s).map (fun r => (r.1.1, r.2)) =
    (merkleRawLoop slots s).map fun r => (copyBranches r.1, r.2) := by
  induction slots generalizing s with
  | zero =>
    rw [merkleArrayLoop, merkleRawLoop]
    split <;> rfl
  | succ slots ih =>
    rw [merkleArrayLoop, merkleRawLoop, readJsonString_raw]
    split
    · rfl
    · cases hraw : readRaw (skipWs s) with
      | none => rfl
      | some r =>
        obtain ⟨branch, u⟩ := r
        -- one more branch in front of what the rest of the loop reads
        have hcons : ∀ v, ((merkleArrayLoop slots v).map fun r => ((CStr.copy branch.stored : CStr 65) :: r.1.1, r.2)) =
            (merkleRawLoop slots v).map fun r => (copyBranches (branch :: r.1), r.2) := fun v => by
          have h := congrArg (Option.map fun r : List (CStr 65) × List Char =>
            ((CStr.copy branch.stored : CStr 65) :: r.1, r.2)) (ih v)
          rw [Option.map_map, Option.map_map] at h
          exact h
        dsimp only [Option.map_some]
        split
        · rw [Option.map_map, Option.map_map]
          exact hcons _
        · split
          · rfl
          · rw [Option.map_map, Option.map_map]
            exact hcons _

section Accepted

variable {line s t : List Char} {notify : StratumNotify}

theorem paramsString_some {n : Nat} {dst : CStr (n + 1)} (h : paramsString s = some (dst, t)) :
    ∃ raw, paramsRaw s = some (raw, t) ∧ dst = CStr.copy raw.stored := by
  rw [paramsString_raw, Option.map_eq_some_iff] at h
  obtain ⟨⟨raw, u⟩, hraw, h⟩ := h
  obtain ⟨rfl, rfl⟩ := Prod.mk.inj h
  exact ⟨raw, hraw, rfl⟩

theorem paramsMerkleArray_some {merkle : { l : List (CStr 65) // l.length ≤ 16 }}
    (h : paramsMerkleArray s = some (merkle, t)) : ∃ raws, merkleRaw s = some (raws, t) ∧ merkle.1 = copyBranches raws := by
  unfold paramsMerkleArray at h
  unfold merkleRaw
  dsimp only at h ⊢
  split at h
  · cases h
  · rename_i hopen
    obtain ⟨⟨m, u⟩, hm, h⟩ := Option.map_eq_some_iff.1 h
    obtain ⟨rfl, rfl⟩ := Prod.mk.inj h
    have hraw := merkleArrayLoop_raw 16 (skipWs s).tail
    rw [hm, Option.map_some, eq_comm, Option.map_eq_some_iff] at hraw
    obtain ⟨⟨raws, u'⟩, hraws, heq⟩ := hraw
    obtain ⟨hm', rfl⟩ := Prod.mk.inj heq
    refine ⟨raws, ?_, hm'.symm⟩
    rw [if_neg hopen, hraws]
    rfl

/-- A notify with the elements cut at the sizes of its buffers. -/
structure CutTo (e : NotifyStrings) (notify : StratumNotify) : Prop where
  jobId : notify.jobId = CStr.copy e.jobId.stored
  prevhash : notify.prevhash = CStr.copy e.prevhash.stored
  coinb1 : notify.coinb1 = CStr.copy e.coinb1.stored
  coinb2 : notify.coinb2 = CStr.copy e.coinb2.stored
  merkle : notify.merkle = copyBranches e.merkle
  version : notify.version = CStr.copy e.version.stored
  nbits : notify.nbits = CStr.copy e.nbits.stored
  ntime : notify.ntime = CStr.copy e.ntime.stored
  cleanJobs : notify.cleanJobs = e.cleanJobs

/-- **What `parse_notify` stores.** -/
theorem parseNotify_cut (h : parseNotify line = some notify) : ∃ e, notifyStrings line = some e ∧ CutTo e notify := by
  unfold parseNotify at h
  obtain ⟨p, hp, h⟩ := Option.bind_eq_some_iff.1 h
  obtain ⟨⟨jobId, p1⟩, h1, h⟩ := Option.bind_eq_some_iff.1 h
  obtain ⟨⟨prevhash, p2⟩, h2, h⟩ := Option.bind_eq_some_iff.1 h
  obtain ⟨⟨coinb1, p3⟩, h3, h⟩ := Option.bind_eq_some_iff.1 h
  obtain ⟨⟨coinb2, p4⟩, h4, h⟩ := Option.bind_eq_some_iff.1 h
  obtain ⟨⟨merkle, p5⟩, h5, h⟩ := Option.bind_eq_some_iff.1 h
  obtain ⟨⟨version, p6⟩, h6, h⟩ := Option.bind_eq_some_iff.1 h
  obtain ⟨⟨nbits, p7⟩, h7, h⟩ := Option.bind_eq_some_iff.1 h
  obtain ⟨⟨ntime, p8⟩, h8, h⟩ := Option.bind_eq_some_iff.1 h
  obtain ⟨⟨cleanJobs, p9⟩, h9, h⟩ := Option.bind_eq_some_iff.1 h
  obtain rfl := Option.some.inj h
  obtain ⟨r1, e1, rfl⟩ := paramsString_some h1
  obtain ⟨r2, e2, rfl⟩ := paramsString_some h2
  obtain ⟨r3, e3, rfl⟩ := paramsString_some h3
  obtain ⟨r4, e4, rfl⟩ := paramsString_some h4
  obtain ⟨r5, e5, hm⟩ := paramsMerkleArray_some h5
  obtain ⟨r6, e6, rfl⟩ := paramsString_some h6
  obtain ⟨r7, e7, rfl⟩ := paramsString_some h7
  obtain ⟨r8, e8, rfl⟩ := paramsString_some h8
  refine ⟨⟨r1, r2, r3, r4, r5, r6, r7, r8, cleanJobs⟩, ?_, ⟨rfl, rfl, rfl, rfl, hm, rfl, rfl, rfl, rfl⟩⟩
  unfold notifyStrings
  refine Option.bind_eq_some_iff.2 ⟨p, hp, ?_⟩
  refine Option.bind_eq_some_iff.2 ⟨_, e1, ?_⟩
  refine Option.bind_eq_some_iff.2 ⟨_, e2, ?_⟩
  refine Option.bind_eq_some_iff.2 ⟨_, e3, ?_⟩
  refine Option.bind_eq_some_iff.2 ⟨_, e4, ?_⟩
  refine Option.bind_eq_some_iff.2 ⟨_, e5, ?_⟩
  refine Option.bind_eq_some_iff.2 ⟨_, e6, ?_⟩
  refine Option.bind_eq_some_iff.2 ⟨_, e7, ?_⟩
  refine Option.bind_eq_some_iff.2 ⟨_, e8, ?_⟩
  exact Option.bind_eq_some_iff.2 ⟨_, h9, rfl⟩

end Accepted

/-! ## The elements of the member `params` -/

/-- The elements of `params`: the strings of the notify, and what follows them. -/
structure NotifyElements where
  jobId : JsonString
  prevhash : JsonString
  coinb1 : JsonString
  coinb2 : JsonString
  merkle : List JsonString
  version : JsonString
  nbits : JsonString
  ntime : JsonString
  behind : List Json

def NotifyElements.json (e : NotifyElements) : List Json :=
  .str e.jobId :: .str e.prevhash :: .str e.coinb1 :: .str e.coinb2 :: .arr (e.merkle.map .str) :: .str e.version ::
    .str e.nbits :: .str e.ntime :: e.behind

/-- The line is an object with these elements. -/
def Sends (line : List Char) (e : NotifyElements) : Prop := ∃ members text behind, line = terminated text behind ∧
  (Json.obj members).Text text ∧ member "params".toList members = some (.arr e.json)

/-- The notify holds every string of the elements in full. -/
structure StoredInFull (e : NotifyElements) (notify : StratumNotify) : Prop where
  jobId : notify.jobId.1 = e.jobId.decode
  prevhash : notify.prevhash.1 = e.prevhash.decode
  coinb1 : notify.coinb1.1 = e.coinb1.decode
  coinb2 : notify.coinb2.1 = e.coinb2.decode
  merkle : notify.merkle.map Subtype.val = e.merkle.map JsonString.decode
  version : notify.version.1 = e.version.decode
  nbits : notify.nbits.1 = e.nbits.decode
  ntime : notify.ntime.1 = e.ntime.decode

/-- At the first text `"params"` stands the member with the elements. -/
def ParamsFirst (line : List Char) (e : NotifyElements) : Prop := ∃ p rest, strstr "\"params\"".toList line = some p ∧
  Reads (nameLexeme "params".toList :: [':'] :: (Json.arr e.json).lexemes) p rest

/-! ## Strings that fit -/

/-- An escape that stands for its letter: a quote, a backslash or a slash. -/
def SelfEscape : JsonChar → Prop
  | .plain _ _ => True
  | .escape e => e = .quote ∨ e = .backslash ∨ e = .slash
  | .unicode _ _ _ _ => False

/-- A string without other escapes. -/
def SelfEscaped (str : JsonString) : Prop := ∀ c ∈ str, SelfEscape c

theorem decode_selfEscaped {str : JsonString} (h : SelfEscaped str) :
    str.decode = unescaped str ∧ str.decode.length = str.length := by
  induction str with
  | nil => exact ⟨rfl, rfl⟩
  | cons c str ih =>
    obtain ⟨heq, hlen⟩ := ih fun c' hc => h c' (List.mem_cons_of_mem c hc)
    have hc := h c List.mem_cons_self
    cases c with
    | plain ch hch => exact ⟨congrArg (ch :: ·) heq, congrArg Nat.succ hlen⟩
    | escape e =>
      have hvalue : e.value = e.letter := by
        rcases hc with rfl | rfl | rfl <;> rfl
      refine ⟨?_, congrArg Nat.succ hlen⟩
      show e.value :: JsonString.decode str = e.letter :: unescaped str
      rw [hvalue, heq]
    | unicode a b c d => exact hc.elim

theorem selfEscaped_ofText (text : List Char) (h : ∀ c ∈ text, IsPrintable c) : SelfEscaped (.ofText text h) := by
  intro c hc
  obtain ⟨ch, hch, rfl⟩ := List.mem_pmap.1 hc
  unfold JsonChar.ofChar
  split
  · exact .inl rfl
  · split
    · exact .inr (.inl rfl)
    · trivial

theorem decode_ofText (text : List Char) (h : ∀ c ∈ text, IsPrintable c) : (JsonString.ofText text h).decode = text := by
  rw [(decode_selfEscaped (selfEscaped_ofText text h)).1, unescaped_ofText]

/-- The element of a buffer of `n + 1` characters: a string with no other escapes than those of quotes, backslashes and
slashes, of at most `n` characters. With another escape it only fits if, by coincidence, the beginning of the text
without its backslashes is what the string stands for. -/
def Fits (n : Nat) (str : JsonString) : Prop :=
  SelfEscaped str ∧ str.length ≤ n ∨ ¬ SelfEscaped str ∧ (unescaped str).take n = str.decode

theorem take_unescaped_iff {n : Nat} {str : JsonString} : (unescaped str).take n = str.decode ↔ Fits n str := by
  rw [Fits]
  by_cases hself : SelfEscaped str
  · obtain ⟨hdecode, hlen⟩ := decode_selfEscaped hself
    simp only [hself, true_and, not_true_eq_false, false_and, or_false]
    rw [← hdecode, List.take_eq_self_iff, hlen]
  · simp only [hself, false_and, not_false_eq_true, true_and, false_or]

theorem fits_ofText {n : Nat} {text : List Char} (h : ∀ c ∈ text, IsPrintable c) (hlen : text.length ≤ n) :
    Fits n (.ofText text h) :=
  .inl ⟨selfEscaped_ofText text h, by rwa [JsonString.ofText, List.length_pmap]⟩

/-- The elements fit their buffers. -/
structure NotifyElements.Fit (e : NotifyElements) : Prop where
  jobId : Fits 63 e.jobId
  prevhash : Fits 64 e.prevhash
  coinb1 : Fits 1024 e.coinb1
  coinb2 : Fits 1024 e.coinb2
  merkle : ∀ str ∈ e.merkle, Fits 64 str
  version : Fits 8 e.version
  nbits : Fits 8 e.nbits
  ntime : Fits 8 e.ntime

/-- Other strings that are read in their place, cut at the sizes of the buffers, are by coincidence the same. -/
structure Coincide (raw : NotifyStrings) (e : NotifyElements) : Prop where
  jobId : raw.jobId.stored.take 63 = e.jobId.decode
  prevhash : raw.prevhash.stored.take 64 = e.prevhash.decode
  coinb1 : raw.coinb1.stored.take 1024 = e.coinb1.decode
  coinb2 : raw.coinb2.stored.take 1024 = e.coinb2.decode
  merkle : raw.merkle.map (fun branch => branch.stored.take 64) = e.merkle.map JsonString.decode
  version : raw.version.stored.take 8 = e.version.decode
  nbits : raw.nbits.stored.take 8 = e.nbits.decode
  ntime : raw.ntime.stored.take 8 = e.ntime.decode

/-- The elements are found and fit. -/
structure NotifySpelled (line : List Char) (e : NotifyElements) : Prop where
  fit : ParamsFirst line e → e.Fit
  coincide : ¬ ParamsFirst line e → ∃ raw, notifyStrings line = some raw ∧ Coincide raw e

theorem CutTo.inFull_iff {raw : NotifyStrings} {e : NotifyElements} {notify : StratumNotify} (h : CutTo raw notify) :
    StoredInFull e notify ↔ Coincide raw e := by
  obtain ⟨h1, h2, h3, h4, h5, h6, h7, h8, -⟩ := h
  have hmerkle : notify.merkle.map Subtype.val = raw.merkle.map fun branch => branch.stored.take 64 := by
    rw [h5, copyBranches, List.map_map]
    rfl
  constructor
  · rintro ⟨g1, g2, g3, g4, g5, g6, g7, g8⟩
    rw [hmerkle] at g5
    rw [h1] at g1
    rw [h2] at g2
    rw [h3] at g3
    rw [h4] at g4
    rw [h6] at g6
    rw [h7] at g7
    rw [h8] at g8
    exact ⟨g1, g2, g3, g4, g5, g6, g7, g8⟩
  · rintro ⟨g1, g2, g3, g4, g5, g6, g7, g8⟩
    rw [← hmerkle] at g5
    refine ⟨?_, ?_, ?_, ?_, g5, ?_, ?_, ?_⟩
    · rw [h1]
      exact g1
    · rw [h2]
      exact g2
    · rw [h3]
      exact g3
    · rw [h4]
      exact g4
    · rw [h6]
      exact g6
    · rw [h7]
      exact g7
    · rw [h8]
      exact g8

/-! ## The elements are found -/

section Found

variable {s t u : List Char} {ls : List (List Char)} {str : JsonString} {raw : RawString}

theorem rawLoop_text (raw : RawString) (t : List Char) : rawLoop (raw.text ++ '"' :: t) = some (raw, t) := by
  induction raw with
  | nil =>
    rw [RawString.text, List.flatMap_nil, List.nil_append, rawLoop.eq_def]
    simp
  | cons c raw ih =>
    cases c with
    | plain ch h =>
      have htext : RawString.text (.plain ch h :: raw) ++ '"' :: t = ch :: (RawString.text raw ++ '"' :: t) := rfl
      rw [htext, rawLoop.eq_def]
      simp [h, ih]
    | escaped ch h =>
      have htext : RawString.text (.escaped ch h :: raw) ++ '"' :: t = '\\' :: ch :: (RawString.text raw ++ '"' :: t) := rfl
      rw [htext, rawLoop.eq_def]
      simp [h, ih]

/-- A JSON string is read as it stands there. -/
theorem readRaw_reads (h : Reads (str.quoted :: ls) s t) : ∃ r, readRaw s = some (rawString str, r) ∧ Reads ls r t := by
  obtain ⟨blanks, r, hb, rfl, h⟩ := h
  refine ⟨r, ?_, h⟩
  have htext : str.quoted ++ r = '"' :: ((rawString str).text ++ '"' :: r) := by simp [JsonString.quoted, text_raw]
  rw [readRaw, skipWs_blank hb, htext, skipWs_cons (by decide), deref_cons, if_pos rfl, List.tail_cons, rawLoop_text]

theorem reads_skipBlank {l : List Char} (h : Reads (l :: ls) s t) (hl : l ≠ []) (hb : isBlank (deref l) = false) :
    Reads (l :: ls) (skipWs s) t := by
  obtain ⟨r, hr, h⟩ := reads_cons.1 h
  exact reads_cons.2 ⟨r, reads_skipWs hr hl hb, h⟩

/-- A string of the elements, and the comma behind it. -/
theorem paramsRaw_reads (h : Reads (str.quoted :: [','] :: ls) s t) (hraw : paramsRaw s = some (raw, u)) :
    raw = rawString str ∧ Reads ls u t := by
  obtain ⟨r, hread, hrest⟩ := readRaw_reads (reads_skipBlank h (by simp [JsonString.quoted]) rfl)
  rw [paramsRaw, hread, Option.map_some] at hraw
  obtain ⟨rfl, rfl⟩ := Prod.mk.inj (Option.some.inj hraw)
  obtain ⟨r', hcomma, hrest⟩ := reads_cons.1 hrest
  exact ⟨rfl, by rwa [skipComma_reads hcomma]⟩

/-- The last string. -/
theorem paramsRaw_last (h : Reads (str.quoted :: ls) s t) (hraw : paramsRaw s = some (raw, u)) : raw = rawString str := by
  obtain ⟨r, hread, -⟩ := readRaw_reads (reads_skipBlank h (by simp [JsonString.quoted]) rfl)
  rw [paramsRaw, hread, Option.map_some] at hraw
  exact (Prod.mk.inj (Option.some.inj hraw)).1.symm

/-- The branches, if there are slots for them. -/
theorem merkleRawLoop_reads {strs : List JsonString} {slots : Nat} {raws : List RawString}
    (h : Reads (commaSep (strs.map fun str => [str.quoted]) ++ ([']'] :: ls)) s t)
    (hraw : merkleRawLoop slots s = some (raws, u)) : raws = strs.map rawString ∧ Reads ls u t := by
  induction strs generalizing slots s raws with
  | nil =>
    obtain ⟨r, hclose, hrest⟩ := reads_cons.1 (show Reads ([']'] :: ls) s t from h)
    have hs : skipWs s = ']' :: r := skipWs_reads_one hclose (by decide)
    have hloop : merkleRawLoop slots s = some ([], r) := by
      cases slots <;> rw [merkleRawLoop, hs] <;> rfl
    obtain ⟨rfl, rfl⟩ := Prod.mk.inj (Option.some.inj (hloop.symm.trans hraw))
    exact ⟨rfl, hrest⟩
  | cons str strs ih =>
    -- the string, and what stands in front of the next element
    obtain ⟨r, hopen, hread, hrest⟩ : ∃ r, deref (skipWs s) ≠ ']' ∧ readRaw (skipWs s) = some (rawString str, r) ∧
        (strs = [] ∧ Reads ([']'] :: ls) r t ∨
          strs ≠ [] ∧ Reads ([','] :: (commaSep (strs.map fun str => [str.quoted]) ++ ([']'] :: ls))) r t) := by
      have hcons : ∃ ls', commaSep ((str :: strs).map fun str => [str.quoted]) ++ ([']'] :: ls) = str.quoted :: ls' ∧
          (strs = [] ∧ ls' = [']'] :: ls ∨
            strs ≠ [] ∧ ls' = [','] :: (commaSep (strs.map fun str => [str.quoted]) ++ ([']'] :: ls))) := by
        cases strs with
        | nil => exact ⟨_, rfl, .inl ⟨rfl, rfl⟩⟩
        | cons str' strs =>
          rw [List.map_cons, List.map_cons, commaSep_cons_cons, List.append_assoc]
          exact ⟨_, rfl, .inr ⟨by simp, rfl⟩⟩
      obtain ⟨ls', hls, hcases⟩ := hcons
      rw [hls] at h
      have hskip := reads_skipBlank h (by simp [JsonString.quoted]) rfl
      obtain ⟨r, hread, hrest⟩ := readRaw_reads hskip
      obtain ⟨r', hquoted, -⟩ := reads_cons.1 h
      refine ⟨r, ?_, hread, hcases.imp ?_ ?_⟩
      · rw [skipWs_reads hquoted (by simp [JsonString.quoted]) rfl]
        exact show '"' ≠ ']' by decide
      · rintro ⟨hnil, rfl⟩
        exact ⟨hnil, hrest⟩
      · rintro ⟨hne, rfl⟩
        exact ⟨hne, hrest⟩
    cases slots with
    | zero =>
      rw [merkleRawLoop, if_neg hopen] at hraw
      cases hraw
    | succ slots =>
      rw [merkleRawLoop, if_neg hopen, hread] at hraw
      dsimp only at hraw
      rcases hrest with ⟨rfl, hr⟩ | ⟨-, hr⟩
      · obtain ⟨r', hclose, -⟩ := reads_cons.1 hr
        rw [skipWs_reads_one hclose (by decide), deref_cons, if_neg (by decide), if_neg (by decide),
          ← skipWs_reads_one hclose (by decide)] at hraw
        obtain ⟨⟨rest, v⟩, hrest, heq⟩ := Option.map_eq_some_iff.1 hraw
        obtain ⟨rfl, rfl⟩ := Prod.mk.inj heq
        obtain ⟨rfl, hr⟩ := ih (reads_skipBlank hr (by simp) rfl) hrest
        exact ⟨rfl, hr⟩
      · obtain ⟨r', hcomma, hr⟩ := reads_cons.1 hr
        rw [skipWs_reads_one hcomma (by decide), deref_cons, if_pos rfl, List.tail_cons] at hraw
        obtain ⟨⟨rest, v⟩, hrest, heq⟩ := Option.map_eq_some_iff.1 hraw
        obtain ⟨rfl, rfl⟩ := Prod.mk.inj heq
        obtain ⟨rfl, hr⟩ := ih hr hrest
        exact ⟨rfl, hr⟩

theorem merkleRaw_reads {strs : List JsonString} {raws : List RawString}
    (h : Reads (['['] :: (commaSep (strs.map fun str => [str.quoted]) ++ ([']'] :: [','] :: ls))) s t)
    (hraw : merkleRaw s = some (raws, u)) : raws = strs.map rawString ∧ Reads ls u t := by
  obtain ⟨r, hopen, h⟩ := reads_cons.1 h
  rw [merkleRaw, skipWs_reads_one hopen (by decide)] at hraw
  dsimp only at hraw
  rw [deref_cons, if_neg (by decide), List.tail_cons] at hraw
  obtain ⟨⟨rest, v⟩, hrest, heq⟩ := Option.map_eq_some_iff.1 hraw
  obtain ⟨rfl, rfl⟩ := Prod.mk.inj heq
  obtain ⟨hraws, hr⟩ := merkleRawLoop_reads h hrest
  obtain ⟨r', hcomma, hr⟩ := reads_cons.1 hr
  exact ⟨hraws, by rwa [skipComma_reads hcomma]⟩

/-- The lexemes of the elements. -/
theorem lexemes_elements (e : NotifyElements) : ∃ ls, (Json.arr e.json).lexemes =
    ['['] :: e.jobId.quoted :: [','] :: e.prevhash.quoted :: [','] :: e.coinb1.quoted :: [','] :: e.coinb2.quoted :: [','] ::
      ['['] :: (commaSep (e.merkle.map fun str => [str.quoted]) ++ ([']'] :: [','] :: e.version.quoted :: [','] ::
        e.nbits.quoted :: [','] :: e.ntime.quoted :: ls)) := by
  have hmerkle : elementLexemes (e.merkle.map Json.str) = e.merkle.map fun str => [str.quoted] := by
    rw [elementLexemes_eq_map, List.map_map]
    exact List.map_congr_left fun str _ => by rw [Function.comp_apply, Json.lexemes]
  refine ⟨(elementLexemes e.behind).flatMap ([','] :: ·) ++ [[']']], ?_⟩
  simp only [NotifyElements.json, Json.lexemes, elementLexemes, commaSep_cons_cons, commaSep_cons [e.ntime.quoted],
    hmerkle, List.cons_append, List.nil_append, List.append_assoc]

/-- The elements as they are read. -/
structure Found (raw : NotifyStrings) (e : NotifyElements) : Prop where
  jobId : raw.jobId = rawString e.jobId
  prevhash : raw.prevhash = rawString e.prevhash
  coinb1 : raw.coinb1 = rawString e.coinb1
  coinb2 : raw.coinb2 = rawString e.coinb2
  merkle : raw.merkle = e.merkle.map rawString
  version : raw.version = rawString e.version
  nbits : raw.nbits = rawString e.nbits
  ntime : raw.ntime = rawString e.ntime

/-- The elements at the first text `"params"` are those that are read. -/
theorem ParamsFirst.found {line : List Char} {e : NotifyElements} {raw : NotifyStrings} (hfirst : ParamsFirst line e)
    (hraw : notifyStrings line = some raw) : Found raw e := by
  obtain ⟨p, rest, hp, hreads⟩ := hfirst
  obtain ⟨ls, hls⟩ := lexemes_elements e
  rw [hls] at hreads
  obtain ⟨r1, hname, hreads⟩ := reads_cons.1 hreads
  obtain ⟨r2, hcolon, hreads⟩ := reads_cons.1 hreads
  obtain ⟨r3, hopen, hreads⟩ := reads_cons.1 hreads
  have harray : findParamsArray line = some r3 := by
    rw [findParamsArray, hp, Option.bind_some, strchr_reads hname (by decide) (by decide),
      strchr_reads hcolon (by decide) (by decide), strchr_reads_found hopen (by decide)]
    rfl
  unfold notifyStrings at hraw
  obtain ⟨p, hp, hraw⟩ := Option.bind_eq_some_iff.1 hraw
  obtain rfl := Option.some.inj (harray.symm.trans hp)
  obtain ⟨⟨jobId, p1⟩, h1, hraw⟩ := Option.bind_eq_some_iff.1 hraw
  obtain ⟨⟨prevhash, p2⟩, h2, hraw⟩ := Option.bind_eq_some_iff.1 hraw
  obtain ⟨⟨coinb1, p3⟩, h3, hraw⟩ := Option.bind_eq_some_iff.1 hraw
  obtain ⟨⟨coinb2, p4⟩, h4, hraw⟩ := Option.bind_eq_some_iff.1 hraw
  obtain ⟨⟨merkle, p5⟩, h5, hraw⟩ := Option.bind_eq_some_iff.1 hraw
  obtain ⟨⟨version, p6⟩, h6, hraw⟩ := Option.bind_eq_some_iff.1 hraw
  obtain ⟨⟨nbits, p7⟩, h7, hraw⟩ := Option.bind_eq_some_iff.1 hraw
  obtain ⟨⟨ntime, p8⟩, h8, hraw⟩ := Option.bind_eq_some_iff.1 hraw
  obtain ⟨⟨cleanJobs, p9⟩, -, hraw⟩ := Option.bind_eq_some_iff.1 hraw
  obtain rfl := Option.some.inj hraw
  obtain ⟨e1, hreads⟩ := paramsRaw_reads hreads h1
  obtain ⟨e2, hreads⟩ := paramsRaw_reads hreads h2
  obtain ⟨e3, hreads⟩ := paramsRaw_reads hreads h3
  obtain ⟨e4, hreads⟩ := paramsRaw_reads hreads h4
  obtain ⟨e5, hreads⟩ := merkleRaw_reads hreads h5
  obtain ⟨e6, hreads⟩ := paramsRaw_reads hreads h6
  obtain ⟨e7, hreads⟩ := paramsRaw_reads hreads h7
  exact ⟨e1, e2, e3, e4, e5, e6, e7, paramsRaw_last hreads h8⟩

/-- Then they are stored in full if they fit. -/
theorem Found.coincide_iff {raw : NotifyStrings} {e : NotifyElements} (h : Found raw e) : Coincide raw e ↔ e.Fit := by
  obtain ⟨h1, h2, h3, h4, h5, h6, h7, h8⟩ := h
  have hmerkle : raw.merkle.map (fun branch => branch.stored.take 64) = e.merkle.map JsonString.decode ↔
      ∀ str ∈ e.merkle, Fits 64 str := by
    rw [h5, List.map_map, List.map_inj_left]
    exact forall₂_congr fun str _ => take_unescaped_iff
  constructor
  · rintro ⟨g1, g2, g3, g4, g5, g6, g7, g8⟩
    rw [h1] at g1
    rw [h2] at g2
    rw [h3] at g3
    rw [h4] at g4
    rw [h6] at g6
    rw [h7] at g7
    rw [h8] at g8
    exact ⟨take_unescaped_iff.1 g1, take_unescaped_iff.1 g2, take_unescaped_iff.1 g3, take_unescaped_iff.1 g4, hmerkle.1 g5,
      take_unescaped_iff.1 g6, take_unescaped_iff.1 g7, take_unescaped_iff.1 g8⟩
  · rintro ⟨g1, g2, g3, g4, g5, g6, g7, g8⟩
    refine ⟨?_, ?_, ?_, ?_, hmerkle.2 g5, ?_, ?_, ?_⟩
    · rw [h1]
      exact take_unescaped_iff.2 g1
    · rw [h2]
      exact take_unescaped_iff.2 g2
    · rw [h3]
      exact take_unescaped_iff.2 g3
    · rw [h4]
      exact take_unescaped_iff.2 g4
    · rw [h6]
      exact take_unescaped_iff.2 g6
    · rw [h7]
      exact take_unescaped_iff.2 g7
    · rw [h8]
      exact take_unescaped_iff.2 g8

end Found

theorem storedInFull_spelled {line : List Char} {notify : StratumNotify} (h : parseNotify line = some notify)
    (e : NotifyElements) : StoredInFull e notify ↔ NotifySpelled line e := by
  obtain ⟨raw, hraw, hcut⟩ := parseNotify_cut h
  rw [hcut.inFull_iff]
  by_cases hfirst : ParamsFirst line e
  · rw [(hfirst.found hraw).coincide_iff]
    exact ⟨fun hfit => ⟨fun _ => hfit, fun hn => absurd hfirst hn⟩, fun hs => hs.fit hfirst⟩
  · refine ⟨fun hc => ⟨fun hf => absurd hf hfirst, fun _ => ⟨raw, hraw, hc⟩⟩, fun hs => ?_⟩
    obtain ⟨raw', hraw', hc⟩ := hs.coincide hfirst
    obtain rfl := Option.some.inj (hraw.symm.trans hraw')
    exact hc

/-- **Stored in full.** Of every line that `parse_notify` accepts, the notify holds the strings of `params` in full
exactly when the line is an object with such strings, and they stand at the first text `"params"` and fit their buffers,
or what stands there is by coincidence stored as the same. -/
theorem storedInFull_iff {line : List Char} {notify : StratumNotify} (h : parseNotify line = some notify) :
    (∃ e, Sends line e ∧ StoredInFull e notify) ↔ ∃ e, Sends line e ∧ NotifySpelled line e :=
  exists_congr fun e => and_congr_right fun _ => storedInFull_spelled h e

/-! ## A version that is too long -/

/-- An object whose first member is `params` has it at the first text `"params"`. -/
theorem Sends.paramsFirst {s text behind : List Char} {e : NotifyElements} (h : Sends (terminated text behind) e)
    (h0 : '\x00' ∉ text) (hs : text = '{' :: '"' :: ("params".toList ++ '"' :: ':' :: s)) :
    ParamsFirst (terminated text behind) e := by
  obtain ⟨members, text', behind', hline, htext, hparams⟩ := h
  obtain rfl := terminated_injective h0 htext.no_zero hline
  obtain ⟨blanks, -, hreads⟩ := htext
  rw [hs] at hreads ⊢
  cases members with
  | nil => cases hparams
  | cons m rest =>
    rw [lexemes_obj_cons] at hreads
    have hmember := (reads_head_one hreads (by decide)).2
    obtain ⟨hname, -⟩ := reads_name "params".toList (by decide) hmember
    have hdecode : m.1.decode = "params".toList := (JsonString.decode_eq_text (by rw [hname]; decide)).trans hname
    rw [member_cons_eq hdecode] at hparams
    have hquoted : m.1.quoted = nameLexeme "params".toList := by rw [JsonString.quoted, hname, nameLexeme]
    rw [Option.some.inj hparams, hquoted] at hmember
    obtain ⟨r, hfirst, -⟩ := reads_append.1 (show Reads
      ((nameLexeme "params".toList :: [':'] :: (Json.arr e.json).lexemes) ++ memberTail rest) _ blanks from hmember)
    have hfirst := hfirst.behind ('\x00' :: behind)
    obtain ⟨r', hfound, hrest⟩ := reads_cons.1 hfirst
    refine ⟨nameLexeme "params".toList ++ r', _, ?_, [], r', blank_nil, rfl, hrest⟩
    exact (strstr_skip (a := ['{']) (by decide) _).trans (strstr_reads_found hfound)

/-- A notify with this version. -/
def versionNotify (version : String) : List Char :=
  ("\x7b\"params\":[\"j\\\"1\",\"00\",\"01\",\"\",[\"ab\"],\"" ++ version ++
    "\",\"207fffff\",\"65f0e100\",true],\"id\":null,\"method\":\"mining.notify\"\x7d").toList

theorem versionNotify_params (version : String) :
    ∃ s, versionNotify version = '{' :: '"' :: ("params".toList ++ '"' :: ':' :: s) := by
  rw [versionNotify, String.toList_append, String.toList_append]
  dsimp only [String.reduceToList]
  exact ⟨_, rfl⟩

theorem versionNotify_first {version : String} {e : NotifyElements}
    (h : Sends (terminated (versionNotify version) []) e) (h0 : '\x00' ∉ version.toList) :
    ParamsFirst (terminated (versionNotify version) []) e := by
  obtain ⟨s, hs⟩ := versionNotify_params version
  refine h.paramsFirst ?_ hs
  rw [versionNotify, String.toList_append, String.toList_append, List.mem_append, List.mem_append]
  dsimp only [String.reduceToList]
  rintro ((h1 | h2) | h3)
  · revert h1
    decide
  · exact h0 h2
  · revert h3
    decide

/-- Nine digits are not stored in full. -/
theorem longVersion_accepted : (parseNotify (terminated (versionNotify "200000000") [])).isSome ∧
    (notifyStrings (terminated (versionNotify "200000000") [])).map (·.version.text) = some "200000000".toList := by
  unfold versionNotify
  dsimp only [String.reduceAppend, String.reduceToList]
  decide

/-- They are not stored in full. -/
theorem longVersion_cut : ¬ ∀ (line : List Char) (notify : StratumNotify), parseNotify line = some notify →
    ∃ e, Sends line e ∧ StoredInFull e notify := by
  intro h
  obtain ⟨hsome, htext⟩ := longVersion_accepted
  obtain ⟨notify, hnotify⟩ := Option.isSome_iff_exists.1 hsome
  obtain ⟨e, hsends, hfull⟩ := h _ notify hnotify
  obtain ⟨raw, hraw, -⟩ := parseNotify_cut hnotify
  have hfound := (versionNotify_first hsends (by decide)).found hraw
  rw [hraw, Option.map_some, Option.some.injEq, hfound.version, text_raw] at htext
  have hdecode : e.version.decode = "200000000".toList := by
    rw [JsonString.decode_eq_text (by rw [htext]; decide), htext]
  have hlen := notify.version.2
  rw [hfull.version, hdecode] at hlen
  revert hlen
  decide

def versionElements : NotifyElements where
  jobId := .ofText "j\"1".toList (by decide)
  prevhash := .ofText "00".toList (by decide)
  coinb1 := .ofText "01".toList (by decide)
  coinb2 := .ofText "".toList (by decide)
  merkle := [.ofText "ab".toList (by decide)]
  version := .ofText "20000000".toList (by decide)
  nbits := .ofText "207fffff".toList (by decide)
  ntime := .ofText "65f0e100".toList (by decide)
  behind := [.bool true]

theorem versionElements_sent : Sends (terminated (versionNotify "20000000") []) versionElements := by
  refine ⟨[(.ofText "params".toList (by decide), .arr versionElements.json), (idName, .null),
    (.ofText "method".toList (by decide), .str notifyMethod)], _, [], rfl, ?_, rfl⟩
  have htext : versionNotify "20000000" = (Json.obj [(.ofText "params".toList (by decide), .arr versionElements.json),
      (idName, .null), (.ofText "method".toList (by decide), .str notifyMethod)]).lexemes.flatten := by
    unfold versionNotify
    dsimp only [String.reduceAppend, String.reduceToList]
    decide
  rw [htext]
  exact Json.text_compact _

/-- Eight digits are. -/
theorem version_stored : ∃ notify, parseNotify (terminated (versionNotify "20000000") []) = some notify ∧
    ∃ e, Sends (terminated (versionNotify "20000000") []) e ∧ StoredInFull e notify := by
  have hsome : (parseNotify (terminated (versionNotify "20000000") [])).isSome := by
    unfold versionNotify
    dsimp only [String.reduceAppend, String.reduceToList]
    decide
  obtain ⟨notify, hnotify⟩ := Option.isSome_iff_exists.1 hsome
  refine ⟨notify, hnotify, (storedInFull_iff hnotify).2 ⟨versionElements, versionElements_sent, fun _ => ?_, fun hn => ?_⟩⟩
  · refine ⟨?_, ?_, ?_, ?_, ?_, ?_, ?_, ?_⟩
    · exact fits_ofText (by decide) (by decide)
    · exact fits_ofText (by decide) (by decide)
    · exact fits_ofText (by decide) (by decide)
    · exact fits_ofText (by decide) (by decide)
    · exact List.forall_mem_singleton.2 (fits_ofText (by decide) (by decide))
    · exact fits_ofText (by decide) (by decide)
    · exact fits_ofText (by decide) (by decide)
    · exact fits_ofText (by decide) (by decide)
  · exact absurd (versionNotify_first versionElements_sent (by decide)) hn

end Vek280Miner.Sw
