import Vek280Miner.Lib.Json
import Vek280Miner.Software.StratumParse

/-!
# Reading a line

What the readers of `StratumParse` do with a text, whatever is in front of it and behind it. A line in memory is a text,
its terminator, and the memory behind (`terminated`). None of the functions of the C library, nor `skip_ws` or
`read_json_string`, gets past the terminator.

* `readJsonLoop_iff`: a string that is read is a row of characters and escaped characters up to the next quote, of which
  as many are stored as there is room for.
* `strstr_skip_string`: a member name is not found in another string.
-/

namespace Vek280Miner.Sw

/-- A text in memory, with its terminator and whatever is behind. -/
def terminated (text behind : List Char) : List Char := text ++ '\x00' :: behind

section Readers

variable {s t behind : List Char} {ch : Char}

@[simp] theorem terminated_nil (behind : List Char) : terminated [] behind = '\x00' :: behind := rfl

@[simp] theorem terminated_cons (ch : Char) (s behind : List Char) :
    terminated (ch :: s) behind = ch :: terminated s behind := rfl

theorem terminated_append (s t behind : List Char) : terminated (s ++ t) behind = s ++ terminated t behind := by
  simp [terminated]

/-- A line ends at its first zero. -/
theorem terminated_injective {s t a b : List Char} (hs : '\x00' ∉ s) (ht : '\x00' ∉ t)
    (h : terminated s a = terminated t b) : s = t := by
  induction s generalizing t with
  | nil =>
    cases t with
    | nil => rfl
    | cons c t =>
      obtain ⟨rfl, -⟩ := List.cons.inj h
      exact absurd List.mem_cons_self ht
  | cons c s ih =>
    cases t with
    | nil =>
      obtain ⟨rfl, -⟩ := List.cons.inj h
      exact absurd List.mem_cons_self hs
    | cons c' t =>
      obtain ⟨rfl, htail⟩ := List.cons.inj h
      rw [ih (fun hmem => hs (List.mem_cons_of_mem c hmem)) (fun hmem => ht (List.mem_cons_of_mem c hmem)) htail]

@[simp] theorem deref_cons (ch : Char) (s : List Char) : deref (ch :: s) = ch := rfl

@[simp] theorem deref_terminated (s behind : List Char) : deref (terminated s behind) = deref s := by
  cases s <;> rfl

theorem tail_terminated (h : deref s ≠ '\x00') (behind : List Char) :
    (terminated s behind).tail = terminated s.tail behind := by
  cases s with
  | nil => exact absurd rfl h
  | cons ch s => rfl

theorem drop_terminated {n : Nat} (h : n ≤ s.length) (behind : List Char) :
    (terminated s behind).drop n = terminated (s.drop n) behind := by
  rw [terminated, terminated, List.drop_append_of_le_length h]

/-! ## White space -/

theorem skipWs_blank {blanks : List Char} (h : Blank blanks) (s : List Char) : skipWs (blanks ++ s) = skipWs s :=
  List.dropWhile_append_of_pos h

theorem skipWs_cons (h : isBlank ch = false) (s : List Char) : skipWs (ch :: s) = ch :: s :=
  List.dropWhile_cons_of_neg (by simpa [isBlank] using h)

/-- What `skip_ws` skips. -/
theorem skipWs_split (s : List Char) : ∃ blanks, Blank blanks ∧ s = blanks ++ skipWs s :=
  ⟨s.takeWhile isBlank, fun _ h => List.mem_takeWhile_imp h, (List.takeWhile_append_dropWhile).symm⟩

theorem deref_skipWs (s : List Char) : isBlank (deref (skipWs s)) = false := by
  cases h : skipWs s with
  | nil => rfl
  | cons ch t =>
    have hhead := List.head?_dropWhile_not isBlank s
    rw [show s.dropWhile isBlank = ch :: t from h] at hhead
    simpa [deref] using hhead

@[simp] theorem skipWs_terminated (s behind : List Char) :
    skipWs (terminated s behind) = terminated (skipWs s) behind := by
  obtain ⟨blanks, hb, hs⟩ := skipWs_split s
  have hhead := deref_skipWs s
  rw [hs, terminated_append, skipWs_blank hb, skipWs_blank hb]
  cases h : skipWs s with
  | nil => rfl
  | cons ch t =>
    rw [h] at hhead
    have hch : isBlank ch = false := hhead
    rw [terminated_cons, skipWs_cons hch, skipWs_cons hch, terminated_cons]

/-! ## Texts that are looked for -/

theorem isPrefixOf_terminated {needle : List Char} (h : '\x00' ∉ needle) (s behind : List Char) :
    needle.isPrefixOf (terminated s behind) = needle.isPrefixOf s := by
  induction needle generalizing s with
  | nil => cases s <;> rfl
  | cons c needle ih =>
    simp only [List.mem_cons, not_or] at h
    obtain ⟨hc, hneedle⟩ := h
    cases s with
    | nil =>
      have hne : (c == '\x00') = false := by simpa using Ne.symm hc
      simp [List.isPrefixOf, hne]
    | cons ch s => simp [List.isPrefixOf, ih hneedle]

theorem strstr_terminated {needle : List Char} (h : '\x00' ∉ needle) (s behind : List Char) :
    strstr needle (terminated s behind) = (strstr needle s).map (terminated · behind) := by
  induction s with
  | nil => simp [strstr]
  | cons ch s ih =>
    have hpre := isPrefixOf_terminated h (ch :: s) behind
    rw [terminated_cons] at hpre ⊢
    rw [strstr, strstr, hpre, ih]
    split
    · rfl
    · split <;> rfl

theorem strchr_terminated (h : ch ≠ '\x00') (s behind : List Char) :
    strchr ch (terminated s behind) = (strchr ch s).map (terminated · behind) := by
  induction s with
  | nil => simp [strchr, Ne.symm h]
  | cons c s ih =>
    rw [terminated_cons, strchr, strchr, ih]
    split
    · rfl
    · split <;> rfl

/-- The first occurrence of a character. -/
theorem strchr_eq_some (h : strchr ch s = some t) : ∃ a u, s = a ++ t ∧ t = ch :: u ∧ ch ∉ a := by
  induction s with
  | nil => cases h
  | cons c s ih =>
    rw [strchr] at h
    split at h
    · rename_i hc
      obtain rfl := Option.some.inj h
      exact ⟨[], s, rfl, by rw [hc], by simp⟩
    · rename_i hc
      split at h
      · cases h
      · obtain ⟨a, u, rfl, ht, ha⟩ := ih h
        exact ⟨c :: a, u, rfl, ht, by simp [ha, Ne.symm hc]⟩

/-- A text that is found is part of the line. -/
theorem strstr_eq_some {needle : List Char} (h : strstr needle s = some t) :
    ∃ a, s = a ++ t ∧ needle <+: t ∧ '\x00' ∉ a := by
  induction s with
  | nil => cases h
  | cons ch s ih =>
    rw [strstr] at h
    split at h
    · cases h
    · rename_i hne
      split at h
      · rename_i hpre
        obtain rfl := Option.some.inj h
        exact ⟨[], rfl, List.isPrefixOf_iff_prefix.1 hpre, by simp⟩
      · obtain ⟨a, rfl, hpre, ha⟩ := ih h
        exact ⟨ch :: a, rfl, hpre, by simp [ha, Ne.symm hne]⟩

/-- A text is found in a line without zeros exactly when it is part of it. -/
theorem strstr_isSome_iff {needle : List Char} (hneedle : needle ≠ []) (hs : '\x00' ∉ s) :
    (strstr needle s).isSome ↔ needle <:+: s := by
  induction s with
  | nil => simp [strstr, List.infix_nil, hneedle]
  | cons ch s ih =>
    simp only [List.mem_cons, not_or] at hs
    obtain ⟨hch, hs⟩ := hs
    rw [strstr, if_neg (Ne.symm hch), List.infix_cons_iff]
    split
    · rename_i hpre
      exact iff_of_true rfl (.inl (List.isPrefixOf_iff_prefix.1 hpre))
    · rename_i hpre
      rw [ih hs]
      exact ⟨.inr, fun h => h.resolve_left fun hpre' => hpre (List.isPrefixOf_iff_prefix.2 hpre')⟩

/-- A text is found no later than where it stands. -/
theorem strstr_append {needle a : List Char} (ha : '\x00' ∉ a) (ht : deref t ≠ '\x00') (hpre : needle <+: t) :
    ∃ r, strstr needle (a ++ t) = some r ∧ t <:+ r := by
  induction a with
  | nil =>
    cases t with
    | nil => exact absurd rfl ht
    | cons ch t =>
      refine ⟨ch :: t, ?_, List.suffix_rfl⟩
      rw [List.nil_append, strstr, if_neg (show ch ≠ '\x00' from ht), if_pos (List.isPrefixOf_iff_prefix.2 hpre)]
  | cons ch a ih =>
    simp only [List.mem_cons, not_or] at ha
    obtain ⟨hch, ha⟩ := ha
    rw [List.cons_append, strstr, if_neg (Ne.symm hch)]
    split
    · exact ⟨_, rfl, (List.suffix_append a t).trans (List.suffix_cons ch _)⟩
    · exact ih ha

/-- Text without a quote is skipped when a name is looked for. -/
theorem strstr_skip {needle a : List Char} (h : ∀ c ∈ a, c ≠ '"' ∧ c ≠ '\x00') (s : List Char) :
    strstr ('"' :: needle) (a ++ s) = strstr ('"' :: needle) s := by
  induction a with
  | nil => rfl
  | cons ch a ih =>
    obtain ⟨hq, h0⟩ := h ch List.mem_cons_self
    have hpre : ('"' :: needle).isPrefixOf (ch :: (a ++ s)) = false := by
      have hne : ('"' == ch) = false := by simpa using Ne.symm hq
      simp [List.isPrefixOf, hne]
    rw [List.cons_append, strstr, if_neg h0, hpre, if_neg (by simp), ih fun c hc => h c (List.mem_cons_of_mem ch hc)]

/-- So is a quote that another letter follows. -/
theorem strstr_skip_quote {k : Char} {needle : List Char} (h : deref s ≠ k) :
    strstr ('"' :: k :: needle) ('"' :: s) = strstr ('"' :: k :: needle) s := by
  have hpre : ('"' :: k :: needle).isPrefixOf ('"' :: s) = false := by
    cases s with
    | nil => rfl
    | cons ch s =>
      have hne : (k == ch) = false := by simpa [deref] using Ne.symm h
      simp [List.isPrefixOf, hne]
  rw [strstr, if_neg (by decide), hpre, if_neg (by simp)]

/-- A string without quotes whose first letter is another one is skipped, if the letter does not follow it either. -/
theorem strstr_skip_string {k : Char} {needle a : List Char} (ha : ∀ c ∈ a, c ≠ '"' ∧ c ≠ '\x00') (hfirst : deref a ≠ k)
    (hq : k ≠ '"') (hnext : deref s ≠ k) :
    strstr ('"' :: k :: needle) ('"' :: (a ++ '"' :: s)) = strstr ('"' :: k :: needle) s := by
  have hhead : deref (a ++ '"' :: s) ≠ k := by
    cases a with
    | nil => exact Ne.symm hq
    | cons ch a => exact hfirst
  rw [strstr_skip_quote hhead, strstr_skip ha, strstr_skip_quote hnext]

/-! ## Numbers -/

theorem strtoul10_terminated (s behind : List Char) :
    strtoul10 (terminated s behind) = ((strtoul10 s).1, terminated (strtoul10 s).2 behind) := by
  have hdrop : ∀ (p : Char → Bool), p '\x00' = false → ∀ s,
      (terminated s behind).dropWhile p = terminated (s.dropWhile p) behind := by
    intro p hp s
    induction s with
    | nil => exact List.dropWhile_cons_of_neg (by simp [hp])
    | cons ch s ih =>
      rw [terminated_cons, List.dropWhile_cons, List.dropWhile_cons]
      split
      · exact ih
      · rfl
  have htake : ∀ s, (terminated s behind).takeWhile isDigit = s.takeWhile isDigit := by
    intro s
    induction s with
    | nil => exact List.takeWhile_cons_of_neg (by decide)
    | cons ch s ih => rw [terminated_cons, List.takeWhile_cons, List.takeWhile_cons, ih]
  have hsign : ∀ s, stripSign (terminated s behind) = ((stripSign s).1, terminated (stripSign s).2 behind) := by
    intro s
    cases s with
    | nil => rfl
    | cons ch s =>
      rw [terminated_cons, stripSign.eq_def, stripSign.eq_def]
      split <;> simp_all
  simp only [strtoul10, hdrop isSpace (by decide), hsign, htake, hdrop isDigit (by decide)]
  split <;> rfl

theorem takeWhile_digits {a r : List Char} (ha : ∀ c ∈ a, isDigit c = true) (hr : isDigit (deref r) = false) :
    (a ++ r).takeWhile isDigit = a ∧ (a ++ r).dropWhile isDigit = r := by
  induction a with
  | nil =>
    cases r with
    | nil => exact ⟨rfl, rfl⟩
    | cons c r =>
      have hc : ¬ isDigit c = true := by simpa using hr
      exact ⟨List.takeWhile_cons_of_neg hc, List.dropWhile_cons_of_neg hc⟩
  | cons c a ih =>
    obtain ⟨htake, hdrop⟩ := ih fun c' hc => ha c' (List.mem_cons_of_mem c hc)
    have hc : isDigit c = true := ha c List.mem_cons_self
    exact ⟨by rw [List.cons_append, List.takeWhile_cons_of_pos hc, htake],
      by rw [List.cons_append, List.dropWhile_cons_of_pos hc, hdrop]⟩

/-- The number of a row of digits. -/
def rowValue (row : List Char) : Nat := row.foldl (fun v ch => v * 10 + (ch.toNat - '0'.toNat)) 0

/-- A number that does not fit into 32 bits gives the largest one. -/
def saturate (v : Nat) : Word := if 2 ^ 32 ≤ v then 0xffffffff else BitVec.ofNat 32 v

/-- `strtoul` reads a row of digits up to the last one. -/
theorem strtoul10_row {row r : List Char} (hne : row ≠ []) (hrow : ∀ c ∈ row, isDigit c = true)
    (hr : isDigit (deref r) = false) : strtoul10 (row ++ r) = (saturate (rowValue row), r) := by
  obtain ⟨htake, hdrop⟩ := takeWhile_digits hrow hr
  cases row with
  | nil => exact absurd rfl hne
  | cons d row =>
    have hd : isDigit d = true := hrow d List.mem_cons_self
    have hspace : (d :: row ++ r).dropWhile isSpace = d :: row ++ r :=
      List.dropWhile_cons_of_neg (by simp [isSpace_digit hd])
    have hsign : stripSign (d :: row ++ r) = (false, d :: row ++ r) := stripSign_digit hd _
    rw [strtoul10, hspace, hsign]
    simp only [htake, hdrop, hne, if_false]
    rfl

end Readers

/-! ## Strings -/

/-- A character of a string as `read_json_string` takes it. -/
inductive RawChar where
  | plain (ch : Char) (h : ch ≠ '\x00' ∧ ch ≠ '\\' ∧ ch ≠ '"')
  | escaped (ch : Char) (h : ch ≠ '\x00')

def RawChar.text : RawChar → List Char
  | .plain ch _ => [ch]
  | .escaped ch _ => ['\\', ch]

/-- What is stored of a character. -/
def RawChar.stored : RawChar → Char
  | .plain ch _ => ch
  | .escaped ch _ => ch

abbrev RawString := List RawChar

def RawString.text (raw : RawString) : List Char := raw.flatMap RawChar.text

/-- What would be stored of a string if there were room for all of it. -/
def RawString.stored (raw : RawString) : List Char := raw.map RawChar.stored

theorem CStr.push_val {n : Nat} (dst : CStr n) (ch : Char) : (dst.push ch).1 = (dst.1 ++ [ch]).take (n - 1) := by
  have hlen := dst.2
  unfold CStr.push
  split
  · rw [List.take_of_length_le (by rw [List.length_append, List.length_singleton]; omega)]
  · rw [List.take_append_of_le_length (by omega), List.take_of_length_le (by omega)]

/-- The characters that there is no room for are dropped. -/
theorem foldl_push {n : Nat} (chars : List Char) (dst : CStr n) :
    (chars.foldl CStr.push dst).1 = (dst.1 ++ chars).take (n - 1) := by
  induction chars generalizing dst with
  | nil =>
    have hlen := dst.2
    rw [List.foldl_nil, List.append_nil, List.take_of_length_le (by omega)]
  | cons ch chars ih =>
    rw [List.foldl_cons, ih, CStr.push_val, List.append_cons dst.1 ch chars]
    by_cases hlen : (dst.1 ++ [ch]).length ≤ n - 1
    · rw [List.take_of_length_le hlen]
    · rw [List.take_append_of_le_length (by rw [List.length_take]; omega), List.take_take, Nat.min_self]
      exact (List.take_append_of_le_length (by omega)).symm

section Loop

variable {n : Nat} {dst dst' : CStr n} {s t : List Char} {ch : Char}

theorem readJsonLoop_plain (h : ch ≠ '\x00' ∧ ch ≠ '\\' ∧ ch ≠ '"') :
    readJsonLoop dst (ch :: s) = readJsonLoop (dst.push ch) s := by
  rw [readJsonLoop.eq_def]
  simp [h]

theorem readJsonLoop_escaped (h : ch ≠ '\x00') :
    readJsonLoop dst ('\\' :: ch :: s) = readJsonLoop (dst.push ch) s := by
  rw [readJsonLoop.eq_def]
  simp [h]

theorem readJsonLoop_quote : readJsonLoop dst ('"' :: s) = some (dst, s) := by
  rw [readJsonLoop.eq_def]
  simp

/-- What the loop of `read_json_string` reads. -/
theorem readJsonLoop_iff : readJsonLoop dst s = some (dst', t) ↔
    ∃ raw : RawString, s = raw.text ++ '"' :: t ∧ dst' = raw.stored.foldl CStr.push dst := by
  constructor
  · intro h
    fun_induction readJsonLoop dst s with
    | case1 => cases h
    | case2 => cases h
    | case3 => cases h
    | case4 => cases h
    | case5 dst ch' s' _ hne ih =>
      obtain ⟨raw, rfl, rfl⟩ := ih h
      exact ⟨.escaped ch' ‹_› :: raw, rfl, rfl⟩
    | case6 dst s =>
      obtain ⟨rfl, rfl⟩ := Prod.mk.inj (Option.some.inj h)
      exact ⟨[], rfl, rfl⟩
    | case7 dst ch s h0 hb hq ih =>
      obtain ⟨raw, rfl, rfl⟩ := ih h
      exact ⟨.plain ch ⟨h0, hb, hq⟩ :: raw, rfl, rfl⟩
  · rintro ⟨raw, rfl, rfl⟩
    induction raw generalizing dst with
    | nil => exact readJsonLoop_quote
    | cons c raw ih =>
      cases c with
      | plain ch h => exact (readJsonLoop_plain h).trans ih
      | escaped ch h => exact (readJsonLoop_escaped h).trans ih

theorem readJsonLoop_terminated (dst : CStr n) (s behind : List Char) :
    readJsonLoop dst (terminated s behind) = (readJsonLoop dst s).map fun r => (r.1, terminated r.2 behind) := by
  fun_induction readJsonLoop dst s with
  | case1 dst => rw [terminated_nil, readJsonLoop.eq_def]; simp
  | case2 dst s => rw [terminated_cons, readJsonLoop.eq_def]; simp
  | case3 dst => rw [terminated_cons, readJsonLoop.eq_def]; simp
  | case4 dst s => rw [terminated_cons, terminated_cons, readJsonLoop.eq_def]; simp
  | case5 dst ch' s' _ hne ih => rw [terminated_cons, terminated_cons, readJsonLoop_escaped ‹_›, ih]
  | case6 dst s => rw [terminated_cons, readJsonLoop_quote]; rfl
  | case7 dst ch s h0 hb hq ih => rw [terminated_cons, readJsonLoop_plain ⟨h0, hb, hq⟩, ih]

end Loop

/-- A string, with white space in front of it, is read up to its closing quote and stored as far as there is room. -/
theorem readJsonString_iff {n : Nat} {dst : CStr (n + 1)} {s t : List Char} : readJsonString s = some (dst, t) ↔
    ∃ blanks, ∃ raw : RawString, Blank blanks ∧ s = blanks ++ '"' :: (raw.text ++ '"' :: t) ∧
      dst.1 = raw.stored.take n := by
  have hstored : ∀ raw : RawString,
      (raw.stored.foldl CStr.push (⟨[], Nat.succ_pos n⟩ : CStr (n + 1))).1 = raw.stored.take n := fun raw => by
    rw [foldl_push, List.nil_append, Nat.add_sub_cancel]
  constructor
  · intro h
    unfold readJsonString at h
    split at h
    · rename_i r hr
      obtain ⟨raw, rfl, rfl⟩ := readJsonLoop_iff.1 h
      obtain ⟨blanks, hb, hs⟩ := skipWs_split s
      exact ⟨blanks, raw, hb, by rw [hs, hr], hstored raw⟩
    · cases h
  · rintro ⟨blanks, raw, hb, rfl, hdst⟩
    have hdst' : dst = raw.stored.foldl CStr.push (⟨[], Nat.succ_pos n⟩ : CStr (n + 1)) :=
      Subtype.ext (hdst.trans (hstored raw).symm)
    rw [readJsonString, skipWs_blank hb, skipWs_cons (by decide)]
    exact readJsonLoop_iff.2 ⟨raw, rfl, hdst'⟩

theorem readJsonString_eq {n : Nat} (s : List Char) : (readJsonString s : Option (CStr (n + 1) × List Char)) =
    if deref (skipWs s) = '"' then readJsonLoop ⟨[], Nat.succ_pos n⟩ (skipWs s).tail else none := by
  unfold readJsonString
  split
  · rename_i r hr
    rw [hr]
    rfl
  · rename_i hne
    rw [if_neg]
    intro hq
    cases h : skipWs s with
    | nil => rw [h] at hq; cases hq
    | cons ch r =>
      rw [h] at hq
      exact hne r (by rw [h, show ch = '"' from hq])

theorem readJsonString_terminated {n : Nat} (s behind : List Char) :
    (readJsonString (terminated s behind) : Option (CStr (n + 1) × List Char)) =
      (readJsonString s).map fun r => (r.1, terminated r.2 behind) := by
  rw [readJsonString_eq, readJsonString_eq, skipWs_terminated, deref_terminated]
  split
  · rename_i hq
    rw [tail_terminated (by rw [hq]; decide), readJsonLoop_terminated]
  · rfl

/-! ## JSON strings -/

/-- How `read_json_string` takes the characters of a JSON string. -/
def rawOf : JsonChar → RawString
  | .plain c h => [.plain c ⟨by rintro rfl; revert h; decide, h.2.2, h.2.1⟩]
  | .escape e => [.escaped e.letter (by cases e <;> decide)]
  | .unicode a b c d =>
    [.escaped 'u' (by decide), .plain a.1 (hexDigit_raw a), .plain b.1 (hexDigit_raw b), .plain c.1 (hexDigit_raw c),
      .plain d.1 (hexDigit_raw d)]

/-- A JSON string as `read_json_string` takes it. -/
def rawString (s : JsonString) : RawString := s.flatMap rawOf

/-- What is stored of a JSON string if there is room: its text without the backslashes of the escapes. -/
def unescaped (s : JsonString) : List Char := (rawString s).stored

theorem text_rawOf (c : JsonChar) : (rawOf c).text = c.text := by cases c <;> rfl

theorem text_raw (s : JsonString) : (rawString s).text = s.text := by
  rw [rawString, RawString.text, JsonString.text, List.flatMap_assoc]
  exact List.flatMap_congr fun c _ => text_rawOf c

/-- A JSON string is read up to its closing quote. -/
theorem readJsonString_quoted {n : Nat} {str : JsonString} {s t : List Char} (h : Reads [str.quoted] s t) :
    readJsonString s = some ((CStr.copy (unescaped str) : CStr (n + 1)), t) := by
  obtain ⟨blanks, r, hb, rfl, rfl⟩ := h
  refine readJsonString_iff.2 ⟨blanks, rawString str, hb, ?_, rfl⟩
  simp [JsonString.quoted, text_raw]

/-! ## Members -/

section Members

variable {s p behind : List Char} {id : Word}

theorem jsonHasId_none (h : strstr "\"id\"".toList s = none) : jsonHasId s id = false := by
  rw [jsonHasId.eq_def]
  split
  · rfl
  · rename_i p hp
    rw [h] at hp
    cases hp

theorem jsonHasId_some (h : strstr "\"id\"".toList s = some p) : jsonHasId s id =
    if deref (skipWs (p.drop 4)) ≠ ':' then jsonHasId (skipWs (p.drop 4)) id
    else if (strtoul10 (skipWs (skipWs (p.drop 4)).tail)).1 = id then true
    else jsonHasId (skipWs (skipWs (p.drop 4)).tail) id := by
  rw [jsonHasId.eq_def]
  split
  · rename_i hp
    rw [h] at hp
    cases hp
  · rename_i p' hp
    rw [h] at hp
    obtain rfl := Option.some.inj hp
    rfl

theorem skipWs_drop_terminated {needle : List Char} (h : strstr needle s = some p) (behind : List Char) :
    skipWs ((terminated p behind).drop needle.length) = terminated (skipWs (p.drop needle.length)) behind := by
  rw [drop_terminated (strstr_suffix h).2.length_le, skipWs_terminated]

/-- The first occurrence of a member's name, in the memory of the line. -/
theorem strstr_found_terminated {name p : List Char} (hname : '\x00' ∉ name) (h : strstr name s = some p)
    (behind : List Char) : strstr name (terminated s behind) = some (terminated p behind) := by
  rw [strstr_terminated hname, h, Option.map_some]

/-- The text behind a colon and blanks. -/
theorem behind_colon_terminated {p : List Char} (hcolon : ¬ deref p ≠ ':') (behind : List Char) :
    skipWs (terminated p behind).tail = terminated (skipWs p.tail) behind := by
  rw [tail_terminated (fun h0 => hcolon (by rw [h0]; decide)), skipWs_terminated]

theorem jsonHasId_terminated (s behind : List Char) (id : Word) :
    jsonHasId (terminated s behind) id = jsonHasId s id := by
  fun_induction jsonHasId s id with
  | case1 s h => exact jsonHasId_none (by rw [strstr_terminated (by decide), h, Option.map_none])
  | case2 s p h p' hcolon ih =>
    have hs := strstr_found_terminated (by decide) h behind
    have hp : skipWs ((terminated p behind).drop 4) = terminated p' behind := skipWs_drop_terminated h behind
    rw [jsonHasId_some hs, hp, deref_terminated, if_pos hcolon, ih]
  | case3 s p h p' hcolon p'' hid =>
    have hs := strstr_found_terminated (by decide) h behind
    have hp : skipWs ((terminated p behind).drop 4) = terminated p' behind := skipWs_drop_terminated h behind
    rw [jsonHasId_some hs, hp, deref_terminated, if_neg hcolon, behind_colon_terminated hcolon, strtoul10_terminated,
      if_pos hid]
  | case4 s p h p' hcolon p'' hid ih =>
    have hs := strstr_found_terminated (by decide) h behind
    have hp : skipWs ((terminated p behind).drop 4) = terminated p' behind := skipWs_drop_terminated h behind
    rw [jsonHasId_some hs, hp, deref_terminated, if_neg hcolon, behind_colon_terminated hcolon, strtoul10_terminated,
      if_neg hid, ih]

theorem jsonMethodIs_terminated (s behind method : List Char) :
    jsonMethodIs (terminated s behind) method = jsonMethodIs s method := by
  rw [jsonMethodIs, jsonMethodIs, strstr_terminated (by decide)]
  cases h : strstr "\"method\"".toList s with
  | none => rfl
  | some p =>
    have hp : skipWs ((terminated p behind).drop 8) = terminated (skipWs (p.drop 8)) behind := skipWs_drop_terminated h behind
    rw [Option.map_some]
    dsimp only
    rw [hp, deref_terminated]
    split
    · rfl
    · rename_i hcolon
      rw [tail_terminated (fun h0 => hcolon (by rw [h0]; decide)), readJsonString_terminated]
      cases (readJsonString (skipWs (p.drop 8)).tail : Option (CStr 64 × List Char)) <;> rfl

end Members

end Vek280Miner.Sw
