import Vek280Miner.Software.LineText

/-!
# JSON lexemes in a line

What the readers do at the lexemes of a JSON text (`Reads`): white space and punctuation, a string
(`paramsString_reads`), an array of strings (`merkleArrayLoop_reads`), and a member name that is looked for
(`strstr_reads_skip`, `strstr_reads_found`).
-/

namespace Vek280Miner.Sw

variable {s t u : List Char} {l : List Char} {ls : List (List Char)} {ch : Char}

/-! ## The first character -/

theorem isBlank_ne_zero {c : Char} (h : isBlank c = true) : c ≠ '"' ∧ c ≠ '\x00' := by
  rcases isBlank_iff.1 h with rfl | rfl | rfl | rfl <;> decide

/-- A text that begins with a lexeme begins with white space or with the first character of the lexeme. -/
theorem deref_reads (h : Reads (l :: ls) s t) (hl : l ≠ []) : isBlank (deref s) = true ∨ deref s = deref l := by
  obtain ⟨blanks, r, hb, rfl, -⟩ := h
  cases blanks with
  | nil =>
    cases l with
    | nil => exact absurd rfl hl
    | cons c l => exact .inr rfl
  | cons c blanks => exact .inl (hb c List.mem_cons_self)

theorem deref_reads_ne {k : Char} (h : Reads (l :: ls) s t) (hl : l ≠ []) (hk : isBlank k = false) (hne : deref l ≠ k) :
    deref s ≠ k := by
  rcases deref_reads h hl with hb | hd
  · rintro rfl
    rw [hk] at hb
    cases hb
  · rw [hd]
    exact hne

theorem skipWs_reads (h : Reads [l] s t) (hl : l ≠ []) (hb : isBlank (deref l) = false) : skipWs s = l ++ t := by
  obtain ⟨blanks, r, hblanks, rfl, rfl⟩ := h
  rw [skipWs_blank hblanks]
  cases l with
  | nil => exact absurd rfl hl
  | cons c l => exact skipWs_cons hb _

/-- White space in front of a lexeme can be skipped. -/
theorem reads_skipWs (h : Reads [l] s t) (hl : l ≠ []) (hb : isBlank (deref l) = false) : Reads [l] (skipWs s) t :=
  ⟨[], t, blank_nil, (skipWs_reads h hl hb).trans (List.nil_append _).symm, rfl⟩

/-- A lexeme of one character. -/
theorem skipWs_reads_one (h : Reads [[ch]] s t) (hb : isBlank ch = false) : skipWs s = ch :: t :=
  skipWs_reads h (by simp) hb

theorem skipComma_reads (h : Reads [[',']] s t) : skipComma s = t := by
  rw [skipComma, skipWs_reads_one h (by decide), deref_cons, if_pos rfl, List.tail_cons]

/-! ## Names -/

/-- The lexeme of a name without escapes. -/
def nameLexeme (name : List Char) : List Char := '"' :: (name ++ ['"'])

/-- The names and the method that messages of the pool have in common. -/
def idName : JsonString := .ofText "id".toList (by decide)

def resultName : JsonString := .ofText "result".toList (by decide)

def errorName : JsonString := .ofText "error".toList (by decide)

def notifyMethod : JsonString := .ofText "mining.notify".toList (by decide)

/-- Lexemes without quotes are skipped when a name is looked for. -/
theorem strstr_reads_plain {needle : List Char} (h : Reads [l] s t) (hl : ∀ c ∈ l, c ≠ '"' ∧ c ≠ '\x00') :
    strstr ('"' :: needle) s = strstr ('"' :: needle) t := by
  obtain ⟨blanks, r, hb, rfl, rfl⟩ := h
  rw [strstr_skip fun c hc => isBlank_ne_zero (hb c hc), strstr_skip hl]

/-- So is a name with another first letter. -/
theorem strstr_reads_name {k : Char} {needle name : List Char} (h : Reads [nameLexeme name] s t)
    (hname : ∀ c ∈ name, c ≠ '"' ∧ c ≠ '\x00') (hfirst : deref name ≠ k) (hk : k ≠ '"') (hnext : deref t ≠ k) :
    strstr ('"' :: k :: needle) s = strstr ('"' :: k :: needle) t := by
  obtain ⟨blanks, r, hb, rfl, rfl⟩ := h
  rw [strstr_skip fun c hc => isBlank_ne_zero (hb c hc)]
  have htext : nameLexeme name ++ r = '"' :: (name ++ '"' :: r) := by simp [nameLexeme]
  rw [htext, strstr_skip_string hname hfirst hk hnext]

/-- The name itself is found. -/
theorem strstr_reads_found {name : List Char} (h : Reads [nameLexeme name] s t) :
    strstr (nameLexeme name) s = some (nameLexeme name ++ t) := by
  obtain ⟨blanks, r, hb, rfl, rfl⟩ := h
  have hpre : (nameLexeme name).isPrefixOf (nameLexeme name ++ r) = true :=
    List.isPrefixOf_iff_prefix.2 (List.prefix_append _ r)
  rw [nameLexeme, List.cons_append] at hpre
  rw [nameLexeme, strstr_skip fun c hc => isBlank_ne_zero (hb c hc), List.cons_append, strstr, if_neg (by decide), hpre,
    if_pos rfl]

theorem strchr_skip {a : List Char} (h : ∀ c ∈ a, c ≠ ch ∧ c ≠ '\x00') (s : List Char) :
    strchr ch (a ++ s) = strchr ch s := by
  induction a with
  | nil => rfl
  | cons c a ih =>
    obtain ⟨hne, h0⟩ := h c List.mem_cons_self
    rw [List.cons_append, strchr, if_neg hne, if_neg h0, ih fun c' hc => h c' (List.mem_cons_of_mem c hc)]

theorem strchr_reads (h : Reads [l] s t) (hl : ∀ c ∈ l, c ≠ ch ∧ c ≠ '\x00') (hb : isBlank ch = false) :
    strchr ch s = strchr ch t := by
  obtain ⟨blanks, r, hblanks, rfl, rfl⟩ := h
  rw [strchr_skip fun c hc => ⟨fun heq => ?_, (isBlank_ne_zero (hblanks c hc)).2⟩, strchr_skip hl]
  rw [← heq, hblanks c hc] at hb
  cases hb

theorem strchr_reads_found (h : Reads [[ch]] s t) (hb : isBlank ch = false) : strchr ch s = some (ch :: t) := by
  obtain ⟨blanks, r, hblanks, rfl, rfl⟩ := h
  rw [strchr_skip fun c hc => ⟨fun heq => ?_, (isBlank_ne_zero (hblanks c hc)).2⟩, List.singleton_append, strchr,
    if_pos rfl]
  rw [← heq, hblanks c hc] at hb
  cases hb

/-! ## Strings -/

/-- A string and the comma behind it. -/
theorem paramsString_reads {n : Nat} {str : JsonString} (h : Reads [str.quoted, [',']] s t) :
    paramsString s = some ((CStr.copy (unescaped str) : CStr (n + 1)), t) := by
  obtain ⟨r, hstr, hcomma⟩ := reads_cons.1 h
  rw [paramsString, readJsonString_quoted (reads_skipWs hstr (by simp [JsonString.quoted]) rfl), Option.map_some]
  simp only [skipComma_reads hcomma]

theorem unescaped_ofText : ∀ (text : List Char) (h : ∀ c ∈ text, IsPrintable c), unescaped (JsonString.ofText text h) = text
  | [], _ => rfl
  | c :: text, h => by
    have ih := unescaped_ofText text fun c' hc => h c' (List.mem_cons_of_mem c hc)
    have hcons : unescaped (JsonString.ofText (c :: text) h) = (rawOf (JsonChar.ofChar c (h c List.mem_cons_self))).stored ++
        unescaped (JsonString.ofText text fun c' hc => h c' (List.mem_cons_of_mem c hc)) := by
      simp [unescaped, rawString, JsonString.ofText, RawString.stored]
    rw [hcons, ih]
    unfold JsonChar.ofChar
    split
    · rename_i hq
      rw [hq]
      rfl
    · split
      · rename_i hb
        rw [hb]
        rfl
      · rfl

/-- The branches of an array, as many as there are slots for. -/
theorem merkleArrayLoop_reads {strs : List JsonString} {slots : Nat} (hlen : strs.length ≤ slots)
    (h : Reads (commaSep (strs.map fun str => [str.quoted]) ++ [[']']]) s t) : ∃ hl,
      merkleArrayLoop slots s = some (⟨strs.map fun str => CStr.copy (unescaped str), hl⟩, t) := by
  induction strs generalizing slots s with
  | nil =>
    have hs : skipWs s = ']' :: t := skipWs_reads_one h (by decide)
    refine ⟨Nat.zero_le _, ?_⟩
    cases slots with
    | zero => rw [merkleArrayLoop, hs]; rfl
    | succ slots => rw [merkleArrayLoop, hs]; rfl
  | cons str strs ih =>
    obtain _ | slots := slots
    · simp at hlen
    have hslots : strs.length ≤ slots := Nat.le_of_succ_le_succ hlen
    refine ⟨by simpa using hlen, ?_⟩
    -- the string, and what stands in front of the next element
    obtain ⟨r, hstr, hrest⟩ : ∃ r, Reads [str.quoted] s r ∧ (strs = [] ∧ Reads [[']']] r t ∨
        strs ≠ [] ∧ Reads ([','] :: (commaSep (strs.map fun str => [str.quoted]) ++ [[']']])) r t) := by
      cases strs with
      | nil =>
        obtain ⟨r, hstr, hr⟩ := reads_append.1 (show Reads ([str.quoted] ++ [[']']]) s t from h)
        exact ⟨r, hstr, .inl ⟨rfl, hr⟩⟩
      | cons str' strs =>
        rw [List.map_cons, List.map_cons, commaSep_cons_cons, List.append_assoc] at h
        obtain ⟨r, hstr, hr⟩ := reads_append.1 h
        exact ⟨r, hstr, .inr ⟨by simp, hr⟩⟩
    have hopen : skipWs s = str.quoted ++ r := skipWs_reads hstr (by simp [JsonString.quoted]) rfl
    have hread : readJsonString (skipWs s) = some ((CStr.copy (unescaped str) : CStr 65), r) :=
      readJsonString_quoted (reads_skipWs hstr (by simp [JsonString.quoted]) rfl)
    have hne : deref (skipWs s) ≠ ']' := by
      rw [hopen]
      exact show '"' ≠ ']' by decide
    rw [merkleArrayLoop, if_neg hne, hread]
    dsimp only
    rcases hrest with ⟨rfl, hr⟩ | ⟨-, hr⟩
    · have hclose : skipWs r = ']' :: t := skipWs_reads_one hr (by decide)
      obtain ⟨hl, hloop⟩ := ih (s := skipWs r) hslots ⟨[], t, blank_nil, hclose, rfl⟩
      rw [hclose, deref_cons, if_neg (by decide), if_neg (by decide), ← hclose, hloop]
      rfl
    · obtain ⟨r', hcomma, hr'⟩ := reads_cons.1 hr
      have hcomma' : skipWs r = ',' :: r' := skipWs_reads_one hcomma (by decide)
      obtain ⟨hl, hloop⟩ := ih hslots hr'
      rw [hcomma', deref_cons, if_pos rfl, List.tail_cons, hloop]
      rfl

end Vek280Miner.Sw
