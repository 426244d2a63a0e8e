import Vek280Miner.Software.JsonLine

/-!
# Members of a response

What the readers of `handle_stratum_line` find in the text of a JSON object. A member whose name is spelled without
escapes stands behind a brace or a comma (`text_member`), so `json_has_id` does not miss it (`jsonHasId_member`).
-/

namespace Vek280Miner.Sw

variable {s t : List Char}

/-! ## Numbers -/

/-- The digits of a number. -/
theorem rowValue_toDigits (n : Nat) : rowValue (Nat.toDigits 10 n) = n := by
  simpa [rowValue, Nat.ofDigitChars, Nat.mul_comm] using Nat.ofDigitChars_ten_toDigits (n := n)

theorem isDigit_toDigits (n : Nat) : ∀ c ∈ Nat.toDigits 10 n, isDigit c = true := fun _ hc =>
  Nat.isDigit_of_mem_toDigits (by decide) (by decide) hc

/-- Of a number in JSON it reads the part in front of the point. -/
theorem strtoul10_number {n : JsonNumber} (hn : n.negative = false) {r : List Char} (hr : isDigit (deref r) = false) :
    (strtoul10 (n.text ++ r)).1 = saturate n.int := by
  have hexp : isDigit (deref (n.exp.elim [] JsonExp.text ++ r)) = false := by
    cases n.exp with
    | none => exact hr
    | some e =>
      show isDigit (if e.upper then 'E' else 'e') = false
      split <;> decide
  have hfrac : isDigit (deref ((if n.frac = [] then [] else '.' :: digitsText n.frac) ++ (n.exp.elim [] JsonExp.text ++ r))) =
      false := by
    split
    · exact hexp
    · rfl
  have htext : n.text ++ r = Nat.toDigits 10 n.int ++
      ((if n.frac = [] then [] else '.' :: digitsText n.frac) ++ (n.exp.elim [] JsonExp.text ++ r)) := by
    simp [JsonNumber.text, hn]
  rw [htext, strtoul10_row Nat.toDigits_ne_nil (isDigit_toDigits n.int) hfrac, rowValue_toDigits]

/-- A number begins with a digit. -/
theorem number_first {n : JsonNumber} (hn : n.negative = false) : n.text ≠ [] ∧ isBlank (deref n.text) = false := by
  obtain ⟨d, l, hd⟩ := List.exists_cons_of_ne_nil (Nat.toDigits_ne_nil (n := n.int) (b := 10))
  have hdigit : d.isDigit = true :=
    Nat.isDigit_of_mem_toDigits (b := 10) (n := n.int) (by decide) (by decide) (by rw [hd]; exact List.mem_cons_self)
  have htext : n.text = d :: (l ++ ((if n.frac = [] then [] else '.' :: digitsText n.frac) ++ n.exp.elim [] JsonExp.text)) := by
    simp [JsonNumber.text, hn, hd]
  rw [htext]
  refine ⟨List.cons_ne_nil _ _, ?_⟩
  rw [deref_cons, ← Bool.not_eq_true]
  intro hb
  rcases isBlank_iff.1 hb with rfl | rfl | rfl | rfl <;> exact absurd hdigit (by decide)

/-! ## Members -/

/-- A lexeme of a text is part of it. -/
theorem reads_contains {l : List Char} {ls : List (List Char)} (h : Reads ls s t) (hl : l ∈ ls) : l <:+: s := by
  induction ls generalizing s with
  | nil => cases hl
  | cons l' ls ih =>
    obtain ⟨blanks, r, -, rfl, h⟩ := h
    rcases List.mem_cons.1 hl with rfl | hl
    · exact ⟨blanks, r, by simp⟩
    · exact (ih h hl).trans ⟨blanks ++ l', [], by simp⟩

/-- What ends in a lexeme of one character. -/
theorem reads_last {c : Char} {ls : List (List Char)} (h : Reads (ls ++ [[c]]) s t) : ∃ a, s = a ++ [c] ++ t := by
  obtain ⟨r, hr, blanks, u, -, rfl, rfl⟩ := reads_append.1 h
  obtain ⟨a, rfl⟩ := hr.suffix
  exact ⟨a ++ blanks, by simp⟩

/-- The text of an object up to a member. -/
theorem text_member {members : List (JsonString × Json)} {m : JsonString × Json} {text : List Char} (hm : m ∈ members)
    (h : (Json.obj members).Text text) : ∃ a s rest, text = a ++ s ∧ (a.getLast? = some '{' ∨ a.getLast? = some ',') ∧
      Reads (lexemesOf m) s rest ∧ isDigit (deref rest) = false := by
  obtain ⟨pre, post, rfl⟩ := List.append_of_mem hm
  obtain ⟨blanks, -, h⟩ := h
  have hlexemes : (Json.obj (pre ++ m :: post)).lexemes =
      ([['{']] ++ (pre.map lexemesOf).flatMap (· ++ [[',']])) ++
        (lexemesOf m ++ ((post.map lexemesOf).flatMap ([','] :: ·) ++ [['}']])) := by
    rw [Json.lexemes, memberLexemes_eq_map, List.map_append, List.map_cons, commaSep_split]
    simp
  rw [hlexemes] at h
  obtain ⟨s, hfront, h⟩ := reads_append.1 h
  obtain ⟨rest, hmember, hback⟩ := reads_append.1 h
  have hrest : isDigit (deref rest) = false := by
    have hfirst : isBlank (deref rest) = true ∨ deref rest = ',' ∨ deref rest = '}' := by
      cases post with
      | nil =>
        have hback : Reads [['}']] rest blanks := hback
        exact (deref_reads hback (by simp)).imp_right .inr
      | cons m' post =>
        have hback : Reads ([','] :: (lexemesOf m' ++ (post.map lexemesOf).flatMap ([','] :: ·) ++ [['}']])) rest
          blanks := hback
        exact (deref_reads hback (by simp)).imp_right .inl
    rcases hfirst with hb | hc | hc
    · rcases isBlank_iff.1 hb with hc | hc | hc | hc <;> rw [hc] <;> decide
    · rw [hc]
      decide
    · rw [hc]
      decide
  -- the lexeme in front of the member
  obtain ⟨c, ls, hls, hc⟩ :
      ∃ c ls, [['{']] ++ (pre.map lexemesOf).flatMap (· ++ [[',']]) = ls ++ [[c]] ∧ (c = '{' ∨ c = ',') := by
    rcases List.eq_nil_or_concat pre with rfl | ⟨pre', m', rfl⟩
    · exact ⟨'{', [], rfl, .inl rfl⟩
    · refine ⟨',', [['{']] ++ ((pre'.map lexemesOf).flatMap (· ++ [[',']]) ++ lexemesOf m'), ?_, .inr rfl⟩
      simp
  rw [hls] at hfront
  obtain ⟨a, rfl⟩ := reads_last hfront
  refine ⟨a ++ [c], s, rest, rfl, ?_, hmember, hrest⟩
  rcases hc with rfl | rfl
  · exact .inl (by simp)
  · exact .inr (by simp)

/-! ## `json_has_id` -/

/-- White space is skipped up to a quote that follows. -/
theorem skipWs_quote (a r : List Char) : ∃ a', a' <:+ a ∧ skipWs (a ++ '"' :: r) = a' ++ '"' :: r := by
  obtain ⟨blanks, hb, ha⟩ := skipWs_split a
  refine ⟨skipWs a, ⟨blanks, ha.symm⟩, ?_⟩
  have hfirst := deref_skipWs a
  rw [show a ++ '"' :: r = blanks ++ (skipWs a ++ '"' :: r) by rw [← List.append_assoc, ← ha], skipWs_blank hb]
  cases h : skipWs a with
  | nil => exact skipWs_cons (by decide) r
  | cons c a' =>
    rw [h] at hfirst
    exact skipWs_cons (show isBlank c = false from hfirst) _

/-- No suffix ends in another character. -/
theorem getLast_suffix {a y : List Char} {c : Char} (h : y <:+ a) (ha : a.getLast? ≠ some c) : y.getLast? ≠ some c := by
  obtain ⟨z, rfl⟩ := h
  intro hy
  exact ha (by rw [List.getLast?_append, hy]; rfl)

/-- An occurrence of `"id"` in front of another one ends before it, unless the two share a quote. -/
theorem id_prefix {x r : List Char} (h : "\"id\"".toList <+: x ++ ("\"id\"".toList ++ r)) (hx : x ≠ [])
    (hlast : x.getLast? ≠ some 'd') : "\"id\"".toList <+: x := by
  replace h : ['"', 'i', 'd', '"'] <+: x ++ '"' :: 'i' :: 'd' :: '"' :: r := h
  obtain _ | ⟨c1, _ | ⟨c2, _ | ⟨c3, _ | ⟨c4, y⟩⟩⟩⟩ := x
  · exact absurd rfl hx
  · simp [List.cons_prefix_cons] at h
  · simp [List.cons_prefix_cons] at h
  · simp only [List.cons_append, List.nil_append, List.cons_prefix_cons] at h
    obtain ⟨-, -, rfl, -⟩ := h
    exact absurd rfl hlast
  · simp only [List.cons_append, List.cons_prefix_cons] at h
    obtain ⟨rfl, rfl, rfl, rfl, -⟩ := h
    exact ⟨y, rfl⟩

/-- A member `"id"` that has the value is not missed. -/
theorem jsonHasId_found {id : Word} {r : List Char} (hcolon : deref (skipWs r) = ':')
    (hid : (strtoul10 (skipWs (skipWs r).tail)).1 = id) (a : List Char) (h0 : '\x00' ∉ a) (hlast : a.getLast? ≠ some 'd') :
    jsonHasId (a ++ ("\"id\"".toList ++ r)) id = true := by
  induction hlen : a.length using Nat.strong_induction_on generalizing a with
  | _ n ih =>
    -- the text behind the next occurrence
    have hnext : ∀ y, y <:+ a → y.length < a.length → jsonHasId (y ++ ("\"id\"".toList ++ r)) id = true :=
      fun y hy hlt => ih y.length (hlen ▸ hlt) y (fun hmem => h0 (hy.subset hmem)) (getLast_suffix hy hlast) rfl
    have hfirst : deref ("\"id\"".toList ++ r) ≠ '\x00' := show '"' ≠ '\x00' by decide
    obtain ⟨p, hp, x, hx⟩ := strstr_append h0 hfirst (List.prefix_append "\"id\"".toList r)
    obtain ⟨a0, ha, hpre, -⟩ := strstr_eq_some hp
    have ha : a = a0 ++ x := List.append_cancel_right (ha.trans (by rw [← hx, List.append_assoc]))
    have hsuffix : x <:+ a := ⟨a0, ha.symm⟩
    rw [jsonHasId_some hp]
    by_cases hnil : x = []
    · have hdrop : p.drop 4 = r := by
        rw [← hx, hnil]
        rfl
      rw [hdrop, if_neg (by simp [hcolon]), if_pos hid]
    · rw [← hx] at hpre
      obtain ⟨y, hy⟩ := id_prefix hpre hnil (getLast_suffix hsuffix hlast)
      have hdrop : p.drop 4 = y ++ '"' :: ("id\"".toList ++ r) := by
        rw [← hx, ← hy]
        rfl
      have hylen : y.length < a.length := by
        have hle := hsuffix.length_le
        rw [← hy, List.length_append] at hle
        exact Nat.lt_of_lt_of_le (Nat.lt_add_of_pos_left (by decide)) hle
      have hysuffix : y <:+ a := (List.suffix_append _ y).trans (hy ▸ hsuffix)
      obtain ⟨y1, hy1, hskip⟩ := skipWs_quote y ("id\"".toList ++ r)
      rw [hdrop, hskip]
      split
      · exact hnext y1 (hy1.trans hysuffix) (Nat.lt_of_le_of_lt hy1.length_le hylen)
      · rename_i hc
        cases y1 with
        | nil => exact absurd (show '"' ≠ ':' by decide) hc
        | cons c y1 =>
          obtain ⟨y2, hy2, hskip2⟩ := skipWs_quote y1 ("id\"".toList ++ r)
          have htail : y2 <:+ y := hy2.trans ((List.suffix_cons c y1).trans hy1)
          rw [List.cons_append, List.tail_cons, hskip2]
          split
          · rfl
          · exact hnext y2 (htail.trans hysuffix) (Nat.lt_of_le_of_lt htail.length_le hylen)

/-! ## Members that are spelled without escapes -/

/-- A member `id` whose name and number are spelled as usual. -/
def PlainId (id : Nat) (members : List (JsonString × Json)) : Prop :=
  ∃ key n, (key, Json.num n) ∈ members ∧ key.text = "id".toList ∧ n.negative = false ∧ n.int = id

/-- `json_has_id` finds it. -/
theorem PlainId.jsonHasId {id : Nat} {members : List (JsonString × Json)} {text : List Char} (h : PlainId id members)
    (hid : id < 2 ^ 32) (htext : (Json.obj members).Text text) : jsonHasId text (BitVec.ofNat 32 id) = true := by
  obtain ⟨key, n, hmem, hkey, hneg, rfl⟩ := h
  obtain ⟨a, s, rest, rfl, hlast, hreads, hrest⟩ := text_member hmem htext
  have h0 : '\x00' ∉ a := fun hmem => htext.no_zero (List.mem_append_left s hmem)
  obtain ⟨_, ⟨blanks, r, hb, rfl, rfl⟩, hreads⟩ := reads_cons.1 hreads
  obtain ⟨r2, hcolon, hreads⟩ := reads_cons.1 hreads
  rw [Json.lexemes] at hreads
  have hskip : skipWs r = ':' :: r2 := skipWs_reads_one hcolon (by decide)
  obtain ⟨hne, hblank⟩ := number_first hneg
  have hvalue : skipWs r2 = n.text ++ rest := skipWs_reads hreads hne hblank
  have hnolast : (a ++ blanks).getLast? ≠ some 'd' := by
    rw [List.getLast?_append]
    cases hbl : blanks.getLast? with
    | none => rcases hlast with h | h <;> rw [h] <;> decide
    | some c =>
      intro hd
      obtain rfl : c = 'd' := Option.some.inj hd
      exact absurd (hb _ (List.mem_of_getLast? hbl)) (by decide)
  have hkey' : a ++ (blanks ++ (key.quoted ++ r)) = (a ++ blanks) ++ ("\"id\"".toList ++ r) := by
    rw [JsonString.quoted, hkey, List.append_assoc]
    rfl
  rw [hkey']
  refine jsonHasId_found (by rw [hskip, deref_cons]) ?_ (a ++ blanks) ?_ hnolast
  · rw [hskip, List.tail_cons, hvalue, strtoul10_number hneg hrest, saturate, if_neg (by omega)]
  · rw [List.mem_append, not_or]
    exact ⟨h0, fun hmem => absurd (hb _ hmem) (by decide)⟩

/-- The value of a member behind its name. -/
theorem result_behind {members : List (JsonString × Json)} {key : JsonString} {j : Json} {l : List Char}
    (hmem : (key, j) ∈ members) (hkey : key.text = "result".toList) (hl : l ∈ j.lexemes) {text : List Char}
    (htext : (Json.obj members).Text text) : ∃ s, s <:+ text ∧ "\"result\"".toList <+: s ∧ l <:+: s := by
  obtain ⟨a, s, rest, rfl, -, hreads, -⟩ := text_member hmem htext
  obtain ⟨_, ⟨blanks, r, hb, rfl, rfl⟩, hreads⟩ := reads_cons.1 hreads
  obtain ⟨r2, hcolon, hreads⟩ := reads_cons.1 hreads
  refine ⟨key.quoted ++ r, ⟨a ++ blanks, by simp⟩, ?_, ?_⟩
  · rw [JsonString.quoted, hkey]
    exact ⟨r, rfl⟩
  · exact (reads_contains hreads hl).trans (hcolon.suffix.isInfix.trans (List.suffix_append key.quoted r).isInfix)

end Vek280Miner.Sw
