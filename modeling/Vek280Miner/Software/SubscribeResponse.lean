import Vek280Miner.Software.ResponseVerdict

/-!
# The response to a subscription (`parse_subscribe_response`)

The result of a subscription is an array of subscriptions, `extranonce1` and the size of `extranonce2`. The code takes
the last string and the last number of the array that begins at the first bracket behind the first text `"result"`,
whatever that is (`Offers`). `subscribedByResult_iff` says for which responses this is the subscription that the pool
grants.
-/

namespace Vek280Miner.Sw

variable {s t text behind : List Char} {depth : Int} {members : List (JsonString × Json)}

/-! ## Values in an array -/

/-- What is read on the way from `s` to `t` is in front of what is read from `t` on. -/
def Passes (depth : Int) (s t : List Char) : Prop := ∃ strs nums, ∀ strs' nums', Bracketed depth t strs' nums' →
  Bracketed depth s (strs ++ strs') (nums ++ nums')

theorem Passes.refl (depth : Int) (s : List Char) : Passes depth s s := ⟨[], [], fun _ _ h => h⟩

theorem Passes.trans {r : List Char} (h : Passes depth s r) (h' : Passes depth r t) : Passes depth s t := by
  obtain ⟨strs, nums, h⟩ := h
  obtain ⟨strs', nums', h'⟩ := h'
  refine ⟨strs ++ strs', nums ++ nums', fun strs'' nums'' ht => ?_⟩
  rw [List.append_assoc, List.append_assoc]
  exact h _ _ (h' _ _ ht)

theorem bracketed_blanks {blanks : List Char} {strs : List RawString} {nums : List Nat} (hb : Blank blanks) (hs : s ≠ [])
    (h : Bracketed depth s strs nums) : Bracketed depth (blanks ++ s) strs nums := by
  induction blanks with
  | nil => exact h
  | cons c blanks ih =>
    exact .blank (hb c List.mem_cons_self) (by simp [hs]) (ih fun c' hc => hb c' (List.mem_cons_of_mem c hc))

/-- Characters that the loop takes no notice of. -/
def Others (l : List Char) : Prop := ∀ c ∈ l, c ∉ ['\x00', ' ', '\t', '\r', '\n', '"', '[', ']'] ∧ isDigit c = false

instance (l : List Char) : Decidable (Others l) := inferInstanceAs (Decidable (∀ c ∈ l, _))

theorem Others.head {c : Char} {l : List Char} (h : Others (c :: l)) : OtherChar c := by
  have hc := (h c List.mem_cons_self).1
  simp only [List.mem_cons, List.not_mem_nil, or_false, not_or] at hc
  obtain ⟨h0, h1, h2, h3, h4, hq, ho, hcl⟩ := hc
  exact ⟨h0, by simp [isBlank, h1, h2, h3, h4], hq, ho, hcl⟩

theorem bracketed_others {l : List Char} {strs : List RawString} {nums : List Nat} (hl : Others l)
    (h : Bracketed depth s strs nums) : Bracketed depth (l ++ s) strs nums := by
  induction l with
  | nil => exact h
  | cons c l ih =>
    exact .other hl.head (hl c List.mem_cons_self).2 (ih fun c' hc => hl c' (List.mem_cons_of_mem c hc))

theorem skips_others {l : List Char} (h : Reads [l] s t) (hne : l ≠ []) (hl : Others l) : ∀ strs nums,
    Bracketed depth t strs nums → Bracketed depth s strs nums := by
  obtain ⟨blanks, r, hb, rfl, rfl⟩ := h
  exact fun strs nums ht => bracketed_blanks hb (by simp [hne]) (bracketed_others hl ht)

theorem passes_others {l : List Char} (h : Reads [l] s t) (hne : l ≠ []) (hl : Others l) : Passes depth s t :=
  ⟨[], [], skips_others h hne hl⟩

theorem passes_string {str : JsonString} (h : Reads [str.quoted] s t) : ∀ strs nums, Bracketed depth t strs nums →
    Bracketed depth s (rawString str :: strs) nums := by
  obtain ⟨blanks, r, hb, rfl, rfl⟩ := h
  intro strs nums ht
  refine bracketed_blanks hb (by simp [JsonString.quoted]) ?_
  have htext : str.quoted ++ r = '"' :: ((rawString str).text ++ '"' :: r) := by simp [JsonString.quoted, text_raw]
  rw [htext]
  exact .string (rawString str) ht

/-- The rows of digits of a number. -/
def rows (n : JsonNumber) : List Nat :=
  n.int :: ((if n.frac = [] then [] else [digitsValue10 n.frac]) ++
    n.exp.elim [] fun e => [digitsValue10 (e.digit :: e.digits)])

theorem rowValue_digitsText (l : List (Fin 10)) : rowValue (digitsText l) = digitsValue10 l := by
  have hdigit : ∀ d : Fin 10, d.1.digitChar.toNat - '0'.toNat = d.1 := by decide
  simp only [rowValue, digitsText, digitsValue10, List.foldl_map, hdigit]

theorem bracketed_digitsText {l : List (Fin 10)} {strs : List RawString} {nums : List Nat} (hl : l ≠ [])
    (hs : isDigit (deref s) = false) (h : Bracketed depth s strs nums) :
    Bracketed depth (digitsText l ++ s) strs (digitsValue10 l :: nums) := by
  rw [← rowValue_digitsText]
  exact .digits (by simpa [digitsText] using hl) (digitsText_isDigit l) hs h

theorem bracketed_exp {e : JsonExp} {strs : List RawString} {nums : List Nat} (hs : isDigit (deref s) = false)
    (h : Bracketed depth s strs nums) :
    Bracketed depth (e.text ++ s) strs (digitsValue10 (e.digit :: e.digits) :: nums) := by
  obtain ⟨upper, sign, digit, digits⟩ := e
  have hdigits : Bracketed depth (digitsText (digit :: digits) ++ s) strs (digitsValue10 (digit :: digits) :: nums) :=
    bracketed_digitsText (List.cons_ne_nil _ _) hs h
  obtain ⟨letters, htext, hletters⟩ : ∃ letters,
      JsonExp.text ⟨upper, sign, digit, digits⟩ = letters ++ digitsText (digit :: digits) ∧ Others letters := by
    rcases sign with _ | _ | _ <;> cases upper
    · exact ⟨['e'], rfl, by decide⟩
    · exact ⟨['E'], rfl, by decide⟩
    · exact ⟨['e', '+'], rfl, by decide⟩
    · exact ⟨['E', '+'], rfl, by decide⟩
    · exact ⟨['e', '-'], rfl, by decide⟩
    · exact ⟨['E', '-'], rfl, by decide⟩
  rw [htext, List.append_assoc]
  exact bracketed_others hletters hdigits

theorem bracketed_number {n : JsonNumber} {strs : List RawString} {nums : List Nat} (hs : isDigit (deref s) = false)
    (h : Bracketed depth s strs nums) : Bracketed depth (n.text ++ s) strs (rows n ++ nums) := by
  obtain ⟨negative, int, frac, exp⟩ := n
  -- from the last part to the first
  obtain ⟨hexp, hexp'⟩ : Bracketed depth (exp.elim [] JsonExp.text ++ s) strs
      ((exp.elim [] fun e => [digitsValue10 (e.digit :: e.digits)]) ++ nums) ∧
        isDigit (deref (exp.elim [] JsonExp.text ++ s)) = false := by
    cases exp with
    | none => exact ⟨h, hs⟩
    | some e =>
      refine ⟨bracketed_exp hs h, ?_⟩
      show isDigit (if e.upper then 'E' else 'e') = false
      split <;> decide
  obtain ⟨hfrac, hfrac'⟩ : Bracketed depth ((if frac = [] then [] else '.' :: digitsText frac) ++
      (exp.elim [] JsonExp.text ++ s)) strs ((if frac = [] then [] else [digitsValue10 frac]) ++
        ((exp.elim [] fun e => [digitsValue10 (e.digit :: e.digits)]) ++ nums)) ∧
        isDigit (deref ((if frac = [] then [] else '.' :: digitsText frac) ++ (exp.elim [] JsonExp.text ++ s))) = false := by
    by_cases hf : frac = []
    · rw [if_pos hf, if_pos hf]
      exact ⟨hexp, hexp'⟩
    · rw [if_neg hf, if_neg hf]
      exact ⟨bracketed_others (l := ['.']) (by decide) (bracketed_digitsText hf hexp' hexp), rfl⟩
  have hint := Bracketed.digits Nat.toDigits_ne_nil (isDigit_toDigits int) hfrac' hfrac
  rw [rowValue_toDigits] at hint
  have hsign : Others (if negative then ['-'] else []) := by cases negative <;> decide
  have htext := bracketed_others hsign hint
  simpa [JsonNumber.text, rows] using htext

theorem passes_number {n : JsonNumber} (h : Reads [n.text] s t) (ht : isDigit (deref t) = false) : ∀ strs nums,
    Bracketed depth t strs nums → Bracketed depth s strs (rows n ++ nums) := by
  obtain ⟨blanks, r, hb, rfl, rfl⟩ := h
  exact fun strs nums h => bracketed_blanks hb (by simp [number_ne_nil]) (bracketed_number ht h)

/-- White space and punctuation end a number. -/
theorem ends_number {c : Char} {ls : List (List Char)} (h : Reads ([c] :: ls) s t) (hc : isDigit c = false) :
    isDigit (deref s) = false := by
  rcases deref_reads h (List.cons_ne_nil _ _) with hb | hd
  · rcases isBlank_iff.1 hb with hb | hb | hb | hb <;> rw [hb] <;> decide
  · rw [hd]
    exact hc

/-- An array in brackets of its own. -/
theorem passes_brackets {ls : List (List Char)} {r : List Char} (h : Reads [['[']] s r)
    (hls : ∀ u, Reads ls r u → isDigit (deref u) = false → Passes (depth + 1) r u) (hd : 1 ≤ depth)
    (hrest : Reads (ls ++ [[']']]) r t) : Passes depth s t := by
  obtain ⟨u, hu, hclose⟩ := reads_append.1 hrest
  obtain ⟨strs, nums, hpass⟩ := hls u hu (ends_number hclose (by decide))
  obtain ⟨blanks, r', hb, rfl, rfl⟩ := h
  obtain ⟨blanks', t', hb', rfl, rfl⟩ := hclose
  refine ⟨strs, nums, fun strs' nums' ht => bracketed_blanks hb (by simp) (.opening ?_)⟩
  exact hpass strs' nums' (bracketed_blanks hb' (by simp) (.closing (by omega) (by rwa [Int.add_sub_cancel])))

mutual

/-- A value is passed. -/
theorem value_passes (j : Json) {depth : Int} {s t : List Char} (hd : 1 ≤ depth) (h : Reads j.lexemes s t)
    (ht : isDigit (deref t) = false) : Passes depth s t := by
  match j with
  | .null =>
    rw [Json.lexemes] at h
    exact passes_others h (by decide) (by decide)
  | .bool b =>
    rw [Json.lexemes] at h
    cases b <;> exact passes_others h (by decide) (by decide)
  | .num n =>
    rw [Json.lexemes] at h
    exact ⟨[], rows n, passes_number h ht⟩
  | .str str =>
    rw [Json.lexemes] at h
    exact ⟨[rawString str], [], passes_string h⟩
  | .arr elements =>
    rw [Json.lexemes] at h
    obtain ⟨r, hopen, hrest⟩ := reads_cons.1 h
    exact passes_brackets hopen (fun u hu hu' => elements_pass elements (by omega) hu hu') hd hrest
  | .obj members =>
    rw [Json.lexemes] at h
    obtain ⟨r, hopen, hrest⟩ := reads_cons.1 h
    obtain ⟨u, hu, hclose⟩ := reads_append.1 hrest
    exact ((passes_others hopen (by decide) (by decide)).trans
      (members_pass members hd hu (ends_number hclose (by decide)))).trans (passes_others hclose (by decide) (by decide))

theorem elements_pass (l : List Json) {depth : Int} {s t : List Char} (hd : 1 ≤ depth)
    (h : Reads (commaSep (elementLexemes l)) s t) (ht : isDigit (deref t) = false) : Passes depth s t := by
  match l with
  | [] =>
    obtain rfl : s = t := h
    exact Passes.refl depth s
  | [j] => exact value_passes j hd (by simpa [elementLexemes] using h) ht
  | j :: k :: l =>
    rw [elementLexemes, elementLexemes, commaSep_cons_cons, ← elementLexemes] at h
    obtain ⟨r, hj, hrest⟩ := reads_append.1 h
    obtain ⟨u, hcomma, hl⟩ := reads_cons.1 hrest
    exact ((value_passes j hd hj (ends_number hcomma (by decide))).trans (passes_others hcomma (by decide) (by decide))).trans
      (elements_pass (k :: l) hd hl ht)

theorem members_pass (l : List (JsonString × Json)) {depth : Int} {s t : List Char} (hd : 1 ≤ depth)
    (h : Reads (commaSep (memberLexemes l)) s t) (ht : isDigit (deref t) = false) : Passes depth s t := by
  -- the name and the colon
  have hname : ∀ {name : JsonString} {ls : List (List Char)} {s t : List Char}, Reads (name.quoted :: [':'] :: ls) s t →
      ∃ r, Passes depth s r ∧ Reads ls r t := fun h => by
    obtain ⟨r, hname, hrest⟩ := reads_cons.1 h
    obtain ⟨u, hcolon, hvalue⟩ := reads_cons.1 hrest
    exact ⟨u, Passes.trans ⟨[_], [], passes_string hname⟩ (passes_others hcolon (by decide) (by decide)), hvalue⟩
  match l with
  | [] =>
    obtain rfl : s = t := h
    exact Passes.refl depth s
  | [(name, j)] =>
    obtain ⟨r, hpass, hvalue⟩ := hname (by simpa [memberLexemes] using h)
    exact hpass.trans (value_passes j hd hvalue ht)
  | (name, j) :: m :: l =>
    obtain ⟨name', j'⟩ := m
    rw [memberLexemes, memberLexemes, commaSep_cons_cons, ← memberLexemes, List.cons_append, List.cons_append] at h
    obtain ⟨r, hpass, hrest⟩ := hname h
    obtain ⟨u, hvalue, hrest⟩ := reads_append.1 hrest
    obtain ⟨v, hcomma, hl⟩ := reads_cons.1 hrest
    exact ((hpass.trans (value_passes j hd hvalue (ends_number hcomma (by decide)))).trans
      (passes_others hcomma (by decide) (by decide))).trans (members_pass ((name', j') :: l) hd hl ht)

end

/-! ## What a line offers -/

/-- The text from the first bracket behind the first `"result"` on. -/
def resultArray (text : List Char) : Option (List Char) := (strstr "\"result\"".toList text).bind (strchr '[')

/-- The last string of the array there and its last row of digits: without escapes resolved, and with 64 characters at
most. -/
def Offers (text last : List Char) (number : Nat) : Prop := ∃ s strs nums, resultArray text = some s ∧
  Bracketed 0 s strs nums ∧ last = ((strs.getLast?.map RawString.stored).getD []).take 64 ∧ number = nums.getLast?.getD 0

theorem subscribeArray_eq (text : List Char) :
    subscribeArray text = if jsonHasId text 1 then resultArray text else none := rfl

theorem foldl_last {α β : Type} (f : α → β) (l : List α) (b : β) :
    l.foldl (fun _ a => f a) b = (l.getLast?.map f).getD b := by
  induction l generalizing b with
  | nil => rfl
  | cons a l ih =>
    rw [List.foldl_cons, ih, List.getLast?_cons]
    cases l.getLast? <;> rfl

theorem saturate_le {v : Nat} : (saturate v).toNat ≤ 16 ↔ v ≤ 16 := by
  unfold saturate
  split
  · rename_i h
    exact iff_of_false (by decide) (by omega)
  · rw [BitVec.toNat_ofNat, Nat.mod_eq_of_lt (by omega)]

theorem saturate_small {v : Nat} (h : v ≤ 16) : (saturate v).toNat = v := by
  rw [saturate, if_neg (by omega), BitVec.toNat_ofNat, Nat.mod_eq_of_lt (by omega)]

/-- What the loop takes from an array that is closed. -/
theorem loop_offers {strs : List RawString} {nums : List Nat} (h : Bracketed 0 s strs nums) (behind : List Char) :
    ∃ last : CStr 65, last.1 = ((strs.getLast?.map RawString.stored).getD []).take 64 ∧
      subscribeLoop (terminated s behind) ⟨[], by decide⟩ 0 0 = some (last, saturate (nums.getLast?.getD 0)) := by
  have hnum : nums.foldl (fun _ v => saturate v) (0 : Word) = saturate (nums.getLast?.getD 0) := by
    rw [foldl_last]
    cases nums.getLast? <;> rfl
  refine ⟨(strs.getLast?.map cut).getD ⟨[], by decide⟩, ?_, ?_⟩
  · cases strs.getLast? <;> rfl
  · rw [subscribeLoop_bracketed h, foldl_last, hnum]

/-- The state with a subscription. -/
theorem subscribed_iff {last : CStr 65} {v : Nat} {state : StratumState} :
    subscribed state (last, saturate v) = none ↔ last.1 = [] ∨ 16 < v := by
  have hsize : 16 < (saturate v).toNat ↔ 16 < v := by rw [← not_le, ← not_le, saturate_le]
  unfold subscribed
  split
  · rename_i h
    exact iff_of_true rfl (by rwa [hsize] at h)
  · rename_i h
    exact iff_of_false (by simp) (by rwa [hsize] at h)

theorem subscribed_some {last : CStr 65} {v : Nat} {state state' : StratumState}
    (h : subscribed state (last, saturate v) = some state') :
    state'.extranonce1 = last ∧ state'.extranonce2Size = v ∧ state'.subscribed = true := by
  unfold subscribed at h
  split at h
  · cases h
  · rename_i hsmall
    obtain rfl := Option.some.inj h
    rw [not_or, not_lt, saturate_le] at hsmall
    exact ⟨Subtype.ext (List.take_of_length_le (Nat.le_of_lt_succ last.2)), saturate_small hsmall.2, rfl⟩

/-- The session stores a subscription, whatever it was before and whatever is behind the line. -/
def Subscribes (text last : List Char) (number : Nat) : Prop := ∀ state behind, ∃ state',
  parseSubscribeResponse (terminated text behind) state = some state' ∧ state'.extranonce1.1 = last ∧
    state'.extranonce2Size = number ∧ state'.subscribed = true

/-- It stores none. -/
def Refuses (text : List Char) : Prop := ∀ state behind, parseSubscribeResponse (terminated text behind) state = none

theorem parse_id (hid : jsonHasId text 1 = false) (state : StratumState) (behind : List Char) :
    parseSubscribeResponse (terminated text behind) state = none := by
  rw [parseSubscribeResponse_eq, subscribeArray_terminated, subscribeArray, hid]
  rfl

theorem parse_loop (hid : jsonHasId text 1 = true) (state : StratumState) (behind : List Char) :
    parseSubscribeResponse (terminated text behind) state = (resultArray text).bind fun s =>
      (subscribeLoop (terminated s behind) ⟨[], by decide⟩ 0 0).bind (subscribed state) := by
  rw [parseSubscribeResponse_eq, subscribeArray_terminated, subscribeArray_eq, if_pos hid]
  cases resultArray text <;> rfl

theorem overrun_iff (hid : jsonHasId text 1 = true) : Overrun text ↔ ∃ s, resultArray text = some s ∧ Unclosed 0 s := by
  rw [Overrun, subscribeArray_eq, if_pos hid]

theorem resultArray_suffix (h : resultArray text = some s) : s <:+ text := by
  obtain ⟨r, hr, hs⟩ := Option.bind_eq_some_iff.1 h
  obtain ⟨a, u, rfl, -, -⟩ := strchr_eq_some hs
  exact (List.suffix_append a s).trans (strstr_suffix hr).1

/-- What is offered is what is stored, if it can be a subscription. -/
theorem parse_offers {last : List Char} {number : Nat} (hid : jsonHasId text 1 = true) (h : Offers text last number)
    (state : StratumState) (behind : List Char) : ∃ last' : CStr 65, last'.1 = last ∧
      parseSubscribeResponse (terminated text behind) state = subscribed state (last', saturate number) := by
  obtain ⟨s, strs, nums, hs, hbracketed, rfl, rfl⟩ := h
  obtain ⟨last', hlast, hloop⟩ := loop_offers hbracketed behind
  exact ⟨last', hlast, by rw [parse_loop hid, hs, Option.bind_some, hloop, Option.bind_some]⟩

theorem subscribes_iff {last : List Char} {number : Nat} (h0 : '\x00' ∉ text) : Subscribes text last number ↔
    jsonHasId text 1 = true ∧ Offers text last number ∧ last ≠ [] ∧ number ≤ 16 := by
  constructor
  · intro h
    obtain ⟨state', hparse, hlast, hnumber, -⟩ := h StratumSession.fresh.state []
    have hid : jsonHasId text 1 = true := by
      by_contra hid
      rw [parse_id (by simpa using hid)] at hparse
      cases hparse
    rw [parse_loop hid] at hparse
    obtain ⟨s, hs, hparse⟩ := Option.bind_eq_some_iff.1 hparse
    have hs0 : '\x00' ∉ s := fun hmem => h0 ((resultArray_suffix hs).subset hmem)
    rcases scanned 0 hs0 with hopen | ⟨strs, nums, hbracketed⟩ | hnone
    · obtain ⟨-, hrefused⟩ := parseSubscribeResponse_overrun ((overrun_iff hid).2 ⟨s, hs, hopen⟩) StratumSession.fresh.state
      obtain ⟨state'', haccepted, -⟩ := h StratumSession.fresh.state ['9', '9']
      rw [hrefused] at haccepted
      cases haccepted
    · obtain ⟨last', hlast', hloop⟩ := loop_offers hbracketed []
      rw [hloop, Option.bind_some] at hparse
      obtain ⟨hl, hn, -⟩ := subscribed_some hparse
      have hsome : ¬ (last'.1 = [] ∨ 16 < nums.getLast?.getD 0) := fun hnone => by
        rw [subscribed_iff.2 hnone] at hparse
        cases hparse
      rw [not_or, not_lt] at hsome
      rw [hl] at hlast
      rw [hn] at hnumber
      exact ⟨hid, ⟨s, strs, nums, hs, hbracketed, hlast.symm.trans hlast', hnumber.symm⟩, hlast ▸ hsome.1, hnumber ▸ hsome.2⟩
    · rw [hnone, Option.bind_none] at hparse
      cases hparse
  · rintro ⟨hid, hoffers, hne, hle⟩ state behind
    obtain ⟨last', rfl, hparse⟩ := parse_offers hid hoffers state behind
    cases hsub : subscribed state (last', saturate number) with
    | none => exact absurd (subscribed_iff.1 hsub) (by simp [hne, hle])
    | some state' =>
      obtain ⟨hl, hn, hsubscribed⟩ := subscribed_some hsub
      exact ⟨state', hparse.trans hsub, by rw [hl], hn, hsubscribed⟩

/-- Nothing that can be a subscription is offered. -/
def OffersNothing (text : List Char) : Prop := ¬ Overrun text ∧ ∀ last number, Offers text last number → last = [] ∨ 16 < number

theorem refuses_iff (h0 : '\x00' ∉ text) : Refuses text ↔ jsonHasId text 1 = false ∨ OffersNothing text := by
  constructor
  · intro h
    by_cases hid : jsonHasId text 1 = true
    · refine .inr ⟨fun hover => ?_, fun last number hoffers => ?_⟩
      · obtain ⟨hsome, -⟩ := parseSubscribeResponse_overrun hover StratumSession.fresh.state
        rw [h] at hsome
        cases hsome
      · obtain ⟨last', rfl, hparse⟩ := parse_offers hid hoffers StratumSession.fresh.state []
        exact subscribed_iff.1 (hparse.symm.trans (h _ _))
    · exact .inl (by simpa using hid)
  · intro h state behind
    by_cases hid : jsonHasId text 1 = true
    · obtain ⟨hover, hnothing⟩ := h.resolve_left fun hno => Bool.noConfusion (hid.symm.trans hno)
      rw [parse_loop hid]
      cases hs : resultArray text with
      | none => rfl
      | some s =>
        have hs0 : '\x00' ∉ s := fun hmem => h0 ((resultArray_suffix hs).subset hmem)
        rw [Option.bind_some]
        rcases scanned 0 hs0 with hopen | ⟨strs, nums, hbracketed⟩ | hnone
        · exact absurd ((overrun_iff hid).2 ⟨s, hs, hopen⟩) hover
        · obtain ⟨last', hlast', hloop⟩ := loop_offers hbracketed behind
          rw [hloop, Option.bind_some, subscribed_iff]
          exact hlast' ▸ hnothing _ _ ⟨s, strs, nums, hs, hbracketed, rfl, rfl⟩
        · rw [hnone, Option.bind_none]
    · exact parse_id (by simpa using hid) state behind

theorem offers_not_overrun {last : List Char} {number : Nat} (hid : jsonHasId text 1 = true) (h : Offers text last number) :
    ¬ Overrun text := by
  intro hover
  obtain ⟨hsome, hnone⟩ := parseSubscribeResponse_overrun hover StratumSession.fresh.state
  obtain ⟨last1, h1, hparse1⟩ := parse_offers hid h StratumSession.fresh.state ['"', 'x', '"', '0']
  obtain ⟨last2, h2, hparse2⟩ := parse_offers hid h StratumSession.fresh.state ['9', '9']
  obtain rfl : last1 = last2 := Subtype.ext (h1.trans h2.symm)
  rw [hparse1, ← hparse2, hnone] at hsome
  cases hsome

/-- A line offers one thing; numbers that are too large for `strtoul` are not told apart. -/
theorem offers_unique {last last' : List Char} {number number' : Nat} (h : Offers text last number)
    (h' : Offers text last' number') : last = last' ∧ saturate number = saturate number' := by
  obtain ⟨s, strs, nums, hs, hbracketed, rfl, rfl⟩ := h
  obtain ⟨s', strs', nums', hs', hbracketed', rfl, rfl⟩ := h'
  obtain rfl := Option.some.inj (hs.symm.trans hs')
  obtain ⟨l, hl, hloop⟩ := loop_offers hbracketed []
  obtain ⟨l', hl', hloop'⟩ := loop_offers hbracketed' []
  obtain ⟨rfl, hnumber⟩ := Prod.mk.inj (Option.some.inj (hloop.symm.trans hloop'))
  exact ⟨hl.symm.trans hl', hnumber⟩

/-! ## What a response says -/

/-- Arrays, strings and numbers. -/
inductive Nested : Json → Prop
  | num (n : JsonNumber) : Nested (.num n)
  | str (s : JsonString) : Nested (.str s)
  | arr {elements : List Json} : (∀ j ∈ elements, Nested j) → Nested (.arr elements)

/-- The result is an array of subscriptions, `extranonce1` and the size of `extranonce2`. -/
structure ResultArray (members : List (JsonString × Json)) (e1 : JsonString) (n : JsonNumber) (size : Nat) : Prop where
  result : ∃ subs, Nested subs ∧ ResultIs (.arr [subs, .str e1, .num n]) members
  value : n.value = size

/-- A subscription that there is room for. -/
structure Grants (members : List (JsonString × Json)) (e1 : JsonString) (n : JsonNumber) (size : Nat) : Prop
    extends ResultArray members e1 n size where
  error : member "error".toList members = none ∨ member "error".toList members = some .null
  nonempty : e1.decode ≠ []
  short : e1.decode.length ≤ 64
  small : size ≤ 16

/-- A subscription that there is no room for. -/
structure TooLarge (members : List (JsonString × Json)) (e1 : JsonString) (n : JsonNumber) (size : Nat) : Prop
    extends ResultArray members e1 n size where
  large : 64 < e1.decode.length ∨ 16 < size

/-- A response to the subscription is taken for what it says. -/
def SubscribedByResult (members : List (JsonString × Json)) (text : List Char) : Prop := IdIs 1 members →
  (∀ e1 n size, Grants members e1 n size → Subscribes text e1.decode size) ∧
    (∀ e1 n size, TooLarge members e1 n size → Refuses text) ∧ (Refused members → Refuses text)

/-- At the first text `"result"` stands the result. -/
def ResultFirst (members : List (JsonString × Json)) (text : List Char) : Prop := ∃ p rest j,
  strstr "\"result\"".toList text = some p ∧ ResultIs j members ∧
    Reads (nameLexeme "result".toList :: [':'] :: j.lexemes) p rest

/-- The last row of digits of a number. -/
def lastRow (n : JsonNumber) : Nat := (rows n).getLast?.getD 0

/-- Then the array of the result is what the line offers. -/
theorem resultFirst_offers {e1 : JsonString} {n : JsonNumber} {size : Nat} (hfirst : ResultFirst members text)
    (h : ResultArray members e1 n size) : Offers text ((unescaped e1).take 64) (lastRow n) := by
  obtain ⟨p, rest, j, hp, hj, hreads⟩ := hfirst
  obtain ⟨subs, -, hresult⟩ := h.result
  obtain rfl := Option.some.inj (hj.symm.trans hresult)
  rw [Json.lexemes, elementLexemes, elementLexemes, elementLexemes, elementLexemes, commaSep_cons_cons, commaSep_cons_cons,
    commaSep_singleton, List.append_assoc, List.cons_append, List.append_assoc, List.cons_append] at hreads
  obtain ⟨r1, hname, hreads⟩ := reads_cons.1 hreads
  obtain ⟨r2, hcolon, hreads⟩ := reads_cons.1 hreads
  obtain ⟨r3, hopen, hreads⟩ := reads_cons.1 hreads
  obtain ⟨r4, hsubs, hreads⟩ := reads_append.1 hreads
  obtain ⟨r5, hcomma, hreads⟩ := reads_cons.1 hreads
  obtain ⟨r6, he1, hreads⟩ := reads_append.1 hreads
  obtain ⟨r7, hcomma', hreads⟩ := reads_cons.1 hreads
  obtain ⟨r8, hn, hclose⟩ := reads_append.1 hreads
  rw [Json.lexemes] at he1
  rw [Json.lexemes] at hn
  -- the bracket is the first one
  have harray : resultArray text = some ('[' :: r3) := by
    rw [resultArray, hp, Option.bind_some, strchr_reads hname (by decide) (by decide),
      strchr_reads hcolon (by decide) (by decide),
      strchr_reads_found hopen (by decide)]
  have hdigit : isDigit (deref r8) = false := ends_number hclose (by decide)
  obtain ⟨blanks, u, hb, rfl, rfl⟩ := hclose
  have hend : Bracketed 1 (blanks ++ ']' :: u) [] [] := bracketed_blanks hb (List.cons_ne_nil _ _) (.close le_rfl)
  have hnumber := passes_number hn hdigit _ _ hend
  obtain ⟨strs, nums, hpass⟩ := value_passes subs le_rfl hsubs (ends_number hcomma (by decide))
  have hbracketed : Bracketed 0 ('[' :: r3) (strs ++ [rawString e1]) (nums ++ (rows n ++ [])) :=
    .opening (hpass _ _ (skips_others hcomma (by decide) (by decide) _ _ (passes_string he1 _ _
      (skips_others hcomma' (by decide) (by decide) _ _ hnumber))))
  refine ⟨_, _, _, harray, hbracketed, ?_, ?_⟩
  · rw [List.getLast?_concat]
    rfl
  · rw [List.append_nil, List.getLast?_append, lastRow]
    rfl

/-- The line offers the subscription that is granted, and none where none is. -/
structure SubscriptionSpelled (members : List (JsonString × Json)) (text : List Char) : Prop where
  granted : ∀ e1 n size, Grants members e1 n size → (PlainId 1 members ∨ jsonHasId text 1 = true) ∧
    (ResultFirst members text → (unescaped e1).take 64 = e1.decode ∧ lastRow n = size) ∧
    (¬ ResultFirst members text → Offers text e1.decode size)
  tooLarge : ∀ e1 n size, TooLarge members e1 n size → jsonHasId text 1 = false ∨
    (ResultFirst members text → unescaped e1 = [] ∨ 16 < lastRow n) ∧
      (¬ ResultFirst members text → OffersNothing text)
  refused : Refused members → jsonHasId text 1 = false ∨ OffersNothing text

theorem subscribes_granted {e1 : JsonString} {n : JsonNumber} {size : Nat} (htext : (Json.obj members).Text text)
    (h : Grants members e1 n size) : Subscribes text e1.decode size ↔ (PlainId 1 members ∨ jsonHasId text 1 = true) ∧
      (ResultFirst members text → (unescaped e1).take 64 = e1.decode ∧ lastRow n = size) ∧
      (¬ ResultFirst members text → Offers text e1.decode size) := by
  have hid : PlainId 1 members ∨ jsonHasId text 1 = true ↔ jsonHasId text 1 = true :=
    ⟨fun h => h.elim (fun h => h.jsonHasId (by decide) htext) id, .inr⟩
  rw [subscribes_iff htext.no_zero, hid]
  refine and_congr_right fun _ => ⟨?_, ?_⟩
  · rintro ⟨hoffers, -, -⟩
    refine ⟨fun hfirst => ?_, fun _ => hoffers⟩
    obtain ⟨hlast, hsaturate⟩ := offers_unique (resultFirst_offers hfirst h.toResultArray) hoffers
    have hsmall : lastRow n ≤ 16 := saturate_le.1 (by rw [hsaturate]; exact saturate_le.2 h.small)
    exact ⟨hlast, by rw [← saturate_small hsmall, hsaturate, saturate_small h.small]⟩
  · rintro ⟨hfirst, hother⟩
    refine ⟨?_, h.nonempty, h.small⟩
    by_cases hf : ResultFirst members text
    · obtain ⟨hlast, hnumber⟩ := hfirst hf
      rw [← hlast, ← hnumber]
      exact resultFirst_offers hf h.toResultArray
    · exact hother hf

theorem refuses_tooLarge {e1 : JsonString} {n : JsonNumber} {size : Nat} (htext : (Json.obj members).Text text)
    (h : TooLarge members e1 n size) : Refuses text ↔ jsonHasId text 1 = false ∨
      (ResultFirst members text → unescaped e1 = [] ∨ 16 < lastRow n) ∧ (¬ ResultFirst members text → OffersNothing text) := by
  rw [refuses_iff htext.no_zero]
  cases hid : jsonHasId text 1 with
  | false => exact iff_of_true (.inl rfl) (.inl rfl)
  | true =>
    refine or_congr_right ⟨fun hnothing => ⟨fun hf => ?_, fun _ => hnothing⟩, fun hspelled => ?_⟩
    · have hcut := hnothing.2 _ _ (resultFirst_offers hf h.toResultArray)
      simpa using hcut
    · by_cases hf : ResultFirst members text
      · have hoffers := resultFirst_offers hf h.toResultArray
        refine ⟨offers_not_overrun hid hoffers, fun last number hother => ?_⟩
        obtain ⟨rfl, hsaturate⟩ := offers_unique hoffers hother
        rcases hspelled.1 hf with he1 | hlarge
        · exact .inl (by rw [he1, List.take_nil])
        · refine .inr ?_
          rw [← not_le] at hlarge ⊢
          rwa [← saturate_le, ← hsaturate, saturate_le]
      · exact hspelled.2 hf

/-- **Subscription.** -/
theorem subscribedByResult_iff (htext : (Json.obj members).Text text) :
    SubscribedByResult members text ↔ (IdIs 1 members → SubscriptionSpelled members text) := by
  refine imp_congr_right fun _ => ⟨?_, ?_⟩
  · rintro ⟨hgranted, hlarge, hrefused⟩
    constructor
    · exact fun e1 n size h => (subscribes_granted htext h).1 (hgranted e1 n size h)
    · exact fun e1 n size h => (refuses_tooLarge htext h).1 (hlarge e1 n size h)
    · exact fun h => (refuses_iff htext.no_zero).1 (hrefused h)
  · rintro ⟨hgranted, hlarge, hrefused⟩
    refine ⟨fun e1 n size h => ?_, fun e1 n size h => ?_, fun h => ?_⟩
    · exact (subscribes_granted htext h).2 (hgranted e1 n size h)
    · exact (refuses_tooLarge htext h).2 (hlarge e1 n size h)
    · exact (refuses_iff htext.no_zero).2 (hrefused h)

/-! ## An error that is taken for a subscription -/

/-- The text of the error. -/
def errorMessage : JsonString := .ofText "Method not found".toList (by decide)

def errorElements : List Json := [.num ⟨true, 3, [], none⟩, .str errorMessage, .null]

/-- A response without a result. -/
def errorReply : List (JsonString × Json) := response 1 .null (.arr errorElements)

theorem offers_errorReply : Offers (Json.obj errorReply).lexemes.flatten "Method not found".toList 3 := by
  have harray : resultArray (Json.obj errorReply).lexemes.flatten =
      some ((Json.arr errorElements).lexemes.flatten ++ ['}']) := by
    decide
  have hclose : Bracketed 1 ",null]\x7d".toList [] [] :=
    bracketed_others (l := ",null".toList) (s := "]\x7d".toList) (by decide) (.close le_rfl)
  have hstring : Bracketed 1 ([] ++ (errorMessage.quoted ++ ",null]\x7d".toList)) [rawString errorMessage] [] :=
    passes_string ⟨[], _, blank_nil, rfl, rfl⟩ _ _ hclose
  have hcomma := bracketed_others (l := [',']) (by decide) hstring
  have hnumber := bracketed_number (n := ⟨true, 3, [], none⟩) rfl hcomma
  have htext : (Json.arr errorElements).lexemes.flatten ++ ['}'] = '[' :: ((⟨true, 3, [], none⟩ : JsonNumber).text ++
      ([','] ++ ([] ++ (errorMessage.quoted ++ ",null]\x7d".toList)))) := by
    decide
  have hbracketed : Bracketed 0 ((Json.arr errorElements).lexemes.flatten ++ ['}']) [rawString errorMessage] [3] := by
    rw [htext]
    exact .opening hnumber
  exact ⟨_, _, _, harray, hbracketed, by decide, by decide⟩

/-- It is stored as a subscription. -/
theorem errorReply_subscribes : (Json.obj errorReply).Text (Json.obj errorReply).lexemes.flatten ∧
    ¬ SubscribedByResult errorReply (Json.obj errorReply).lexemes.flatten := by
  have htext := Json.text_compact (Json.obj errorReply)
  refine ⟨htext, fun h => ?_⟩
  have hid : PlainId 1 errorReply := plainId_response 1 _ _
  have hone : IdIs 1 errorReply := idIs_response 1 _ _
  have hsubscribes := (subscribes_iff htext.no_zero).2
    ⟨hid.jsonHasId (by decide) htext, offers_errorReply, by decide, by decide⟩
  obtain ⟨state, hsome, -⟩ := hsubscribes StratumSession.fresh.state []
  rw [(h hone).2.2 (.inr rfl)] at hsome
  cases hsome

/-! ## The response of the mock pool -/

def mockSubscriptions : Json := .arr [.arr [.str notifyMethod, .str (.ofText "easy-test".toList (by decide))]]

def mockExtranonce1 : JsonString := .ofText "abcd1234".toList (by decide)

def mockResult : Json := .arr [mockSubscriptions, .str mockExtranonce1, .num (.ofNat 8)]

def mockResponse : List (JsonString × Json) := response 1 mockResult .null

theorem mockResponse_subscribes : SubscribedByResult mockResponse (Json.obj mockResponse).lexemes.flatten := by
  refine (subscribedByResult_iff (Json.text_compact _)).2 fun _ => ?_
  have hfirst : ResultFirst mockResponse (Json.obj mockResponse).lexemes.flatten := by
    refine ⟨(nameLexeme "result".toList :: [':'] :: mockResult.lexemes).flatten ++ ",\"error\":null\x7d".toList, _,
      mockResult, ?_, rfl, reads_flatten _ _⟩
    decide
  have hresult : ∀ {e1 n size}, ResultArray mockResponse e1 n size → e1 = mockExtranonce1 ∧ n = .ofNat 8 ∧ size = 8 := by
    rintro e1 n size ⟨⟨subs, -, hresult⟩, hvalue⟩
    have harray : Json.arr [subs, .str e1, .num n] = mockResult := (Option.some.inj hresult).symm
    simp only [mockResult, Json.arr.injEq, List.cons.injEq, Json.str.injEq, Json.num.injEq, and_true] at harray
    obtain ⟨-, rfl, rfl⟩ := harray
    rw [JsonNumber.value_ofNat] at hvalue
    exact ⟨rfl, rfl, by exact_mod_cast hvalue.symm⟩
  constructor
  · intro e1 n size h
    obtain ⟨rfl, rfl, rfl⟩ := hresult h.toResultArray
    exact ⟨.inl (plainId_response 1 _ _), fun _ => by decide, fun h => absurd hfirst h⟩
  · intro e1 n size h
    obtain ⟨rfl, rfl, rfl⟩ := hresult h.toResultArray
    exact absurd h.large (by decide)
  · rintro (h | h) <;> cases h

end Vek280Miner.Sw
