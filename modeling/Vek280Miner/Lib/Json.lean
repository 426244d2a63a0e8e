import Mathlib.Algebra.Order.Field.Rat
import Mathlib.Data.Fin.Basic
import Mathlib.Data.List.Basic

/-!
# JSON texts

Values as they are spelled: a string is the list of its characters with their escapes, a number its digits, an object
the list of its members. `Json.lexemes` lists the lexemes of a value, and `Reads ls s t` says that the text `s` begins
with the lexemes `ls`, with any white space in front of each of them, and goes on with `t`. `JsonString.decode` and
`JsonNumber.value` give what strings and numbers stand for.
-/

namespace Vek280Miner

/-! ## White space -/

/-- White space that may stand between lexemes. -/
def isBlank (c : Char) : Bool := c == ' ' || c == '\t' || c == '\r' || c == '\n'

/-- What holds of every character of a list is decided along the list, not by a search through all characters. -/
instance decidableForallMemChar (p : Char → Prop) [DecidablePred p] (s : List Char) : Decidable (∀ c ∈ s, p c) :=
  List.decidableBAll p s

/-- Nothing but white space. -/
def Blank (s : List Char) : Prop := ∀ c ∈ s, isBlank c = true

instance (s : List Char) : Decidable (Blank s) := inferInstanceAs (Decidable (∀ c ∈ s, _))

@[simp] theorem blank_nil : Blank [] := by simp [Blank]

theorem isBlank_iff {c : Char} : isBlank c = true ↔ c = ' ' ∨ c = '\t' ∨ c = '\r' ∨ c = '\n' := by
  simp [isBlank, or_assoc]

/-! ## Strings -/

/-- No control character. -/
abbrev IsPrintable (c : Char) : Prop := 32 ≤ c.toNat

/-- A character that a string may hold as it is: no control character, no quote and no backslash. -/
def IsPlain (c : Char) : Prop := IsPrintable c ∧ c ≠ '"' ∧ c ≠ '\\'

instance (c : Char) : Decidable (IsPlain c) := inferInstanceAs (Decidable (_ ∧ _))

/-- The escapes of one letter. -/
inductive Escape where
  | quote | backslash | slash | b | f | n | r | t
deriving DecidableEq

def Escape.letter : Escape → Char
  | .quote => '"'
  | .backslash => '\\'
  | .slash => '/'
  | .b => 'b'
  | .f => 'f'
  | .n => 'n'
  | .r => 'r'
  | .t => 't'

def Escape.value : Escape → Char
  | .quote => '"'
  | .backslash => '\\'
  | .slash => '/'
  | .b => '\x08'
  | .f => '\x0c'
  | .n => '\n'
  | .r => '\r'
  | .t => '\t'

/-- The number of a hexadecimal digit, less than 16. -/
def hexDigitValue (c : Char) : Nat :=
  if 48 ≤ c.toNat ∧ c.toNat ≤ 57 then c.toNat - 48
  else if 97 ≤ c.toNat ∧ c.toNat ≤ 102 then c.toNat - 87
  else if 65 ≤ c.toNat ∧ c.toNat ≤ 70 then c.toNat - 55
  else 0

/-- The digits of base 16, of both cases. -/
abbrev HexDigit :=
  { c : Char // (48 ≤ c.toNat ∧ c.toNat ≤ 57) ∨ (97 ≤ c.toNat ∧ c.toNat ≤ 102) ∨ (65 ≤ c.toNat ∧ c.toNat ≤ 70) }

/-- A character of a string as it is spelled. -/
inductive JsonChar where
  | plain (c : Char) (h : IsPlain c)
  | escape (e : Escape)
  | unicode (a b c d : HexDigit)
deriving DecidableEq

def JsonChar.text : JsonChar → List Char
  | .plain c _ => [c]
  | .escape e => ['\\', e.letter]
  | .unicode a b c d => ['\\', 'u', a.1, b.1, c.1, d.1]

/-- A string as it is spelled. -/
abbrev JsonString := List JsonChar

/-- What stands between the quotes. -/
def JsonString.text (s : JsonString) : List Char := s.flatMap JsonChar.text

/-- The lexeme of a string. -/
def JsonString.quoted (s : JsonString) : List Char := '"' :: (s.text ++ ['"'])

/-- The code unit of four hexadecimal digits. -/
def codeUnit (a b c d : HexDigit) : Nat :=
  ((hexDigitValue a.1 * 16 + hexDigitValue b.1) * 16 + hexDigitValue c.1) * 16 + hexDigitValue d.1

/-- The decoded string behind a code unit `high` that needs a second one, if there is one. A code unit that lacks its
other half is replaced. -/
def decodeFrom : Option Nat → JsonString → List Char
  | none, [] => []
  | some _, [] => ['\ufffd']
  | none, .plain c _ :: s => c :: decodeFrom none s
  | some _, .plain c _ :: s => '\ufffd' :: c :: decodeFrom none s
  | none, .escape e :: s => e.value :: decodeFrom none s
  | some _, .escape e :: s => '\ufffd' :: e.value :: decodeFrom none s
  | none, .unicode a b c d :: s =>
    let u := codeUnit a b c d
    if 0xd800 ≤ u ∧ u < 0xdc00 then decodeFrom (some u) s
    else if 0xdc00 ≤ u ∧ u < 0xe000 then '\ufffd' :: decodeFrom none s
    else Char.ofNat u :: decodeFrom none s
  | some high, .unicode a b c d :: s =>
    let u := codeUnit a b c d
    if 0xd800 ≤ u ∧ u < 0xdc00 then '\ufffd' :: decodeFrom (some u) s
    else if 0xdc00 ≤ u ∧ u < 0xe000 then
      Char.ofNat (0x10000 + (high - 0xd800) * 0x400 + (u - 0xdc00)) :: decodeFrom none s
    else '\ufffd' :: Char.ofNat u :: decodeFrom none s

/-- The string that a spelling stands for. -/
def JsonString.decode (s : JsonString) : List Char := decodeFrom none s

theorem JsonString.text_cons (c : JsonChar) (s : JsonString) :
    JsonString.text (c :: s) = c.text ++ JsonString.text s := List.flatMap_cons

/-- Without a backslash a string is its text. -/
theorem JsonString.decode_eq_text : ∀ {s : JsonString}, '\\' ∉ s.text → s.decode = s.text
  | [], _ => rfl
  | .plain c h :: s, hs => by
    have hrest : '\\' ∉ JsonString.text s := fun hmem => hs (List.mem_cons_of_mem c hmem)
    exact congrArg (c :: ·) (JsonString.decode_eq_text hrest)
  | .escape _ :: _, hs => absurd List.mem_cons_self hs
  | .unicode _ _ _ _ :: _, hs => absurd List.mem_cons_self hs

/-- The shortest spelling of a character that is no control character. -/
def JsonChar.ofChar (c : Char) (h : IsPrintable c) : JsonChar :=
  if hq : c = '"' then .escape .quote
  else if hb : c = '\\' then .escape .backslash
  else .plain c ⟨h, hq, hb⟩

/-- A string without control characters, with its quotes and backslashes escaped. -/
def JsonString.ofText (s : List Char) (h : ∀ c ∈ s, IsPrintable c) : JsonString := s.pmap JsonChar.ofChar h

/-- A string that needs no escapes. -/
def JsonString.ofPlain (s : List Char) (h : ∀ c ∈ s, IsPlain c) : JsonString := s.pmap JsonChar.plain h

theorem JsonString.text_ofPlain {s : List Char} (h : ∀ c ∈ s, IsPlain c) : (JsonString.ofPlain s h).text = s := by
  induction s with
  | nil => rfl
  | cons c s ih => exact congrArg (c :: ·) (ih fun c' hc => h c' (List.mem_cons_of_mem c hc))

theorem JsonString.decode_ofPlain {s : List Char} (h : ∀ c ∈ s, IsPlain c) : (JsonString.ofPlain s h).decode = s := by
  rw [JsonString.decode_eq_text, JsonString.text_ofPlain]
  rw [JsonString.text_ofPlain]
  exact fun hmem => (h _ hmem).2.2 rfl

/-! ## Numbers -/

/-- The exponent of a number. -/
structure JsonExp where
  upper : Bool
  sign : Option Bool
  digit : Fin 10
  digits : List (Fin 10)
deriving DecidableEq

/-- A number as it is spelled; without a fraction `frac` is empty. -/
structure JsonNumber where
  negative : Bool
  int : Nat
  frac : List (Fin 10)
  exp : Option JsonExp
deriving DecidableEq

/-- A row of decimal digits. -/
def digitsText (l : List (Fin 10)) : List Char := l.map fun d => d.1.digitChar

/-- The number of a row of decimal digits. -/
def digitsValue10 (l : List (Fin 10)) : Nat := l.foldl (fun v d => v * 10 + d.1) 0

/-- The letter, the sign and the digits of an exponent. -/
def JsonExp.text (e : JsonExp) : List Char :=
  (if e.upper then 'E' else 'e') :: (match e.sign with | none => [] | some true => ['-'] | some false => ['+']) ++
    digitsText (e.digit :: e.digits)

def JsonExp.value (e : JsonExp) : Int :=
  if e.sign = some true then -(digitsValue10 (e.digit :: e.digits) : Int) else digitsValue10 (e.digit :: e.digits)

def JsonNumber.text (n : JsonNumber) : List Char :=
  (if n.negative then ['-'] else []) ++ Nat.toDigits 10 n.int ++ (if n.frac = [] then [] else '.' :: digitsText n.frac) ++
    (n.exp.elim [] JsonExp.text)

def JsonNumber.value (n : JsonNumber) : ℚ :=
  let magnitude : ℚ := n.int + digitsValue10 n.frac / 10 ^ n.frac.length
  (if n.negative then -magnitude else magnitude) * 10 ^ n.exp.elim 0 JsonExp.value

/-- A natural number as it is usually spelled. -/
def JsonNumber.ofNat (n : Nat) : JsonNumber := ⟨false, n, [], none⟩

theorem JsonNumber.value_ofNat (n : Nat) : (JsonNumber.ofNat n).value = n := by
  simp [JsonNumber.value, JsonNumber.ofNat, digitsValue10]

/-! ## Values -/

/-- A value as it is spelled, but for the white space. -/
inductive Json where
  | null
  | bool (b : Bool)
  | num (n : JsonNumber)
  | str (s : JsonString)
  | arr (elements : List Json)
  | obj (members : List (JsonString × Json))

/-- Lists of lexemes with commas between them. -/
def commaSep (ls : List (List (List Char))) : List (List Char) := List.intercalate [[',']] ls

mutual

/-- The lexemes of a value. -/
def Json.lexemes : Json → List (List Char)
  | .null => ["null".toList]
  | .bool b => [if b then "true".toList else "false".toList]
  | .num n => [n.text]
  | .str s => [s.quoted]
  | .arr elements => ['['] :: (commaSep (elementLexemes elements) ++ [[']']])
  | .obj members => ['{'] :: (commaSep (memberLexemes members) ++ [['}']])

def elementLexemes : List Json → List (List (List Char))
  | [] => []
  | j :: l => j.lexemes :: elementLexemes l

def memberLexemes : List (JsonString × Json) → List (List (List Char))
  | [] => []
  | (name, j) :: l => (name.quoted :: [':'] :: j.lexemes) :: memberLexemes l

end

/-- The value of the first member with a name. -/
def member (name : List Char) (members : List (JsonString × Json)) : Option Json :=
  (members.find? fun m => m.1.decode = name).map Prod.snd

theorem member_cons_ne {name : List Char} {m : JsonString × Json} (h : m.1.decode ≠ name)
    (members : List (JsonString × Json)) : member name (m :: members) = member name members := by
  rw [member, List.find?_cons_of_neg (by simpa using h), member]

theorem member_cons_eq {name : List Char} {m : JsonString × Json} (h : m.1.decode = name)
    (members : List (JsonString × Json)) : member name (m :: members) = some m.2 := by
  rw [member, List.find?_cons_of_pos (by simpa using h), Option.map_some]

/-! ## Texts -/

/-- The text `s` is the lexemes, with white space in front of each, and `t`. -/
def Reads : List (List Char) → List Char → List Char → Prop
  | [], s, t => s = t
  | l :: ls, s, t => ∃ blanks r, Blank blanks ∧ s = blanks ++ (l ++ r) ∧ Reads ls r t

/-- `text` is a text of the value. -/
def Json.Text (j : Json) (text : List Char) : Prop := ∃ blanks, Blank blanks ∧ Reads j.lexemes text blanks

theorem reads_append {ls ls' : List (List Char)} {s t : List Char} :
    Reads (ls ++ ls') s t ↔ ∃ r, Reads ls s r ∧ Reads ls' r t := by
  induction ls generalizing s with
  | nil => simp [Reads]
  | cons l ls ih =>
    simp only [List.cons_append, Reads, ih]
    constructor
    · rintro ⟨blanks, r, hb, rfl, r', h, h'⟩
      exact ⟨r', ⟨blanks, r, hb, rfl, h⟩, h'⟩
    · rintro ⟨r', ⟨blanks, r, hb, rfl, h⟩, h'⟩
      exact ⟨blanks, r, hb, rfl, r', h, h'⟩

theorem reads_cons {l : List Char} {ls : List (List Char)} {s t : List Char} :
    Reads (l :: ls) s t ↔ ∃ r, Reads [l] s r ∧ Reads ls r t := by
  rw [← reads_append, List.singleton_append]

/-- What follows the lexemes can be anything. -/
theorem Reads.behind {ls : List (List Char)} {s t : List Char} (h : Reads ls s t) (u : List Char) :
    Reads ls (s ++ u) (t ++ u) := by
  induction ls generalizing s with
  | nil => exact congrArg (· ++ u) h
  | cons l ls ih =>
    obtain ⟨blanks, r, hb, rfl, h⟩ := h
    exact ⟨blanks, r ++ u, hb, by simp, ih h⟩

/-- A text that ends in `t`. -/
theorem Reads.suffix {ls : List (List Char)} {s t : List Char} (h : Reads ls s t) : t <:+ s := by
  induction ls generalizing s with
  | nil => exact h ▸ List.suffix_rfl
  | cons l ls ih =>
    obtain ⟨blanks, r, hb, rfl, h⟩ := h
    exact (ih h).trans ⟨blanks ++ l, by simp⟩

/-- Lexemes may stand next to each other. -/
theorem reads_flatten (ls : List (List Char)) (t : List Char) : Reads ls (ls.flatten ++ t) t := by
  induction ls with
  | nil => rfl
  | cons l ls ih => exact ⟨[], ls.flatten ++ t, blank_nil, by simp, ih⟩

/-- White space may stand in front of each of them. -/
theorem reads_zip {ls bs : List (List Char)} (hlen : bs.length = ls.length) (hb : ∀ b ∈ bs, Blank b) :
    Reads ls (List.zipWith (· ++ ·) bs ls).flatten [] := by
  induction ls generalizing bs with
  | nil => simp [Reads]
  | cons l ls ih =>
    cases bs with
    | nil => cases hlen
    | cons b bs =>
      refine ⟨b, (List.zipWith (· ++ ·) bs ls).flatten, hb b List.mem_cons_self, by simp, ?_⟩
      exact ih (Nat.succ.inj hlen) fun b' hb' => hb b' (List.mem_cons_of_mem b hb')

/-- The text without white space. -/
theorem Json.text_compact (j : Json) : j.Text j.lexemes.flatten :=
  ⟨[], blank_nil, by simpa using reads_flatten j.lexemes []⟩

theorem elementLexemes_eq_map (l : List Json) : elementLexemes l = l.map Json.lexemes := by
  induction l with
  | nil => rfl
  | cons j l ih => rw [elementLexemes, ih, List.map_cons]

/-- The lexemes of a member. -/
def lexemesOf (m : JsonString × Json) : List (List Char) := m.1.quoted :: [':'] :: m.2.lexemes

theorem memberLexemes_eq_map (l : List (JsonString × Json)) : memberLexemes l = l.map lexemesOf := by
  induction l with
  | nil => rfl
  | cons m l ih => rw [memberLexemes, ih, List.map_cons, lexemesOf]

@[simp] theorem commaSep_nil : commaSep [] = [] := rfl

@[simp] theorem commaSep_singleton (x : List (List Char)) : commaSep [x] = x := List.intercalate_singleton

theorem commaSep_cons_cons (x y : List (List Char)) (ls : List (List (List Char))) :
    commaSep (x :: y :: ls) = x ++ [','] :: commaSep (y :: ls) := by
  rw [commaSep, List.intercalate_cons_cons, List.append_assoc]
  rfl

theorem commaSep_cons (x : List (List Char)) (ls : List (List (List Char))) :
    commaSep (x :: ls) = x ++ ls.flatMap ([','] :: ·) := by
  induction ls generalizing x with
  | nil => simp [commaSep]
  | cons y ls ih => rw [commaSep_cons_cons, ih, List.flatMap_cons, List.cons_append]

/-- An element with what stands in front of it and behind it. -/
theorem commaSep_split (ls ls' : List (List (List Char))) (x : List (List Char)) :
    commaSep (ls ++ x :: ls') = ls.flatMap (· ++ [[',']]) ++ (x ++ ls'.flatMap ([','] :: ·)) := by
  induction ls with
  | nil => exact commaSep_cons x ls'
  | cons y ls ih =>
    have hcons : commaSep (y :: (ls ++ x :: ls')) = y ++ [','] :: commaSep (ls ++ x :: ls') := by
      cases ls <;> exact commaSep_cons_cons _ _ _
    rw [List.cons_append, hcons, ih, List.flatMap_cons]
    simp

/-! ## Control characters -/

theorem JsonChar.text_printable (ch : JsonChar) : ∀ c ∈ ch.text, IsPrintable c := by
  have hhex : ∀ d : HexDigit, IsPrintable d.1 := fun d => by
    have h := d.2
    omega
  cases ch with
  | plain c h =>
    intro c' hc
    rw [List.mem_singleton.1 hc]
    exact h.1
  | escape e =>
    cases e <;>
    · intro c hc
      revert c
      decide
  | unicode a b c d =>
    intro c' hc
    simp only [JsonChar.text, List.mem_cons, List.not_mem_nil, or_false] at hc
    rcases hc with rfl | rfl | rfl | rfl | rfl | rfl
    · decide
    · decide
    · exact hhex a
    · exact hhex b
    · exact hhex c
    · exact hhex d

theorem JsonString.quoted_printable (s : JsonString) : ∀ c ∈ s.quoted, IsPrintable c := by
  intro c hc
  simp only [JsonString.quoted, JsonString.text, List.mem_cons, List.mem_append, List.mem_flatMap, List.not_mem_nil,
    or_false] at hc
  rcases hc with rfl | ⟨ch, -, hc⟩ | rfl
  · decide
  · exact ch.text_printable c hc
  · decide

theorem isDigit_printable {c : Char} (h : c.isDigit = true) : IsPrintable c := by
  simp only [Char.isDigit, Bool.and_eq_true, decide_eq_true_eq] at h
  have h48 : 48 ≤ c.toNat := h.1
  omega

theorem digitsText_isDigit (l : List (Fin 10)) : ∀ c ∈ digitsText l, c.isDigit = true := by
  intro c hc
  obtain ⟨d, -, rfl⟩ := List.mem_map.1 hc
  clear hc
  revert d
  decide

/-- The characters of a number. -/
def NumberChar (c : Char) : Prop := c.isDigit = true ∨ c ∈ ['-', '+', '.', 'e', 'E']

theorem JsonExp.text_chars (e : JsonExp) : ∀ c ∈ e.text, NumberChar c := by
  intro c hc
  simp only [JsonExp.text, List.cons_append, List.mem_cons, List.mem_append] at hc
  rcases hc with rfl | hc | hc
  · right
    split <;> decide
  · right
    revert c
    split <;> decide
  · exact .inl (digitsText_isDigit _ c hc)

theorem JsonNumber.text_chars (n : JsonNumber) : ∀ c ∈ n.text, NumberChar c := by
  intro c hc
  simp only [JsonNumber.text, List.mem_append] at hc
  rcases hc with ((hc | hc) | hc) | hc
  · right
    revert c
    split <;> decide
  · exact .inl (Nat.isDigit_of_mem_toDigits (by decide) (by decide) hc)
  · split at hc
    · cases hc
    · rcases List.mem_cons.1 hc with rfl | hc
      · exact .inr (by decide)
      · exact .inl (digitsText_isDigit _ c hc)
  · cases he : n.exp with
    | none => rw [he] at hc; cases hc
    | some e => rw [he] at hc; exact e.text_chars c hc

theorem NumberChar.printable {c : Char} (h : NumberChar c) : IsPrintable c := by
  rcases h with h | h
  · exact isDigit_printable h
  · revert c
    decide

theorem JsonNumber.text_printable (n : JsonNumber) : ∀ c ∈ n.text, IsPrintable c := fun c hc => (n.text_chars c hc).printable

/-- No lexeme has a control character. -/
def NoControls (ls : List (List Char)) : Prop := ∀ l ∈ ls, ∀ c ∈ l, IsPrintable c

theorem commaSep_noControls {xs : List (List (List Char))} (h : ∀ x ∈ xs, NoControls x) : NoControls (commaSep xs) := by
  cases xs with
  | nil => intro l hl; cases hl
  | cons x xs =>
    intro l hl c hc
    rw [commaSep_cons, List.mem_append, List.mem_flatMap] at hl
    rcases hl with hl | ⟨y, hy, hl⟩
    · exact h x List.mem_cons_self l hl c hc
    · rcases List.mem_cons.1 hl with rfl | hl
      · rw [List.mem_singleton.1 hc]
        decide
      · exact h y (List.mem_cons_of_mem x hy) l hl c hc

/-- Lexemes with a bracket in front and one behind. -/
theorem bracketed_noControls {o c : Char} {ls : List (List Char)} (ho : IsPrintable o) (hc : IsPrintable c)
    (h : NoControls ls) :
    NoControls ([o] :: (ls ++ [[c]])) := by
  intro l hl c' hc'
  rcases List.mem_cons.1 hl with rfl | hl
  · rw [List.mem_singleton.1 hc']
    exact ho
  · rcases List.mem_append.1 hl with hl | hl
    · exact h l hl c' hc'
    · rw [List.mem_singleton.1 hl] at hc'
      rw [List.mem_singleton.1 hc']
      exact hc

mutual

theorem Json.lexemes_noControls : ∀ j : Json, NoControls j.lexemes
  | .null => by
    rw [Json.lexemes]
    unfold NoControls
    decide
  | .bool b => by
    cases b <;>
    · rw [Json.lexemes]
      unfold NoControls
      decide
  | .num n => by
    rw [Json.lexemes]
    intro l hl
    rw [List.mem_singleton.1 hl]
    exact n.text_printable
  | .str s => by
    rw [Json.lexemes]
    intro l hl
    rw [List.mem_singleton.1 hl]
    exact s.quoted_printable
  | .arr elements => by
    rw [Json.lexemes]
    exact bracketed_noControls (by decide) (by decide) (commaSep_noControls (elementLexemes_noControls elements))
  | .obj members => by
    rw [Json.lexemes]
    exact bracketed_noControls (by decide) (by decide) (commaSep_noControls (memberLexemes_noControls members))

theorem elementLexemes_noControls : ∀ l : List Json, ∀ x ∈ elementLexemes l, NoControls x
  | [] => by
    intro x hx
    cases hx
  | j :: l => by
    intro x hx
    rw [elementLexemes] at hx
    rcases List.mem_cons.1 hx with rfl | hx
    · exact j.lexemes_noControls
    · exact elementLexemes_noControls l x hx

theorem memberLexemes_noControls : ∀ l : List (JsonString × Json), ∀ x ∈ memberLexemes l, NoControls x
  | [] => by
    intro x hx
    cases hx
  | (name, j) :: l => by
    intro x hx
    rw [memberLexemes] at hx
    rcases List.mem_cons.1 hx with rfl | hx
    · intro y hy
      rcases List.mem_cons.1 hy with rfl | hy
      · exact name.quoted_printable
      · rcases List.mem_cons.1 hy with rfl | hy
        · decide
        · exact j.lexemes_noControls y hy
    · exact memberLexemes_noControls l x hx

end

/-- A text of lexemes without control characters has none but white space. -/
theorem isBlank_or_of_reads {ls : List (List Char)} {s t : List Char} (h : Reads ls s t) (hls : NoControls ls)
    (ht : ∀ c ∈ t, isBlank c = true ∨ IsPrintable c) : ∀ c ∈ s, isBlank c = true ∨ IsPrintable c := by
  induction ls generalizing s with
  | nil =>
    obtain rfl : s = t := h
    exact ht
  | cons l ls ih =>
    obtain ⟨blanks, r, hb, rfl, hr⟩ := h
    intro c hc
    rw [List.mem_append, List.mem_append] at hc
    rcases hc with hc | hc | hc
    · exact .inl (hb c hc)
    · exact .inr (hls l List.mem_cons_self c hc)
    · exact ih hr (fun l' hl' => hls l' (List.mem_cons_of_mem l hl')) c hc

/-- A text has no zeros. -/
theorem Json.Text.no_zero {j : Json} {text : List Char} (h : j.Text text) : '\x00' ∉ text := by
  intro h0
  obtain ⟨blanks, hb, hr⟩ := h
  rcases isBlank_or_of_reads hr j.lexemes_noControls (fun c hc => .inl (hb c hc)) _ h0 with h | h
  · cases h
  · exact absurd h (by decide)

/-! ## Lengths -/

/-- A text is at least as long as its lexemes. -/
theorem Reads.length_le {ls : List (List Char)} {s t : List Char} (h : Reads ls s t) :
    (ls.map List.length).sum + t.length ≤ s.length := by
  induction ls generalizing s with
  | nil =>
    obtain rfl : s = t := h
    simp
  | cons l ls ih =>
    obtain ⟨blanks, r, -, rfl, h⟩ := h
    have hle := ih h
    simp only [List.map_cons, List.sum_cons, List.length_append]
    omega

/-- What is decoded is no longer than its spelling; a half of a pair that waits for the other one counts as one
character. -/
theorem length_decodeFrom (s : JsonString) : (decodeFrom none s).length ≤ s.text.length ∧
    ∀ high, (decodeFrom (some high) s).length ≤ s.text.length + 1 := by
  induction s with
  | nil => exact ⟨Nat.le_refl 0, fun _ => Nat.le_refl 1⟩
  | cons c s ih =>
    obtain ⟨hnone, hsome⟩ := ih
    rw [JsonString.text_cons, List.length_append]
    cases c with
    | plain c h =>
      simp only [decodeFrom, List.length_cons, JsonChar.text, List.length_nil]
      exact ⟨by omega, fun _ => by omega⟩
    | escape e =>
      simp only [decodeFrom, List.length_cons, JsonChar.text, List.length_nil]
      exact ⟨by omega, fun _ => by omega⟩
    | unicode a b c d =>
      have hu := hsome (codeUnit a b c d)
      simp only [decodeFrom, JsonChar.text, List.length_cons, List.length_nil]
      constructor
      · split
        · omega
        · split
          · simp only [List.length_cons]
            omega
          · simp only [List.length_cons]
            omega
      · intro high
        split
        · simp only [List.length_cons]
          omega
        · split
          · simp only [List.length_cons]
            omega
          · simp only [List.length_cons]
            omega

theorem JsonString.length_decode_le (s : JsonString) : s.decode.length ≤ s.text.length := (length_decodeFrom s).1

/-- A spelling that is no longer than what it stands for has no escapes. -/
theorem JsonString.plain_of_length {s : JsonString} (h : s.text.length ≤ s.decode.length) :
    s.text = s.decode ∧ ∀ c ∈ s.decode, IsPlain c := by
  induction s with
  | nil => exact ⟨rfl, fun c hc => by cases hc⟩
  | cons c s ih =>
    have hle := JsonString.length_decode_le s
    have hsome := (length_decodeFrom s).2
    rw [JsonString.text_cons, List.length_append] at h
    cases c with
    | plain c hc =>
      have hdecode : JsonString.decode (.plain c hc :: s) = c :: JsonString.decode s := rfl
      rw [hdecode, List.length_cons, JsonChar.text, List.length_singleton] at h
      obtain ⟨htext, hplain⟩ := ih (by omega)
      rw [hdecode, JsonString.text_cons, htext]
      exact ⟨rfl, List.forall_mem_cons.2 ⟨hc, hplain⟩⟩
    | escape e =>
      have hdecode : JsonString.decode (.escape e :: s) = e.value :: JsonString.decode s := rfl
      rw [hdecode, List.length_cons, JsonChar.text, List.length_cons, List.length_singleton] at h
      omega
    | unicode a b c d =>
      have hlen : (JsonString.decode (.unicode a b c d :: s)).length ≤ (JsonString.text s).length + 1 := by
        have hu := hsome (codeUnit a b c d)
        have hs : (decodeFrom none s).length ≤ (JsonString.text s).length := hle
        simp only [JsonString.decode, decodeFrom]
        split
        · exact hu
        · split
          · exact Nat.succ_le_succ hs
          · exact Nat.succ_le_succ hs
      simp only [JsonChar.text, List.length_cons, List.length_nil] at h
      omega

/-! ## The first lexeme -/

/-- A text that begins with no white space begins with its first lexeme. -/
theorem reads_head {l : List Char} {ls : List (List Char)} {c : Char} {s t : List Char} (h : Reads (l :: ls) (c :: s) t)
    (hc : isBlank c = false) : ∃ r, c :: s = l ++ r ∧ Reads ls r t := by
  obtain ⟨blanks, r, hb, hs, h⟩ := h
  cases blanks with
  | nil => exact ⟨r, hs, h⟩
  | cons b blanks =>
    obtain ⟨rfl, -⟩ := List.cons.inj hs
    rw [hb c List.mem_cons_self] at hc
    cases hc

/-- A lexeme of one character. -/
theorem reads_head_one {l : Char} {ls : List (List Char)} {c : Char} {s t : List Char} (h : Reads ([l] :: ls) (c :: s) t)
    (hc : isBlank c = false) : c = l ∧ Reads ls s t := by
  obtain ⟨r, hs, h⟩ := reads_head h hc
  obtain ⟨rfl, rfl⟩ := List.cons.inj hs
  exact ⟨rfl, h⟩

/-- A string ends at the first quote that is not escaped. -/
theorem JsonString.text_ends {str : JsonString} {name r s : List Char} (hname : ∀ c ∈ name, c ≠ '"' ∧ c ≠ '\\')
    (h : str.text ++ '"' :: r = name ++ '"' :: s) : str.text = name ∧ r = s := by
  induction str generalizing name with
  | nil =>
    cases name with
    | nil => exact ⟨rfl, (List.cons.inj h).2⟩
    | cons c name => exact absurd (List.cons.inj h).1.symm (hname c List.mem_cons_self).1
  | cons ch str ih =>
    rw [JsonString.text_cons, List.append_assoc] at h
    cases name with
    | nil =>
      cases ch with
      | plain c hc => exact absurd (List.cons.inj h).1 hc.2.1
      | escape e => exact absurd (List.cons.inj h).1 (by decide)
      | unicode a b c d => exact absurd (List.cons.inj h).1 (by decide)
    | cons n name =>
      obtain ⟨hn, hrest⟩ := List.forall_mem_cons.1 hname
      cases ch with
      | plain c hc =>
        obtain ⟨rfl, htail⟩ := List.cons.inj (show c :: (JsonString.text str ++ '"' :: r) = n :: (name ++ '"' :: s) from h)
        obtain ⟨htext, hr⟩ := ih hrest htail
        exact ⟨(JsonString.text_cons _ str).trans (congrArg ([c] ++ ·) htext), hr⟩
      | escape e => exact absurd (List.cons.inj h).1.symm hn.2
      | unicode a b c d => exact absurd (List.cons.inj h).1.symm hn.2

theorem reads_head_string {str : JsonString} {ls : List (List Char)} {name s t : List Char}
    (hname : ∀ c ∈ name, c ≠ '"' ∧ c ≠ '\\') (h : Reads (str.quoted :: ls) ('"' :: (name ++ '"' :: s)) t) :
    str.text = name ∧ Reads ls s t := by
  obtain ⟨r, hs, hr⟩ := reads_head h (by decide)
  have htext : str.text ++ '"' :: r = name ++ '"' :: s := by simpa [JsonString.quoted] using (List.cons.inj hs).2.symm
  obtain ⟨hstr, hrs⟩ := JsonString.text_ends hname htext
  exact ⟨hstr, hrs ▸ hr⟩

/-! ## Where a string ends -/

/-- A hexadecimal digit ends no string. -/
theorem hexDigit_raw (d : HexDigit) : d.1 ≠ '\x00' ∧ d.1 ≠ '\\' ∧ d.1 ≠ '"' := by
  obtain ⟨c, hc⟩ := d
  refine ⟨?_, ?_, ?_⟩ <;>
  · rintro rfl
    revert hc
    decide

/-- A quote in a string is escaped. -/
theorem JsonChar.quote_mem {c : JsonChar} (h : '"' ∈ c.text) : c = .escape .quote := by
  cases c with
  | plain ch hch => exact absurd (List.mem_singleton.1 h).symm hch.2.1
  | escape e =>
    revert h
    cases e <;> decide
  | unicode a b c d =>
    simp only [JsonChar.text, List.mem_cons, List.not_mem_nil, or_false] at h
    rcases h with h | h | h | h | h | h
    · exact absurd h (by decide)
    · exact absurd h (by decide)
    · exact absurd h.symm (hexDigit_raw a).2.2
    · exact absurd h.symm (hexDigit_raw b).2.2
    · exact absurd h.symm (hexDigit_raw c).2.2
    · exact absurd h.symm (hexDigit_raw d).2.2

/-- In front of it stands a backslash. -/
theorem JsonString.quote_escaped {str : JsonString} {a b : List Char} (h : str.text = a ++ '"' :: b) :
    a.getLast? = some '\\' := by
  induction str generalizing a with
  | nil => simp [JsonString.text] at h
  | cons c str ih =>
    rw [JsonString.text_cons] at h
    by_cases hquote : '"' ∈ c.text
    · obtain rfl := JsonChar.quote_mem hquote
      have hcons : '\\' :: '"' :: JsonString.text str = a ++ '"' :: b := h
      rcases a with _ | ⟨x, _ | ⟨y, a⟩⟩
      · exact absurd (List.cons.inj hcons).1 (by decide)
      · rw [← (List.cons.inj hcons).1]
        rfl
      · have hlast := ih (List.cons.inj (List.cons.inj hcons).2).2
        rw [List.getLast?_cons, List.getLast?_cons, hlast]
        rfl
    · rcases List.append_eq_append_iff.1 h with ⟨a', rfl, htext⟩ | ⟨c', hc, htext⟩
      · rw [List.getLast?_append, ih htext, Option.some_or]
      · cases c' with
        | nil =>
          have hlast := ih (a := []) htext.symm
          cases hlast
        | cons q c' =>
          obtain ⟨rfl, -⟩ := List.cons.inj htext
          exact absurd (hc ▸ List.mem_append_right a List.mem_cons_self) hquote

/-- A quote of the text is decoded nearer to the beginning than it stands there. -/
theorem decodeFrom_quote {str : JsonString} (h : '"' ∈ str.text) : ∃ a b, str.text = a ++ '"' :: b ∧ '"' ∉ a ∧
    (∃ c d, decodeFrom none str = c ++ '"' :: d ∧ c.length < a.length) ∧
      ∀ high, ∃ c d, decodeFrom (some high) str = c ++ '"' :: d ∧ c.length ≤ a.length := by
  induction str with
  | nil => cases h
  | cons ch str ih =>
    by_cases hquote : '"' ∈ ch.text
    · obtain rfl := JsonChar.quote_mem hquote
      exact ⟨['\\'], JsonString.text str, rfl, by decide, ⟨[], _, rfl, Nat.one_pos⟩, fun high => ⟨['\ufffd'], _, rfl, le_rfl⟩⟩
    · rw [JsonString.text_cons, List.mem_append] at h
      obtain ⟨a, b, htext, ha, ⟨c, d, hnone, hc⟩, hsome⟩ := ih (h.resolve_left hquote)
      refine ⟨ch.text ++ a, b, by rw [JsonString.text_cons, htext, List.append_assoc], ?_, ?_⟩
      · rw [List.mem_append, not_or]
        exact ⟨hquote, ha⟩
      · rw [List.length_append]
        cases ch with
        | plain x hx =>
          refine ⟨⟨x :: c, d, congrArg (x :: ·) hnone, ?_⟩, fun high => ⟨'\ufffd' :: x :: c, d, ?_, ?_⟩⟩
          · simp only [List.length_cons, JsonChar.text, List.length_nil]
            omega
          · simp only [decodeFrom, hnone, List.cons_append]
          · simp only [List.length_cons, JsonChar.text, List.length_nil]
            omega
        | escape e =>
          refine ⟨⟨e.value :: c, d, congrArg (e.value :: ·) hnone, ?_⟩, fun high => ⟨'\ufffd' :: e.value :: c, d, ?_, ?_⟩⟩
          · simp only [List.length_cons, JsonChar.text, List.length_nil]
            omega
          · simp only [decodeFrom, hnone, List.cons_append]
          · simp only [List.length_cons, JsonChar.text, List.length_nil]
            omega
        | unicode w x y z =>
          obtain ⟨c', d', hpair, hc'⟩ := hsome (codeUnit w x y z)
          have hlen : (JsonChar.text (.unicode w x y z)).length = 6 := rfl
          rw [hlen]
          simp only [decodeFrom]
          constructor
          · split
            · exact ⟨c', d', hpair, by omega⟩
            · split
              · exact ⟨'\ufffd' :: c, d, by rw [hnone, List.cons_append], by rw [List.length_cons]; omega⟩
              · exact ⟨_ :: c, d, by rw [hnone, List.cons_append], by rw [List.length_cons]; omega⟩
          · intro high
            split
            · exact ⟨'\ufffd' :: c', d', by rw [hpair, List.cons_append], by rw [List.length_cons]; omega⟩
            · split
              · exact ⟨_ :: c, d, by rw [hnone, List.cons_append], by rw [List.length_cons]; omega⟩
              · exact ⟨'\ufffd' :: _ :: c, d, by rw [hnone, List.cons_append, List.cons_append],
                  by rw [List.length_cons, List.length_cons]; omega⟩

/-- A string that is printed as it is decoded ends where it was meant to. -/
theorem JsonString.text_aligned {str : JsonString} {r s : List Char}
    (h : str.text ++ '"' :: r = str.decode ++ '"' :: s) : str.text = str.decode ∧ r = s := by
  rcases List.append_eq_append_iff.1 h with ⟨w, hdecode, -⟩ | ⟨w, htext, hs⟩
  · -- the text is no shorter
    have hlen := congrArg List.length hdecode
    rw [List.length_append] at hlen
    have hle := str.length_decode_le
    have hplain := (JsonString.plain_of_length (s := str) (by omega)).1
    rw [hplain, List.append_cancel_left_eq] at h
    exact ⟨hplain, (List.cons.inj h).2⟩
  · cases w with
    | nil =>
      rw [List.append_nil] at htext
      exact ⟨htext, (List.cons.inj hs).2.symm⟩
    | cons q w =>
      obtain ⟨rfl, -⟩ := List.cons.inj hs
      obtain ⟨a, b, hquote, ha, ⟨c, d, hdecode, hc⟩, -⟩ := decodeFrom_quote (show '"' ∈ str.text by rw [htext]; simp)
      rw [htext, show str.decode = c ++ '"' :: d from hdecode, List.append_assoc] at hquote
      rcases List.append_eq_append_iff.1 hquote with ⟨a', rfl, htail⟩ | ⟨c', hc', -⟩
      · cases a' with
        | nil =>
          rw [List.append_nil] at hc
          exact absurd hc (Nat.lt_irrefl _)
        | cons x a' =>
          obtain ⟨rfl, -⟩ := List.cons.inj htail
          exact absurd (List.mem_append_right c List.mem_cons_self) ha
      · rw [hc', List.length_append] at hc
        omega

theorem Escape.letter_injective : ∀ {e e' : Escape}, e.letter = e'.letter → e = e' := by
  intro e e' h
  cases e <;> cases e' <;> first | rfl | exact absurd h (by decide)

/-- A string ends in one place. -/
theorem JsonString.text_unique {str str' : JsonString} {r r' : List Char} (h : str.text ++ '"' :: r = str'.text ++ '"' :: r') :
    str = str' ∧ r = r' := by
  have hchar : ∀ (c : JsonChar) {s t : List Char}, '"' :: s ≠ c.text ++ t := by
    intro c s t heq
    cases c with
    | plain x hx => exact hx.2.1 (List.cons.inj heq).1.symm
    | escape e => exact absurd (List.cons.inj heq).1 (by decide)
    | unicode w x y z => exact absurd (List.cons.inj heq).1 (by decide)
  have hletter : ∀ e : Escape, e.letter ≠ 'u' := by
    intro e
    cases e <;> decide
  induction str generalizing str' with
  | nil =>
    cases str' with
    | nil => exact ⟨rfl, (List.cons.inj h).2⟩
    | cons c' str' =>
      rw [JsonString.text_cons, List.append_assoc] at h
      exact absurd h (hchar c')
  | cons c str ih =>
    cases str' with
    | nil =>
      rw [JsonString.text_cons, List.append_assoc] at h
      exact absurd h.symm (hchar c)
    | cons c' str' =>
      have hcons : ∃ s s', c.text ++ s = c'.text ++ s' ∧ s = JsonString.text str ++ '"' :: r ∧
          s' = JsonString.text str' ++ '"' :: r' := by
        rw [JsonString.text_cons, JsonString.text_cons, List.append_assoc, List.append_assoc] at h
        exact ⟨_, _, h, rfl, rfl⟩
      obtain ⟨s, s', hs, rfl, rfl⟩ := hcons
      suffices hsame : c = c' by
        subst hsame
        obtain ⟨rfl, hr⟩ := ih (List.append_cancel_left hs)
        exact ⟨rfl, hr⟩
      cases c with
      | plain x hx =>
        cases c' with
        | plain x' hx' =>
          obtain ⟨rfl, -⟩ := List.cons.inj hs
          rfl
        | escape e => exact absurd (List.cons.inj hs).1 hx.2.2
        | unicode w' x' y' z' => exact absurd (List.cons.inj hs).1 hx.2.2
      | escape e =>
        cases c' with
        | plain x' hx' => exact absurd (List.cons.inj hs).1.symm hx'.2.2
        | escape e' => rw [Escape.letter_injective (List.cons.inj (List.cons.inj hs).2).1]
        | unicode w' x' y' z' => exact absurd (List.cons.inj (List.cons.inj hs).2).1 (hletter e)
      | unicode w x y z =>
        cases c' with
        | plain x' hx' => exact absurd (List.cons.inj hs).1.symm hx'.2.2
        | escape e' => exact absurd (List.cons.inj (List.cons.inj hs).2).1.symm (hletter e')
        | unicode w' x' y' z' =>
          simp only [JsonChar.text, List.cons_append, List.nil_append, List.cons.injEq, true_and] at hs
          obtain ⟨hw, hx, hy, hz, -⟩ := hs
          rw [Subtype.ext hw, Subtype.ext hx, Subtype.ext hy, Subtype.ext hz]

/-! ## The first member -/

section Members

variable {s t : List Char} {members : List (JsonString × Json)}

/-- The lexemes behind a member. -/
def memberTail (members : List (JsonString × Json)) : List (List Char) :=
  (members.map lexemesOf).flatMap ([','] :: ·) ++ [['}']]

theorem lexemes_obj_cons (m : JsonString × Json) (members : List (JsonString × Json)) :
    (Json.obj (m :: members)).lexemes = ['{'] :: (m.1.quoted :: [':'] :: (m.2.lexemes ++ memberTail members)) := by
  rw [Json.lexemes, memberLexemes_eq_map, List.map_cons, commaSep_cons]
  simp [lexemesOf, memberTail]

theorem memberTail_cons (m : JsonString × Json) (members : List (JsonString × Json)) :
    memberTail (m :: members) = [','] :: (m.1.quoted :: [':'] :: (m.2.lexemes ++ memberTail members)) := by
  simp [lexemesOf, memberTail]

/-- A comma behind a member is followed by another one. -/
theorem memberTail_comma (h : Reads (memberTail members) (',' :: s) t) : ∃ m rest, members = m :: rest ∧
    Reads (m.1.quoted :: [':'] :: (m.2.lexemes ++ memberTail rest)) s t := by
  cases members with
  | nil =>
    have h : Reads [['}']] (',' :: s) t := h
    exact absurd (reads_head_one h (by decide)).1 (by decide)
  | cons m rest =>
    rw [memberTail_cons] at h
    exact ⟨m, rest, rfl, (reads_head_one h (by decide)).2⟩

/-- A name and its colon. -/
theorem reads_name (name : List Char) {key : JsonString} {ls : List (List Char)} (hname : ∀ c ∈ name, c ≠ '"' ∧ c ≠ '\\')
    (h : Reads (key.quoted :: [':'] :: ls) ('"' :: (name ++ '"' :: ':' :: s)) t) : key.text = name ∧ Reads ls s t := by
  obtain ⟨htext, h⟩ := reads_head_string hname h
  exact ⟨htext, (reads_head_one h (by decide)).2⟩

theorem number_ne_nil (n : JsonNumber) : n.text ≠ [] := by
  simp [JsonNumber.text, Nat.toDigits_ne_nil]

/-- What the first character tells about a value. -/
theorem reads_value {j : Json} {ls : List (List Char)} {c : Char} (h : Reads (j.lexemes ++ ls) (c :: s) t)
    (hc : isBlank c = false) : (∃ str, j = .str str ∧ c = '"') ∨ (∃ n, j = .num n ∧ NumberChar c) ∨
      c ∈ ['n', 't', 'f', '[', '{'] := by
  cases j with
  | null =>
    rw [Json.lexemes] at h
    obtain ⟨r, hs, -⟩ := reads_head h hc
    obtain ⟨rfl, -⟩ := List.cons.inj hs
    exact .inr (.inr (by decide))
  | bool b =>
    rw [Json.lexemes] at h
    obtain ⟨r, hs, -⟩ := reads_head h hc
    cases b <;>
    · obtain ⟨rfl, -⟩ := List.cons.inj hs
      exact .inr (.inr (by decide))
  | num n =>
    rw [Json.lexemes] at h
    obtain ⟨r, hs, -⟩ := reads_head h hc
    obtain ⟨d, l, hd⟩ := List.exists_cons_of_ne_nil (number_ne_nil n)
    rw [hd] at hs
    obtain ⟨rfl, -⟩ := List.cons.inj hs
    exact .inr (.inl ⟨n, rfl, n.text_chars c (by rw [hd]; exact List.mem_cons_self)⟩)
  | str str =>
    rw [Json.lexemes] at h
    obtain ⟨r, hs, -⟩ := reads_head h hc
    exact .inl ⟨str, rfl, (List.cons.inj hs).1⟩
  | arr elements =>
    rw [Json.lexemes] at h
    obtain ⟨rfl, -⟩ := reads_head_one h hc
    exact .inr (.inr (by decide))
  | obj members =>
    rw [Json.lexemes] at h
    obtain ⟨rfl, -⟩ := reads_head_one h hc
    exact .inr (.inr (by decide))

/-- A string. -/
theorem reads_string (name : List Char) {j : Json} {ls : List (List Char)} (hname : ∀ c ∈ name, c ≠ '"' ∧ c ≠ '\\')
    (h : Reads (j.lexemes ++ ls) ('"' :: (name ++ '"' :: s)) t) : Reads ls s t := by
  rcases reads_value h (by decide) with ⟨str, rfl, -⟩ | ⟨n, -, hc⟩ | hc
  · rw [Json.lexemes] at h
    exact (reads_head_string hname h).2
  · exact absurd hc (by unfold NumberChar; decide)
  · exact absurd hc (by decide)

end Members

end Vek280Miner
