import Vek280Miner.Software.JsonLine

/-!
# The array of a subscription (`parse_subscribe_response`)

The loop of `parse_subscribe_response` as a scanner of strings, numbers and brackets: what it does with each of them,
and where it stops. Having skipped white space it goes on by one character without looking for the terminator again, so
it gets past the end of the line exactly if an array is left open and the line ends in white space (`Unclosed`).
-/

namespace Vek280Miner.Sw

variable {s t text behind : List Char}

/-! ## The loop of `parse_subscribe_response` -/

section Loop

variable {last : CStr 65} {number : Word} {depth : Int} {c : Char}

/-- What the loop does behind the white space. -/
def subscribeToken (t : List Char) (last : CStr 65) (number : Word) (depth : Int) : Option (CStr 65 × Word) :=
  if deref t = '"' then (readJsonString t : Option (CStr 65 × List Char)).bind fun r => subscribeLoop r.2 r.1 number depth
  else if deref t = '[' then subscribeLoop t.tail last number (depth + 1)
  else if deref t = ']' then if depth ≤ 1 then some (last, number) else subscribeLoop t.tail last number (depth - 1)
  else if isDigit (deref t) then subscribeLoop (strtoul10 t).2 last (strtoul10 t).1 depth
  else subscribeLoop t.tail last number depth

theorem subscribeLoop_end (h : deref s = '\x00') : subscribeLoop s last number depth = some (last, number) := by
  rw [subscribeLoop, dif_pos h]

theorem subscribeLoop_token (h : deref s ≠ '\x00') :
    subscribeLoop s last number depth = subscribeToken (skipWs s) last number depth := by
  rw [subscribeLoop, dif_neg h, subscribeToken]
  dsimp only
  split
  · split
    · rename_i hs
      rw [hs, Option.bind_none]
    · rename_i hs
      rw [hs, Option.bind_some]
  · rfl

theorem skipWs_drop (hc : isBlank c = true) (s : List Char) : skipWs (c :: s) = skipWs s := List.dropWhile_cons_of_pos hc

/-- White space in front of anything but the end is skipped. -/
theorem subscribeLoop_blank (hc : isBlank c = true) (hs : deref s ≠ '\x00') :
    subscribeLoop (c :: s) last number depth = subscribeLoop s last number depth := by
  rw [subscribeLoop_token (s := c :: s) (isBlank_ne_zero hc).2, subscribeLoop_token hs, skipWs_drop hc]

/-- Behind white space at the end the loop goes on with the character behind the terminator. -/
theorem subscribeLoop_past (hc : isBlank c = true) :
    subscribeLoop (c :: '\x00' :: s) last number depth = subscribeLoop s last number depth := by
  rw [subscribeLoop_token (s := c :: '\x00' :: s) (isBlank_ne_zero hc).2, skipWs_drop hc, skipWs_cons (by decide)]
  rfl

theorem subscribeLoop_string (s : List Char) : subscribeLoop ('"' :: s) last number depth =
    (readJsonLoop (⟨[], by decide⟩ : CStr 65) s).bind fun r => subscribeLoop r.2 r.1 number depth := by
  have hread : readJsonString ('"' :: s) = readJsonLoop (⟨[], by decide⟩ : CStr 65) s := by
    rw [readJsonString_eq, skipWs_cons (by decide), deref_cons, if_pos rfl, List.tail_cons]
  rw [subscribeLoop_token (s := '"' :: s) (show '"' ≠ '\x00' by decide), skipWs_cons (by decide), subscribeToken, deref_cons,
    if_pos rfl, hread]

theorem subscribeLoop_open (s : List Char) :
    subscribeLoop ('[' :: s) last number depth = subscribeLoop s last number (depth + 1) := by
  rw [subscribeLoop_token (s := '[' :: s) (show '[' ≠ '\x00' by decide), skipWs_cons (by decide)]
  rfl

theorem subscribeLoop_close (s : List Char) : subscribeLoop (']' :: s) last number depth =
    if depth ≤ 1 then some (last, number) else subscribeLoop s last number (depth - 1) := by
  rw [subscribeLoop_token (s := ']' :: s) (show ']' ≠ '\x00' by decide), skipWs_cons (by decide)]
  rfl

/-- What is no white space, no string and no bracket. -/
structure OtherChar (c : Char) : Prop where
  zero : c ≠ '\x00'
  blank : isBlank c = false
  quote : c ≠ '"'
  opening : c ≠ '['
  closing : c ≠ ']'

theorem subscribeLoop_digit (hc : OtherChar c) (hd : isDigit c = true) (s : List Char) :
    subscribeLoop (c :: s) last number depth =
      subscribeLoop (strtoul10 (c :: s)).2 last (strtoul10 (c :: s)).1 depth := by
  rw [subscribeLoop_token (s := c :: s) hc.zero, skipWs_cons hc.blank, subscribeToken, deref_cons, if_neg hc.quote,
    if_neg hc.opening, if_neg hc.closing, if_pos hd]

theorem subscribeLoop_other (hc : OtherChar c) (hd : isDigit c = false) (s : List Char) :
    subscribeLoop (c :: s) last number depth = subscribeLoop s last number depth := by
  rw [subscribeLoop_token (s := c :: s) hc.zero, skipWs_cons hc.blank, subscribeToken, deref_cons, if_neg hc.quote,
    if_neg hc.opening, if_neg hc.closing, if_neg (by simp [hd]), List.tail_cons]

theorem strtoul10_digit (hd : isDigit c = true) (s : List Char) : (strtoul10 (c :: s)).2 = s.dropWhile isDigit := by
  have hrow : (c :: s).takeWhile isDigit ≠ [] := by simp [hd]
  rw [strtoul10, List.dropWhile_cons_of_neg (by simp [isSpace_digit hd]), stripSign_digit hd]
  simp only [hrow, if_false]
  exact List.dropWhile_cons_of_pos hd

end Loop

/-! ## Arrays that are left open -/

/-- From depth `depth` on, an array is left open, no string is, and white space is at the end. -/
inductive Unclosed : Int → List Char → Prop
  | blank {depth : Int} {c : Char} : isBlank c = true → Unclosed depth [c]
  | other {depth : Int} {c : Char} {s : List Char} : c ≠ '\x00' ∧ c ≠ '"' ∧ c ≠ '[' ∧ c ≠ ']' → Unclosed depth s →
      Unclosed depth (c :: s)
  | string {depth : Int} {s : List Char} (raw : RawString) : Unclosed depth s →
      Unclosed depth ('"' :: (raw.text ++ '"' :: s))
  | opening {depth : Int} {s : List Char} : Unclosed (depth + 1) s → Unclosed depth ('[' :: s)
  | closing {depth : Int} {s : List Char} : 1 < depth → Unclosed (depth - 1) s → Unclosed depth (']' :: s)

theorem otherChar_digit {c : Char} (h : isDigit c = true) : c ≠ '\x00' ∧ c ≠ '"' ∧ c ≠ '[' ∧ c ≠ ']' := by
  refine ⟨?_, ?_, ?_, ?_⟩ <;>
  · rintro rfl
    revert h
    decide

theorem Unclosed.head {depth : Int} (h : Unclosed depth s) : deref s ≠ '\x00' := by
  cases h with
  | blank hc => exact (isBlank_ne_zero hc).2
  | other hc => exact hc.1
  | string raw => exact show '"' ≠ '\x00' by decide
  | opening => exact show '[' ≠ '\x00' by decide
  | closing => exact show ']' ≠ '\x00' by decide

theorem Unclosed.last {depth : Int} (h : Unclosed depth s) : ∃ c, s.getLast? = some c ∧ isBlank c = true := by
  induction h with
  | @blank _ c hc => exact ⟨c, rfl, hc⟩
  | other _ _ ih =>
    obtain ⟨c, hlast, hc⟩ := ih
    exact ⟨c, by rw [List.getLast?_cons, hlast]; rfl, hc⟩
  | string raw _ ih =>
    obtain ⟨c, hlast, hc⟩ := ih
    exact ⟨c, by rw [List.getLast?_cons, List.getLast?_append, List.getLast?_cons, hlast]; rfl, hc⟩
  | opening _ ih =>
    obtain ⟨c, hlast, hc⟩ := ih
    exact ⟨c, by rw [List.getLast?_cons, hlast]; rfl, hc⟩
  | closing _ _ ih =>
    obtain ⟨c, hlast, hc⟩ := ih
    exact ⟨c, by rw [List.getLast?_cons, hlast]; rfl, hc⟩

/-- Digits make no difference. -/
theorem unclosed_digits {depth : Int} (s : List Char) : Unclosed depth (s.dropWhile isDigit) ↔ Unclosed depth s := by
  induction s with
  | nil => rfl
  | cons c s ih =>
    by_cases hd : isDigit c = true
    · rw [List.dropWhile_cons_of_pos hd, ih]
      constructor
      · exact Unclosed.other (otherChar_digit hd)
      · intro h
        cases h with
        | blank hc =>
          rcases isBlank_iff.1 hc with rfl | rfl | rfl | rfl <;> exact absurd hd (by decide)
        | other _ h => exact h
        | string raw => exact absurd hd (by decide)
        | opening => exact absurd hd (by decide)
        | closing => exact absurd hd (by decide)
    · rw [List.dropWhile_cons_of_neg hd]

/-- The loop gets past the end of such a text. -/
theorem subscribeLoop_unclosed {depth : Int} (h : Unclosed depth s) (last : CStr 65) (number : Word) :
    ∃ last' number' depth', ∀ behind,
      subscribeLoop (terminated s behind) last number depth = subscribeLoop behind last' number' depth' := by
  induction hlen : s.length using Nat.strong_induction_on generalizing s last number depth with
  | _ n ih =>
    subst hlen
    cases h with
    | blank hc => exact ⟨last, number, depth, fun behind => subscribeLoop_past hc⟩
    | @other _ c s hc h =>
      by_cases hb : isBlank c = true
      · obtain ⟨last', number', depth', hloop⟩ := ih _ (Nat.lt_succ_self _) h last number rfl
        refine ⟨last', number', depth', fun behind => ?_⟩
        rw [terminated_cons, subscribeLoop_blank hb (by rw [deref_terminated]; exact h.head), hloop]
      · have hother : OtherChar c := ⟨hc.1, by simpa using hb, hc.2.1, hc.2.2.1, hc.2.2.2⟩
        by_cases hd : isDigit c = true
        · have hlt : (s.dropWhile isDigit).length < (c :: s).length :=
            Nat.lt_succ_of_le (List.dropWhile_suffix _).length_le
          obtain ⟨last', number', depth', hloop⟩ := ih _ hlt ((unclosed_digits s).2 h) last (strtoul10 (c :: s)).1 rfl
          refine ⟨last', number', depth', fun behind => ?_⟩
          rw [terminated_cons, subscribeLoop_digit hother hd, ← terminated_cons, strtoul10_terminated,
            strtoul10_digit hd, hloop]
        · obtain ⟨last', number', depth', hloop⟩ := ih _ (Nat.lt_succ_self _) h last number rfl
          refine ⟨last', number', depth', fun behind => ?_⟩
          rw [terminated_cons, subscribeLoop_other hother (by simpa using hd), hloop]
    | @string _ s raw h =>
      have hlt : s.length < ('"' :: (raw.text ++ '"' :: s)).length := by
        simp only [List.length_cons, List.length_append]
        omega
      obtain ⟨last', number', depth', hloop⟩ := ih _ hlt h (raw.stored.foldl CStr.push ⟨[], by decide⟩) number rfl
      refine ⟨last', number', depth', fun behind => ?_⟩
      rw [terminated_cons, terminated_append, terminated_cons, subscribeLoop_string, readJsonLoop_iff.2 ⟨raw, rfl, rfl⟩,
        Option.bind_some, hloop]
    | @opening _ s h =>
      obtain ⟨last', number', depth', hloop⟩ := ih _ (Nat.lt_succ_self _) h last number rfl
      exact ⟨last', number', depth', fun behind => by rw [terminated_cons, subscribeLoop_open, hloop]⟩
    | @closing _ s hdepth h =>
      obtain ⟨last', number', depth', hloop⟩ := ih _ (Nat.lt_succ_self _) h last number rfl
      refine ⟨last', number', depth', fun behind => ?_⟩
      rw [terminated_cons, subscribeLoop_close, if_neg (by omega), hloop]

/-! ## Arrays that are closed -/

/-- From depth `depth` on: the strings and the rows of digits up to the bracket that closes the array, or up to the end
if there is none and no white space is left. -/
inductive Bracketed : Int → List Char → List RawString → List Nat → Prop
  | stop {depth : Int} : Bracketed depth [] [] []
  | close {depth : Int} {s : List Char} : depth ≤ 1 → Bracketed depth (']' :: s) [] []
  | blank {depth : Int} {c : Char} {s : List Char} {strs : List RawString} {nums : List Nat} : isBlank c = true → s ≠ [] →
      Bracketed depth s strs nums → Bracketed depth (c :: s) strs nums
  | string {depth : Int} {s : List Char} {strs : List RawString} {nums : List Nat} (raw : RawString) :
      Bracketed depth s strs nums → Bracketed depth ('"' :: (raw.text ++ '"' :: s)) (raw :: strs) nums
  | digits {depth : Int} {row s : List Char} {strs : List RawString} {nums : List Nat} : row ≠ [] →
      (∀ c ∈ row, isDigit c = true) → isDigit (deref s) = false → Bracketed depth s strs nums →
      Bracketed depth (row ++ s) strs (rowValue row :: nums)
  | opening {depth : Int} {s : List Char} {strs : List RawString} {nums : List Nat} : Bracketed (depth + 1) s strs nums →
      Bracketed depth ('[' :: s) strs nums
  | closing {depth : Int} {s : List Char} {strs : List RawString} {nums : List Nat} : 1 < depth →
      Bracketed (depth - 1) s strs nums → Bracketed depth (']' :: s) strs nums
  | other {depth : Int} {c : Char} {s : List Char} {strs : List RawString} {nums : List Nat} : OtherChar c →
      isDigit c = false → Bracketed depth s strs nums → Bracketed depth (c :: s) strs nums

theorem digit_other {c : Char} (h : isDigit c = true) : OtherChar c := by
  obtain ⟨h0, hq, ho, hcl⟩ := otherChar_digit h
  refine ⟨h0, ?_, hq, ho, hcl⟩
  rw [← Bool.not_eq_true]
  intro hb
  rcases isBlank_iff.1 hb with rfl | rfl | rfl | rfl <;> exact absurd h (by decide)

theorem Bracketed.head {depth : Int} {strs : List RawString} {nums : List Nat} (h : Bracketed depth s strs nums) (hs : s ≠ []) :
    deref s ≠ '\x00' := by
  cases h with
  | stop => exact absurd rfl hs
  | close => exact show ']' ≠ '\x00' by decide
  | blank hc => exact (isBlank_ne_zero hc).2
  | string raw => exact show '"' ≠ '\x00' by decide
  | @digits _ row _ _ _ hne hrow =>
    cases row with
    | nil => exact absurd rfl hne
    | cons d row => exact (digit_other (hrow d List.mem_cons_self)).zero
  | opening => exact show '[' ≠ '\x00' by decide
  | closing => exact show ']' ≠ '\x00' by decide
  | other hc => exact hc.zero

/-- What is stored of a string. -/
def cut (raw : RawString) : CStr 65 := CStr.copy raw.stored

/-- The loop keeps the last string and the last number. -/
theorem subscribeLoop_bracketed {depth : Int} {strs : List RawString} {nums : List Nat} (h : Bracketed depth s strs nums)
    (last : CStr 65) (number : Word) (behind : List Char) : subscribeLoop (terminated s behind) last number depth =
      some (strs.foldl (fun _ raw => cut raw) last, nums.foldl (fun _ v => saturate v) number) := by
  induction h generalizing last number with
  | stop => exact subscribeLoop_end rfl
  | close hdepth => rw [terminated_cons, subscribeLoop_close, if_pos hdepth, List.foldl_nil, List.foldl_nil]
  | blank hc hs h ih => rw [terminated_cons, subscribeLoop_blank hc (by rw [deref_terminated]; exact h.head hs), ih]
  | string raw _ ih =>
    have hcut : raw.stored.foldl CStr.push (⟨[], by decide⟩ : CStr 65) = cut raw := Subtype.ext (by rw [foldl_push]; rfl)
    rw [terminated_cons, terminated_append, terminated_cons, subscribeLoop_string, readJsonLoop_iff.2 ⟨raw, rfl, rfl⟩,
      Option.bind_some, hcut, ih, List.foldl_cons]
  | @digits depth row s strs nums hne hrow hs _ ih =>
    cases row with
    | nil => exact absurd rfl hne
    | cons d row =>
      have hd : isDigit d = true := hrow d List.mem_cons_self
      rw [List.cons_append, terminated_cons, subscribeLoop_digit (digit_other hd) hd, ← terminated_cons, ← List.cons_append,
        strtoul10_terminated, strtoul10_row hne hrow hs, ih, List.foldl_cons]
  | opening _ ih => rw [terminated_cons, subscribeLoop_open, ih]
  | closing hdepth _ ih => rw [terminated_cons, subscribeLoop_close, if_neg (by omega), ih]
  | other hc hd _ ih => rw [terminated_cons, subscribeLoop_other hc hd, ih]

/-- How a text goes on: it is left open, or closed, or it has a string that is not closed. -/
def Scanned (depth : Int) (s : List Char) : Prop := Unclosed depth s ∨ (∃ strs nums, Bracketed depth s strs nums) ∨
  ∀ last number behind, subscribeLoop (terminated s behind) last number depth = none

/-- A step of the loop in front of it. -/
theorem Scanned.step {depth depth' : Int} {c : Char} (h : Scanned depth' s)
    (hopen : Unclosed depth' s → Unclosed depth (c :: s))
    (hbracketed : ∀ strs nums, Bracketed depth' s strs nums → Bracketed depth (c :: s) strs nums)
    (hloop : ∀ last number behind, subscribeLoop (c :: terminated s behind) last number depth =
      subscribeLoop (terminated s behind) last number depth') : Scanned depth (c :: s) := by
  rcases h with h | ⟨strs, nums, h⟩ | h
  · exact .inl (hopen h)
  · exact .inr (.inl ⟨strs, nums, hbracketed strs nums h⟩)
  · exact .inr (.inr fun last number behind => (hloop last number behind).trans (h last number behind))

/-- A string in front of it, or a quotation mark without a second one. -/
theorem Scanned.string {depth : Int} (h : ∀ raw t, s = RawString.text raw ++ '"' :: t → Scanned depth t) :
    Scanned depth ('"' :: s) := by
  cases hread : readJsonLoop (⟨[], by decide⟩ : CStr 65) s with
  | none =>
    refine .inr (.inr fun last number behind => ?_)
    rw [terminated_cons, subscribeLoop_string, readJsonLoop_terminated, hread]
    rfl
  | some r =>
    obtain ⟨string, t⟩ := r
    obtain ⟨raw, rfl, -⟩ := readJsonLoop_iff.1 hread
    rcases h raw t rfl with hopen | ⟨strs, nums, hbracketed⟩ | hnone
    · exact .inl (.string raw hopen)
    · exact .inr (.inl ⟨raw :: strs, nums, .string raw hbracketed⟩)
    · refine .inr (.inr fun last number behind => ?_)
      rw [terminated_cons, subscribeLoop_string, readJsonLoop_terminated, hread]
      exact hnone string number behind

/-- A row of digits in front of it. -/
theorem Scanned.digits {depth : Int} {c : Char} (hd : isDigit c = true) (h : Scanned depth (s.dropWhile isDigit)) :
    Scanned depth (c :: s) := by
  have hrow : c :: s = (c :: s).takeWhile isDigit ++ s.dropWhile isDigit := by
    rw [List.takeWhile_cons_of_pos hd, List.cons_append, List.takeWhile_append_dropWhile]
  have hne : (c :: s).takeWhile isDigit ≠ [] := by simp [hd]
  have hdigits : ∀ d ∈ (c :: s).takeWhile isDigit, isDigit d = true := fun _ => List.mem_takeWhile_imp
  have hnext : isDigit (deref (s.dropWhile isDigit)) = false := by
    cases hdrop : s.dropWhile isDigit with
    | nil => rfl
    | cons d rest =>
      have hhead := List.head?_dropWhile_not isDigit s
      rw [hdrop] at hhead
      simpa using hhead
  have hloop : ∀ last number behind, subscribeLoop (c :: terminated s behind) last number depth =
      subscribeLoop (terminated (s.dropWhile isDigit) behind) last (strtoul10 (c :: s)).1 depth := by
    intro last number behind
    rw [subscribeLoop_digit (digit_other hd) hd, ← terminated_cons, strtoul10_terminated, strtoul10_digit hd]
  rcases h with hopen | ⟨strs, nums, hbracketed⟩ | hnone
  · exact .inl (.other (otherChar_digit hd) ((unclosed_digits s).1 hopen))
  · rw [hrow]
    exact .inr (.inl ⟨strs, _, .digits hne hdigits hnext hbracketed⟩)
  · exact .inr (.inr fun last number behind => (hloop last number behind).trans (hnone _ _ _))

theorem scanned (depth : Int) (h0 : '\x00' ∉ s) : Scanned depth s := by
  induction hlen : s.length using Nat.strong_induction_on generalizing s depth with
  | _ n ih =>
    subst hlen
    cases s with
    | nil => exact .inr (.inl ⟨[], [], .stop⟩)
    | cons c s =>
      simp only [List.mem_cons, not_or] at h0
      obtain ⟨hc, h0⟩ := h0
      have hrest : ∀ depth', Scanned depth' s := fun depth' => ih _ (Nat.lt_succ_self _) depth' h0 rfl
      by_cases hq : c = '"'
      · subst hq
        refine .string fun raw t hs => ih _ ?_ depth (fun hmem => h0 ?_) rfl
        · rw [hs]
          simp only [List.length_cons, List.length_append]
          omega
        · rw [hs]
          exact List.mem_append_right _ (List.mem_cons_of_mem _ hmem)
      · by_cases ho : c = '['
        · subst ho
          exact (hrest (depth + 1)).step .opening (fun _ _ => .opening) fun _ _ _ => subscribeLoop_open _
        · by_cases hcl : c = ']'
          · subst hcl
            by_cases hdepth : depth ≤ 1
            · exact .inr (.inl ⟨[], [], .close hdepth⟩)
            · exact (hrest (depth - 1)).step (.closing (by omega)) (fun _ _ => .closing (by omega)) fun _ _ _ => by
                rw [subscribeLoop_close, if_neg hdepth]
          · have hopen : Unclosed depth s → Unclosed depth (c :: s) := .other ⟨Ne.symm hc, hq, ho, hcl⟩
            by_cases hb : isBlank c = true
            · cases s with
              | nil => exact .inl (.blank hb)
              | cons c' s =>
                have hc' : c' ≠ '\x00' := fun heq => h0 (by rw [heq]; exact List.mem_cons_self)
                exact (hrest depth).step hopen (fun _ _ => .blank hb (List.cons_ne_nil _ _)) fun _ _ _ =>
                  subscribeLoop_blank hb hc'
            · have hother : OtherChar c := ⟨Ne.symm hc, by simpa using hb, hq, ho, hcl⟩
              by_cases hd : isDigit c = true
              · have hlt : (s.dropWhile isDigit).length < (c :: s).length :=
                  Nat.lt_succ_of_le (List.dropWhile_suffix _).length_le
                exact .digits hd (ih _ hlt depth (fun hmem => h0 ((List.dropWhile_suffix _).subset hmem)) rfl)
              · exact (hrest depth).step hopen (fun _ _ => .other hother (by simpa using hd)) fun _ _ _ =>
                  subscribeLoop_other hother (by simpa using hd) _

/-- The loop stops at the end of the line unless an array is left open. -/
theorem subscribeLoop_within {depth : Int} (h0 : '\x00' ∉ s) (h : ¬ Unclosed depth s) (last : CStr 65) (number : Word) :
    ∃ r, ∀ behind, subscribeLoop (terminated s behind) last number depth = r := by
  rcases scanned depth h0 with hopen | ⟨strs, nums, hbracketed⟩ | hnone
  · exact absurd hopen h
  · exact ⟨_, subscribeLoop_bracketed hbracketed last number⟩
  · exact ⟨none, hnone last number⟩

/-! ## `parse_subscribe_response` -/

/-- The text from the first bracket behind the first `"result"` on, in a line with the id of the request. -/
def subscribeArray (line : List Char) : Option (List Char) :=
  if jsonHasId line 1 then (strstr "\"result\"".toList line).bind (strchr '[') else none

/-- The state with the last string and the last number, if they can be a subscription. -/
def subscribed (state : StratumState) (r : CStr 65 × Word) : Option StratumState :=
  if h : r.1.1 = [] ∨ 16 < r.2.toNat then none
  else
    some { state with
      extranonce1 := CStr.copy r.1
      extranonce2Size := r.2.toNat
      subscribed := true
      extranonce2Size_le := by omega }

theorem parseSubscribeResponse_eq (line : List Char) (state : StratumState) : parseSubscribeResponse line state =
    (subscribeArray line).bind fun s => (subscribeLoop s ⟨[], by decide⟩ 0 0).bind (subscribed state) := by
  unfold parseSubscribeResponse subscribeArray
  cases hr : strstr "\"result\"".toList line with
  | none => cases jsonHasId line 1 <;> rfl
  | some result =>
    dsimp only
    cases hid : jsonHasId line 1 with
    | false => rfl
    | true =>
      rw [Option.bind_some, Bool.not_true, if_neg Bool.false_ne_true, if_pos rfl]
      cases hs : strchr '[' result with
      | none => rfl
      | some s =>
        rw [Option.bind_some]
        dsimp only
        cases subscribeLoop s ⟨[], by decide⟩ 0 0 with
        | none => rfl
        | some r => rfl

theorem subscribeArray_terminated (s behind : List Char) :
    subscribeArray (terminated s behind) = (subscribeArray s).map (terminated · behind) := by
  rw [subscribeArray, subscribeArray, jsonHasId_terminated, strstr_terminated (by decide)]
  split
  · cases strstr "\"result\"".toList s with
    | none => rfl
    | some r => rw [Option.map_some, Option.bind_some, Option.bind_some, strchr_terminated (by decide)]
  · rfl

theorem subscribeArray_suffix (h : subscribeArray s = some t) : t <:+ s := by
  unfold subscribeArray at h
  split at h
  · obtain ⟨r, hr, ht⟩ := Option.bind_eq_some_iff.1 h
    obtain ⟨a, u, rfl, -, -⟩ := strchr_eq_some ht
    exact (List.suffix_append a t).trans (strstr_suffix hr).1
  · cases h

/-- The loop gets past the end of the line. -/
def Overrun (text : List Char) : Prop := ∃ s, subscribeArray text = some s ∧ Unclosed 0 s

theorem parseSubscribeResponse_within (h0 : '\x00' ∉ text) (h : ¬ Overrun text) (state : StratumState) (behind : List Char) :
    parseSubscribeResponse (terminated text behind) state = parseSubscribeResponse (terminated text []) state := by
  rw [parseSubscribeResponse_eq, parseSubscribeResponse_eq, subscribeArray_terminated, subscribeArray_terminated]
  cases hs : subscribeArray text with
  | none => rfl
  | some s =>
    have hs0 : '\x00' ∉ s := fun hmem => h0 ((subscribeArray_suffix hs).subset hmem)
    obtain ⟨r, hr⟩ := subscribeLoop_within hs0 (fun hun => h ⟨s, hs, hun⟩) ⟨[], by decide⟩ 0
    rw [Option.map_some, Option.map_some, Option.bind_some, Option.bind_some, hr, hr]

/-- What stands behind the terminator decides then. -/
theorem parseSubscribeResponse_overrun (h : Overrun text) (state : StratumState) :
    (parseSubscribeResponse (terminated text ['"', 'x', '"', '0']) state).isSome ∧
      parseSubscribeResponse (terminated text ['9', '9']) state = none := by
  obtain ⟨s, hs, hun⟩ := h
  obtain ⟨last, number, depth, hloop⟩ := subscribeLoop_unclosed hun ⟨[], by decide⟩ 0
  have hother : ∀ c : Char, c ∈ ['0', '9'] → OtherChar c := by
    intro c hc
    constructor <;>
    · revert c
      decide
  constructor
  · have hfound : subscribeLoop ['"', 'x', '"', '0'] last number depth = some (⟨['x'], by decide⟩, 0) := by
      rw [subscribeLoop_string, readJsonLoop_plain (by decide), readJsonLoop_quote, Option.bind_some,
        subscribeLoop_digit (hother '0' (by decide)) (by decide), strtoul10_digit (by decide), subscribeLoop_end rfl]
      rfl
    rw [parseSubscribeResponse_eq, subscribeArray_terminated, hs, Option.map_some, Option.bind_some, hloop, hfound]
    rfl
  · have hfound : subscribeLoop ['9', '9'] last number depth = some (last, 99) := by
      rw [subscribeLoop_digit (hother '9' (by decide)) (by decide), strtoul10_digit (by decide), subscribeLoop_end rfl]
      rfl
    rw [parseSubscribeResponse_eq, subscribeArray_terminated, hs, Option.map_some, Option.bind_some, hloop, hfound,
      Option.bind_some, subscribed, dif_pos (.inr (show 16 < (99 : Word).toNat by decide))]

end Vek280Miner.Sw
