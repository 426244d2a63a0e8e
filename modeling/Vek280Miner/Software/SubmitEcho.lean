import Vek280Miner.Software.NotifyRoundTrip
import Vek280Miner.Software.NotifyStrings
import Vek280Miner.Software.ResponseLine
import Vek280Miner.Software.SubmittedNonce

/-!
# The line that reports a share (`submit_share`)

The strings of the job are printed with `%s` between the quotes of the format. The buffer of 512 characters holds the
whole line (`submitShare_eq`). The line is a JSON object whose `params` are the strings that were sent by the pool when
what is stored of them can stand between quotes for them (`Respelled`). Otherwise a string that is printed may still
look like several ones, but not for every nonce (`echoed_iff`).
-/

namespace Vek280Miner.Sw

variable {user : CStr 128} {notify : StratumNotify} {state : StratumState} {job : MinerJob} {nonce : Word}
  {line s t : List Char} {members : List (JsonString × Json)}

/-! ## What is reported -/

/-- The line is complete, and an object whose `params` are the user, the id of the job and `ntime` as they were sent, the
job's `extranonce2` and the nonce. -/
def Echoed (user : CStr 128) (e : NotifyElements) (job : MinerJob) (nonce : Word) (line : List Char) : Prop :=
  line = submitHead user job ++ formatHex8 nonce ++ submitTail ∧
    ∃ (members : List (JsonString × Json)) (s1 s2 s3 s4 s5 : JsonString), (Json.obj members).Text line ∧
      member "params".toList members = some (.arr [.str s1, .str s2, .str s3, .str s4, .str s5]) ∧
      s1.decode = user.1 ∧ s2.decode = e.jobId.decode ∧ s3.decode = job.extranonce2.1 ∧ s4.decode = e.ntime.decode ∧
      s5.decode = formatHex8 nonce

/-- Every share of the job is echoed. -/
def EchoesAll (user : CStr 128) (e : NotifyElements) (job : MinerJob) : Prop :=
  ∀ nonce line, submitShare user nonce job = some line → Echoed user e job nonce line

/-- The job that is built from the notify of a line. -/
structure BuiltFrom (text : List Char) (notify : StratumNotify) (state : StratumState) (job : MinerJob) : Prop where
  parsed : parseNotify text = some notify
  built : (buildJob notify state).1 = some job

/-- No character needs an escape. -/
abbrev PlainText (s : List Char) : Prop := ∀ c ∈ s, IsPlain c

/-- What is stored of a string stands between quotes for the string: it is stored in full and needs no escapes. With
other characters it only does if by coincidence they spell the string. -/
def Respelled (stored sent : List Char) : Prop :=
  stored = sent ∧ PlainText stored ∨ stored ≠ sent ∧ ∃ str : JsonString, str.text = stored ∧ str.decode = sent

theorem respelled_iff {stored sent : List Char} :
    Respelled stored sent ↔ ∃ str : JsonString, str.text = stored ∧ str.decode = sent := by
  constructor
  · rintro (⟨rfl, hplain⟩ | ⟨-, h⟩)
    · exact ⟨.ofPlain stored hplain, JsonString.text_ofPlain hplain, JsonString.decode_ofPlain hplain⟩
    · exact h
  · rintro ⟨str, rfl, rfl⟩
    by_cases heq : str.text = str.decode
    · refine .inl ⟨heq, ?_⟩
      rw [heq]
      exact (JsonString.plain_of_length (by rw [heq])).2
    · exact .inr ⟨heq, str, rfl, rfl⟩

theorem plain_hex {c : Char} (h : (hexValue c).isSome) : IsPlain c := by
  have hrange := hexValue_codes h
  refine ⟨?_, ?_, ?_⟩
  · show 32 ≤ c.toNat
    omega
  · rintro rfl
    revert hrange
    decide
  · rintro rfl
    revert hrange
    decide

theorem plain_formatHex8 (nonce : Word) : PlainText (formatHex8 nonce) := fun _ hc => plain_hex (hex_formatHex8 hc)

/-- Hexadecimal digits. -/
abbrev HexDigits (s : List Char) : Prop := ∀ c ∈ s, (hexValue c).isSome

/-- The strings of the job. -/
theorem buildJob_strings (h : (buildJob notify state).1 = some job) :
    job.jobId = notify.jobId ∧ job.ntime = notify.ntime ∧ HexDigits job.extranonce2.1 := by
  obtain ⟨header, -, rfl⟩ := buildJob_some h
  refine ⟨Subtype.ext ?_, Subtype.ext ?_, fun c hc => ?_⟩
  · exact List.take_of_length_le (Nat.le_of_lt_succ notify.jobId.2)
  · exact List.take_of_length_le (Nat.le_of_lt_succ notify.ntime.2)
  · exact hex_bytesToHex (List.mem_of_mem_take hc)

/-! ## The beginning of the line -/

/-- The number `4`. -/
theorem reads_four {j : Json} {ls : List (List Char)} (h : Reads (j.lexemes ++ ls) ('4' :: ',' :: s) t) :
    Reads ls (',' :: s) t := by
  rcases reads_value h (by decide) with ⟨str, -, hc⟩ | ⟨n, rfl, -⟩ | hc
  · exact absurd hc (by decide)
  · rw [Json.lexemes] at h
    obtain ⟨r, hs, hr⟩ := reads_head h (by decide)
    obtain ⟨d, l, hd⟩ := List.exists_cons_of_ne_nil (number_ne_nil n)
    rw [hd, List.cons_append] at hs
    obtain ⟨-, hs⟩ := List.cons.inj hs
    cases l with
    | nil => exact hs ▸ hr
    | cons d' l =>
      obtain ⟨rfl, -⟩ := List.cons.inj hs
      exact absurd (n.text_chars ',' (by rw [hd]; simp)) (by unfold NumberChar; decide)
  · exact absurd hc (by decide)

/-- The elements of `params`. -/
theorem reads_params {elements : List Json}
    (htext : (Json.obj members).Text ("\x7b\"id\":4,\"method\":\"mining.submit\",\"params\":[".toList ++ s))
    (hparams : member "params".toList members = some (.arr elements)) : ∃ rest blanks,
      Reads (commaSep (elements.map Json.lexemes) ++ ([']'] :: memberTail rest)) s blanks := by
  have hline : "\x7b\"id\":4,\"method\":\"mining.submit\",\"params\":[".toList ++ s =
      '{' :: '"' :: ("id".toList ++ '"' :: ':' :: '4' :: ',' :: '"' :: ("method".toList ++ '"' :: ':' :: '"' ::
        ("mining.submit".toList ++ '"' :: ',' :: '"' :: ("params".toList ++ '"' :: ':' :: '[' :: s)))) := by
    dsimp only [String.reduceToList]
    rfl
  rw [hline] at htext
  obtain ⟨blanks, -, h⟩ := htext
  cases members with
  | nil => cases hparams
  | cons m1 members =>
    rw [lexemes_obj_cons] at h
    obtain ⟨hname1, h1⟩ := reads_name "id".toList (by decide) (reads_head_one h (by decide)).2
    obtain ⟨m2, members, rfl, h2⟩ := memberTail_comma (reads_four h1)
    obtain ⟨hname2, h3⟩ := reads_name "method".toList (by decide) h2
    obtain ⟨m3, rest, rfl, h4⟩ := memberTail_comma (reads_string "mining.submit".toList (by decide) h3)
    obtain ⟨hname3, h5⟩ := reads_name "params".toList (by decide) h4
    -- the third member is the one that is looked for
    have hdecode : ∀ {key : JsonString} {name : List Char}, key.text = name → '\\' ∉ name → key.decode = name :=
      fun hkey hname => (JsonString.decode_eq_text (hkey ▸ hname)).trans hkey
    have hvalue : m3.2 = .arr elements := by
      have hskip1 : m1.1.decode ≠ "params".toList := by rw [hdecode hname1 (by decide)]; decide
      have hskip2 : m2.1.decode ≠ "params".toList := by rw [hdecode hname2 (by decide)]; decide
      have hfound : m3.1.decode = "params".toList := hdecode hname3 (by decide)
      rw [member_cons_ne hskip1, member_cons_ne hskip2, member_cons_eq hfound] at hparams
      exact Option.some.inj hparams
    rw [hvalue, Json.lexemes, elementLexemes_eq_map, List.cons_append, List.append_assoc] at h5
    exact ⟨rest, blanks, (reads_head_one h5 (by decide)).2⟩

/-! ## The strings -/

theorem submitOpen_eq : submitOpen = "\x7b\"id\":4,\"method\":\"mining.submit\",\"params\":[".toList ++ ['"'] := by
  dsimp only [submitOpen, String.reduceToList]
  rfl

/-- The line behind the bracket of `params`. -/
def submitParams (user : CStr 128) (job : MinerJob) (nonce : Word) : List Char :=
  '"' :: (user ++ submitSep ++ job.jobId ++ submitSep ++ job.extranonce2 ++ submitSep ++ job.ntime ++ submitSep ++
    formatHex8 nonce ++ submitTail)

theorem submitHead_eq : submitHead user job ++ formatHex8 nonce ++ submitTail =
    "\x7b\"id\":4,\"method\":\"mining.submit\",\"params\":[".toList ++ submitParams user job nonce := by
  rw [submitHead, submitOpen_eq, submitParams]
  simp only [List.append_assoc, List.cons_append, List.nil_append]

/-- The line behind the first string. -/
def submitStrings (job : MinerJob) (nonce : Word) : List Char :=
  job.jobId ++ '"' :: ',' :: '"' :: (job.extranonce2 ++ '"' :: ',' :: '"' :: (job.ntime ++ '"' :: ',' :: '"' ::
    (formatHex8 nonce ++ '"' :: ']' :: '}' :: ['\n'])))

theorem submitParams_eq : submitParams user job nonce = '"' :: (user.1 ++ '"' :: ',' :: '"' :: submitStrings job nonce) := by
  have hsep : submitSep = ['"', ',', '"'] := by
    dsimp only [submitSep, String.reduceToList]
  have htail : submitTail = ['"', ']', '}', '\n'] := by
    dsimp only [submitTail, String.reduceToList]
  rw [submitParams, submitStrings, hsep, htail]
  simp only [List.append_assoc, List.cons_append, List.nil_append]

/-! ## Strings that are printed between quotes -/

section Printed

variable {str : JsonString} {j w r : List Char} {ls : List (List Char)} {c : Char}

/-- Where a string ends that begins with the text `j`, if a quote, a comma and a quote stand behind that: with it, behind
it, or in it. -/
theorem string_ends (h : str.text ++ '"' :: r = j ++ '"' :: ',' :: '"' :: w) : (str.text = j ∧ r = ',' :: '"' :: w) ∨
    r = w ∨ ∃ j', j = str.text ++ '"' :: j' ∧ r = j' ++ '"' :: ',' :: '"' :: w := by
  rcases List.append_eq_append_iff.1 h with ⟨j', rfl, htail⟩ | ⟨a, htext, htail⟩
  · cases j' with
    | nil => exact .inl ⟨(List.append_nil _).symm, (List.cons.inj htail).2⟩
    | cons q j' =>
      obtain ⟨rfl, rfl⟩ := List.cons.inj htail
      exact .inr (.inr ⟨j', rfl, rfl⟩)
  · rcases a with _ | ⟨a1, _ | ⟨a2, _ | ⟨a3, a⟩⟩⟩
    · exact .inl ⟨by rw [htext, List.append_nil], (List.cons.inj htail).2.symm⟩
    · obtain ⟨-, htail⟩ := List.cons.inj htail
      exact absurd (List.cons.inj htail).1 (by decide)
    · obtain ⟨-, htail⟩ := List.cons.inj htail
      obtain ⟨-, htail⟩ := List.cons.inj htail
      exact .inr (.inl (List.cons.inj htail).2.symm)
    · -- in front of the second quote there is no backslash
      simp only [List.cons_append, List.cons.injEq] at htail
      obtain ⟨rfl, rfl, rfl, -⟩ := htail
      have hlast := JsonString.quote_escaped (a := j ++ ['"', ',']) (b := a) (by rw [htext]; simp)
      rw [List.getLast?_append] at hlast
      exact absurd (Option.some.inj hlast) (by decide)

/-- The next string, behind a comma: it ends behind `j` or with `j`, or it is part of `j`. -/
theorem next_string (h : Reads ([','] :: str.quoted :: ls) (j ++ '"' :: ',' :: '"' :: w) t) :
    Reads ls w t ∨ (Reads ls (',' :: '"' :: w) t ∧ str.text.length < j.length) ∨
      ∃ b j', '"' ∉ b ∧ j = b ++ '"' :: (str.text ++ '"' :: j') ∧ Reads ls (j' ++ '"' :: ',' :: '"' :: w) t := by
  obtain ⟨blanks, r1, hb, hs, blanks', r, hb', rfl, h⟩ := h
  have hquote : '"' ∉ blanks ++ ',' :: blanks' := by
    rw [List.mem_append, List.mem_cons]
    rintro (hmem | hmem | hmem)
    · exact absurd (hb _ hmem) (by decide)
    · exact absurd hmem (by decide)
    · exact absurd (hb' _ hmem) (by decide)
  have heq : j ++ '"' :: ',' :: '"' :: w = (blanks ++ ',' :: blanks') ++ '"' :: (str.text ++ '"' :: r) := by
    rw [hs]
    simp [JsonString.quoted]
  rcases List.append_eq_append_iff.1 heq with ⟨a, ha, htail⟩ | ⟨a, rfl, htail⟩
  · cases a with
    | nil =>
      have htext : str.text ++ '"' :: r = [','] ++ '"' :: w := (List.cons.inj htail).2.symm
      exact .inl ((JsonString.text_ends (by decide) htext).2 ▸ h)
    | cons q a =>
      obtain ⟨rfl, -⟩ := List.cons.inj htail
      exact absurd (ha ▸ List.mem_append_right j List.mem_cons_self) hquote
  · cases a with
    | nil =>
      have htext : str.text ++ '"' :: r = [','] ++ '"' :: w := (List.cons.inj htail).2
      exact .inl ((JsonString.text_ends (by decide) htext).2 ▸ h)
    | cons q a =>
      obtain ⟨rfl, hends⟩ := List.cons.inj htail
      rcases string_ends hends with ⟨htext, rfl⟩ | rfl | ⟨j', rfl, rfl⟩
      · refine .inr (.inl ⟨h, ?_⟩)
        rw [htext]
        simp only [List.length_append, List.length_cons]
        omega
      · exact .inl h
      · exact .inr (.inr ⟨_, j', hquote, rfl, h⟩)

/-- No digit stands for punctuation. -/
theorem not_reads_hex (hj : HexDigits j) (hc : c = ',' ∨ c = ']') : ¬ Reads ([c] :: ls) (j ++ '"' :: w) t := by
  intro h
  cases j with
  | nil =>
    obtain ⟨rfl, -⟩ := reads_head_one h (by decide)
    revert hc
    decide
  | cons d j =>
    have hd := hexValue_codes (hj d List.mem_cons_self)
    have hblank : isBlank d = false := by
      rw [← Bool.not_eq_true, isBlank_iff]
      rintro (rfl | rfl | rfl | rfl) <;> exact absurd hd (by decide)
    obtain ⟨rfl, -⟩ := reads_head_one h hblank
    rcases hc with rfl | rfl <;> exact absurd hd (by decide)

/-- There is one first quote. -/
theorem quote_unique {b b' x x' : List Char} (hb : '"' ∉ b) (hb' : '"' ∉ b') (h : b ++ '"' :: x = b' ++ '"' :: x') :
    x = x' := by
  rcases List.append_eq_append_iff.1 h with ⟨a, rfl, htail⟩ | ⟨a, rfl, htail⟩
  · cases a with
    | nil => exact (List.cons.inj htail).2
    | cons q a =>
      obtain ⟨rfl, -⟩ := List.cons.inj htail
      exact absurd (List.mem_append_right b List.mem_cons_self) hb'
  · cases a with
    | nil => exact (List.cons.inj htail).2.symm
    | cons q a =>
      obtain ⟨rfl, -⟩ := List.cons.inj htail
      exact absurd (List.mem_append_right b' List.mem_cons_self) hb

/-- Strings that all stand in a text. -/
def Within : List JsonString → List Char → Prop
  | [], _ => True
  | str :: strs, j => ∃ b j', '"' ∉ b ∧ j = b ++ '"' :: (str.text ++ '"' :: j') ∧ Within strs j'

theorem Within.length_le {strs : List JsonString} (h : Within strs j) (hmem : str ∈ strs) :
    str.text.length ≤ j.length := by
  induction strs generalizing j with
  | nil => cases hmem
  | cons s strs ih =>
    obtain ⟨b, j', -, rfl, h⟩ := h
    simp only [List.length_append, List.length_cons]
    rcases List.mem_cons.1 hmem with rfl | hmem
    · omega
    · have hle := ih h hmem
      omega

/-- No other strings do. -/
theorem Within.unique {strs strs' : List JsonString} (h : Within strs j) (h' : Within strs' j)
    (hlen : strs.length = strs'.length) : strs = strs' := by
  induction strs generalizing strs' j with
  | nil => exact (List.length_eq_zero_iff.1 hlen.symm).symm
  | cons str strs ih =>
    cases strs' with
    | nil => cases hlen
    | cons str' strs' =>
      obtain ⟨b, j1, hb, rfl, h⟩ := h
      obtain ⟨b', j1', hb', heq, h'⟩ := h'
      obtain ⟨rfl, rfl⟩ := JsonString.text_unique (quote_unique hb hb' heq)
      rw [ih h h' (Nat.succ.inj hlen)]

end Printed

/-- The lexemes of the strings behind the first one. -/
def stringTail (s2 s3 s4 s5 : JsonString) (ls : List (List Char)) : List (List Char) :=
  [','] :: s2.quoted :: [','] :: s3.quoted :: [','] :: s4.quoted :: [','] :: s5.quoted :: [']'] :: ls

/-- The strings stand where they are printed, or all of them in the first one. -/
theorem strings_of_reads {s2 s3 s4 s5 : JsonString} {ls : List (List Char)} (he : HexDigits job.extranonce2.1)
    (h5 : s5.decode = formatHex8 nonce) (h : Reads (stringTail s2 s3 s4 s5 ls) (',' :: '"' :: submitStrings job nonce) t) :
    s2.text = job.jobId.1 ∧ s4.text = job.ntime.1 ∨ Within [s2, s3, s4, s5] ('"' :: job.jobId.1) := by
  have hlen5 : 8 ≤ s5.text.length := by
    have hle := s5.length_decode_le
    rwa [h5, length_formatHex8] at hle
  have hntime := job.ntime.2
  have hplain : ∀ c ∈ job.extranonce2.1, c ≠ '"' ∧ c ≠ '\\' := fun c hc => (plain_hex (he c hc)).2
  have hnonce : HexDigits (formatHex8 nonce) := fun _ hc => hex_formatHex8 hc
  -- the string of the id
  obtain ⟨r, hs, h⟩ := reads_head (reads_head_one h (by decide)).2 (by decide)
  have hid : s2.text ++ '"' :: r = submitStrings job nonce := by
    rw [(List.cons.inj hs).2]
    simp
  rw [submitStrings] at hid
  rcases string_ends hid with ⟨hjob, rfl⟩ | rfl | ⟨j, hj, rfl⟩
  · -- the strings of extranonce2 and of the time
    obtain ⟨-, h⟩ := reads_head_string hplain (reads_head_one h (by decide)).2
    obtain ⟨r, hs, h⟩ := reads_head (reads_head_one h (by decide)).2 (by decide)
    have htime : s4.text ++ '"' :: r = job.ntime.1 ++ '"' :: ',' :: '"' :: (formatHex8 nonce ++ '"' :: ']' :: '}' :: ['\n']) := by
      rw [(List.cons.inj hs).2]
      simp
    rcases string_ends htime with ⟨htext, -⟩ | rfl | ⟨j, hj, rfl⟩
    · exact .inl ⟨hjob, htext⟩
    · exact absurd h (not_reads_hex hnonce (.inl rfl))
    · -- the nonce is longer than what is left of the time
      have hshort := congrArg List.length hj
      rw [List.length_append, List.length_cons] at hshort
      rcases next_string h with h | ⟨-, hlt⟩ | ⟨b, j', -, rfl, -⟩
      · exact absurd h (not_reads_hex hnonce (.inr rfl))
      · omega
      · simp only [List.length_append, List.length_cons] at hshort
        omega
  · exact absurd h (not_reads_hex he (.inl rfl))
  · rcases next_string h with h | ⟨h, -⟩ | ⟨b3, j3, hb3, rfl, hthird⟩
    · exact absurd h (not_reads_hex he (.inl rfl))
    · -- the string of the time would be `extranonce2`, and the nonce would be the time
      obtain ⟨-, h⟩ := reads_head_string hplain (reads_head_one h (by decide)).2
      obtain ⟨r, hs, h⟩ := reads_head (reads_head_one h (by decide)).2 (by decide)
      have hlast : s5.text ++ '"' :: r = job.ntime.1 ++ '"' :: ',' :: '"' :: (formatHex8 nonce ++ '"' :: ']' :: '}' :: ['\n']) := by
        rw [(List.cons.inj hs).2]
        simp
      rcases string_ends hlast with ⟨-, rfl⟩ | rfl | ⟨j, hj, -⟩
      · exact absurd (reads_head_one h (by decide)).1 (by decide)
      · exact absurd h (not_reads_hex hnonce (.inr rfl))
      · have hshort := congrArg List.length hj
        rw [List.length_append, List.length_cons] at hshort
        omega
    · rcases next_string hthird with h | ⟨h, -⟩ | ⟨b4, j4, hb4, rfl, hfourth⟩
      · exact absurd h (not_reads_hex he (.inl rfl))
      · -- the nonce would be `extranonce2`
        obtain ⟨-, h⟩ := reads_head_string hplain (reads_head_one h (by decide)).2
        exact absurd (reads_head_one h (by decide)).1 (by decide)
      · rcases next_string hfourth with h | ⟨h, -⟩ | ⟨b5, j5, hb5, rfl, -⟩
        · exact absurd h (not_reads_hex he (.inr rfl))
        · exact absurd (reads_head_one h (by decide)).1 (by decide)
        · exact .inr ⟨[], _, by simp, by rw [hj]; rfl, b3, _, hb3, rfl, b4, _, hb4, rfl, b5, _, hb5, rfl, trivial⟩

/-- The object that is sent if the strings can be printed. -/
def submitMembers (user jobId ntime : JsonString) (he : PlainText job.extranonce2.1) (nonce : Word) :
    List (JsonString × Json) :=
  [(.ofPlain "id".toList (by decide), .num (.ofNat 4)),
    (.ofPlain "method".toList (by decide), .str (.ofPlain "mining.submit".toList (by decide))),
    (.ofPlain "params".toList (by decide), .arr [.str user, .str jobId, .str (.ofPlain job.extranonce2.1 he), .str ntime,
      .str (.ofPlain (formatHex8 nonce) (plain_formatHex8 nonce))])]

theorem submit_text {userString jobId ntime : JsonString} (hu : userString.text = user.1) (hi : jobId.text = job.jobId.1)
    (he : PlainText job.extranonce2.1) (ht : ntime.text = job.ntime.1) (nonce : Word) :
    (Json.obj (submitMembers userString jobId ntime he nonce)).Text (submitHead user job ++ formatHex8 nonce ++ submitTail) := by
  have hlexemes : (Json.obj (submitMembers userString jobId ntime he nonce)).lexemes =
      [['{'], nameLexeme "id".toList, [':'], ['4'], [','], nameLexeme "method".toList, [':'], nameLexeme "mining.submit".toList,
        [','], nameLexeme "params".toList, [':'], ['[']] ++
      [nameLexeme user.1, [','], nameLexeme job.jobId.1, [','], nameLexeme job.extranonce2.1, [','], nameLexeme job.ntime.1,
        [','], nameLexeme (formatHex8 nonce), [']'], ['}']] := by
    have hfour : (JsonNumber.ofNat 4).text = ['4'] := rfl
    simp only [submitMembers, Json.lexemes, memberLexemes, elementLexemes, commaSep_cons_cons, commaSep_singleton,
      JsonString.quoted, JsonString.text_ofPlain, hfour, hu, hi, ht]
    rfl
  have hopen : [['{'], nameLexeme "id".toList, [':'], ['4'], [','], nameLexeme "method".toList, [':'],
      nameLexeme "mining.submit".toList, [','], nameLexeme "params".toList, [':'], ['[']].flatten =
        "\x7b\"id\":4,\"method\":\"mining.submit\",\"params\":[".toList := by
    dsimp only [String.reduceToList]
    decide
  have htext : submitHead user job ++ formatHex8 nonce ++ submitTail =
      (Json.obj (submitMembers userString jobId ntime he nonce)).lexemes.flatten ++ ['\n'] := by
    rw [submitHead_eq, submitParams_eq, submitStrings, hlexemes, List.flatten_append, hopen]
    simp [nameLexeme]
  rw [htext]
  exact ⟨['\n'], by decide, reads_flatten _ _⟩

/-! ## Echo -/

variable {e : NotifyElements} {text : List Char}

/-- What a line that is echoed shows about the strings of the job. -/
theorem Echoed.strings (he : HexDigits job.extranonce2.1) (h : Echoed user e job nonce line) : PlainText user.1 ∧
    ∃ s2 s3 s4 s5 : JsonString, s5.decode = formatHex8 nonce ∧
      (Respelled job.jobId.1 e.jobId.decode ∧ Respelled job.ntime.1 e.ntime.decode ∨
        Within [s2, s3, s4, s5] ('"' :: job.jobId.1)) := by
  obtain ⟨hcomplete, members, s1, s2, s3, s4, s5, htext, hparams, h1, h2, h3, h4, h5⟩ := h
  rw [hcomplete, submitHead_eq, submitParams_eq] at htext
  obtain ⟨rest, blanks, hreads⟩ := reads_params htext hparams
  have hlexemes : commaSep ([Json.str s1, .str s2, .str s3, .str s4, .str s5].map Json.lexemes) ++ ([']'] :: memberTail rest) =
      s1.quoted :: stringTail s2 s3 s4 s5 (memberTail rest) := by
    simp only [List.map_cons, List.map_nil, Json.lexemes, commaSep_cons_cons, commaSep_singleton, stringTail, List.cons_append,
      List.nil_append]
  rw [hlexemes] at hreads
  obtain ⟨r, hs, hreads⟩ := reads_head hreads (by decide)
  have huser : s1.text ++ '"' :: r = s1.decode ++ '"' :: ',' :: '"' :: submitStrings job nonce := by
    rw [h1, (List.cons.inj hs).2]
    simp
  obtain ⟨htext1, rfl⟩ := JsonString.text_aligned huser
  refine ⟨?_, s2, s3, s4, s5, h5, (strings_of_reads he h5 hreads).imp_left fun ⟨hid, htime⟩ => ?_⟩
  · rw [← h1]
    exact (JsonString.plain_of_length (by rw [htext1])).2
  · exact ⟨respelled_iff.2 ⟨s2, hid, h2⟩, respelled_iff.2 ⟨s4, htime, h4⟩⟩

theorem echoesAll_iff (hid : job.jobId.1 ≠ []) (he : HexDigits job.extranonce2.1) : EchoesAll user e job ↔
    PlainText user.1 ∧ Respelled job.jobId.1 e.jobId.decode ∧ Respelled job.ntime.1 e.ntime.decode := by
  constructor
  · intro h
    obtain ⟨huser, s2, s3, s4, s5, h5, hstrings⟩ := (h 0 _ (submitShare_some hid user 0)).strings he
    obtain ⟨-, s2', s3', s4', s5', h5', hstrings'⟩ := (h 1 _ (submitShare_some hid user 1)).strings he
    rcases hstrings with hrespelled | hwithin
    · exact ⟨huser, hrespelled⟩
    · rcases hstrings' with hrespelled | hwithin'
      · exact ⟨huser, hrespelled⟩
      · -- the id cannot hold both nonces
        have hsame := hwithin.unique hwithin' rfl
        simp only [List.cons.injEq, and_true] at hsame
        rw [hsame.2.2.2, h5'] at h5
        exact absurd h5 (by decide)
  · rintro ⟨huser, hjob, htime⟩ nonce line hline
    have hplain : PlainText job.extranonce2.1 := fun c hc => plain_hex (he c hc)
    have hcomplete := submitShare_eq hline
    obtain ⟨s2, h2, h2'⟩ := respelled_iff.1 hjob
    obtain ⟨s4, h4, h4'⟩ := respelled_iff.1 htime
    refine ⟨hcomplete, submitMembers (.ofPlain user.1 huser) s2 s4 hplain nonce, _, _, _, _, _,
      hcomplete ▸ submit_text (JsonString.text_ofPlain huser) h2 hplain h4 nonce, rfl, ?_⟩
    exact ⟨JsonString.decode_ofPlain huser, h2', JsonString.decode_ofPlain hplain, h4',
      JsonString.decode_ofPlain (plain_formatHex8 nonce)⟩

/-- **Echo.** Of every job that is built from the notify of a line, each share is reported with the strings that were
sent exactly when the job has no id, so that none is reported, or the user needs no escapes and what is stored of the id
and of `ntime` stands for what was sent. -/
theorem echoed_iff (h : BuiltFrom text notify state job) : (∃ e, Sends text e ∧ EchoesAll user e job) ↔
    ∃ e, Sends text e ∧ (notify.jobId.1 = [] ∨
      PlainText user.1 ∧ Respelled notify.jobId.1 e.jobId.decode ∧ Respelled notify.ntime.1 e.ntime.decode) := by
  obtain ⟨hid, htime, he⟩ := buildJob_strings h.built
  rw [← hid, ← htime]
  refine exists_congr fun e => and_congr_right fun _ => ?_
  by_cases hnil : job.jobId.1 = []
  · refine iff_of_true (fun nonce line hline => ?_) (.inl hnil)
    rw [submitShare, if_pos hnil] at hline
    cases hline
  · rw [echoesAll_iff hnil he, or_iff_right hnil]

/-- The strings of the message. -/
def notifyElements (notify : StratumNotify) (h : Printable notify) : NotifyElements where
  jobId := .ofText notify.jobId h.jobId
  prevhash := .ofText notify.prevhash h.prevhash
  coinb1 := .ofText notify.coinb1 h.coinb1
  coinb2 := .ofText notify.coinb2 h.coinb2
  merkle := branchStrings notify.merkle h.merkle
  version := .ofText notify.version h.version
  nbits := .ofText notify.nbits h.nbits
  ntime := .ofText notify.ntime h.ntime
  behind := [.bool notify.cleanJobs]

theorem notify_sent (h : Printable notify) (htext : (notifyJson notify h).Text text) (behind : List Char) :
    Sends (terminated text behind) (notifyElements notify h) :=
  ⟨_, text, behind, rfl, htext, rfl⟩

/-- The shares of the mock session. -/
theorem echoed_mock : ∃ job, BuiltFrom (terminated (notifyJson _ printable_mock).lexemes.flatten [])
    (mockNotify zeroPrevhash) mockState job ∧ ∃ e, Sends (terminated (notifyJson _ printable_mock).lexemes.flatten []) e ∧
      EchoesAll ⟨"vek280".toList, by decide⟩ e job := by
  obtain ⟨job, header, hj, -⟩ := mock_job zeroPrevhash (p := List.replicate 32 0) (by decide)
  have hbuilt : BuiltFrom _ _ _ job := ⟨parseNotify_notify printable_mock (Json.text_compact _) [], hj⟩
  refine ⟨job, hbuilt, (echoed_iff hbuilt).2 ⟨_, notify_sent printable_mock (Json.text_compact _) [], .inr ⟨?_, ?_, ?_⟩⟩⟩
  · decide
  · exact .inl ⟨(decode_ofText _ printable_mock.jobId).symm, by decide⟩
  · exact .inl ⟨(decode_ofText _ printable_mock.ntime).symm, by decide⟩

/-! ## An id with a quote -/

def quotedId : StratumNotify := { mockNotify zeroPrevhash with jobId := ⟨"a\"b".toList, by decide⟩ }

theorem printable_quotedId : Printable quotedId := by
  constructor <;> decide

theorem quotedId_job : ∃ job, (buildJob quotedId mockState).1 = some job := by
  have hheader : (jobHeader quotedId mockState).isSome := by
    rw [jobHeader, show jobCoinbase quotedId mockState = some mockCoinbase from jobCoinbase_mock zeroPrevhash, Option.bind_some]
    exact headerBytes_isSome (p := List.replicate 32 0) rfl (by decide)
  exact Option.isSome_iff_exists.1 (buildJob_isSome_iff.2 ⟨rfl, rfl, rfl, hheader⟩)

/-- It is not echoed. -/
theorem quotedId_not_echoed : ¬ ∀ (text : List Char) (notify : StratumNotify) (state : StratumState) (job : MinerJob)
    (user : CStr 128) (nonce : Word) (line : List Char), BuiltFrom text notify state job →
    submitShare user nonce job = some line → ∃ e, Sends text e ∧ Echoed user e job nonce line := by
  intro h
  obtain ⟨job, hj⟩ := quotedId_job
  have hbuilt : BuiltFrom _ _ _ job := ⟨parseNotify_notify printable_quotedId (Json.text_compact _) [], hj⟩
  obtain ⟨hid, -, he⟩ := buildJob_strings hj
  have hne : job.jobId.1 ≠ [] := by
    rw [hid]
    decide
  obtain ⟨e, -, hechoed⟩ := h _ _ _ job ⟨"vek280".toList, by decide⟩ 1 _ hbuilt (submitShare_some hne _ 1)
  obtain ⟨-, s2, s3, s4, s5, h5, ⟨hrespelled, -⟩ | hwithin⟩ := hechoed.strings he
  · obtain ⟨str, htext, -⟩ := respelled_iff.1 hrespelled
    rw [hid] at htext
    have hlast := JsonString.quote_escaped (a := ['a']) (b := ['b']) htext
    exact absurd (Option.some.inj hlast) (by decide)
  · have hle := s5.length_decode_le
    have hlen := hwithin.length_le (show s5 ∈ [s2, s3, s4, s5] by simp)
    rw [h5, length_formatHex8] at hle
    rw [hid] at hlen
    have hid : ('"' :: quotedId.jobId.1).length = 4 := rfl
    omega

end Vek280Miner.Sw
