import Mathlib.Tactic.SplitIfs
import Vek280Miner.Lib.Reader
import Vek280Miner.Lib.Word

/-!
# The console (`telnet_server.c`)

`telnet_client` reads one byte at a time. Telnet sequences are taken out of the stream by a parser of five states; what
is left edits a line of at most `TELNET_RX_BUFFER_BYTES - 1` characters, which a carriage return or a newline hands to
`handle_command`. Of the commands only the end of the session concerns the loop.

Since the parser does not look at the line, nor the editor at the state of the parser, the session is the editor's on
the bytes that the parser lets through (`telnet_filters`).
-/

namespace Vek280Miner.Sw

/-! ## Protocol -/

def telnetIac : Byte := 255
def telnetDont : Byte := 254
def telnetDo : Byte := 253
def telnetWont : Byte := 252
def telnetWill : Byte := 251
def telnetSb : Byte := 250
def telnetSe : Byte := 240
def telnetOptEcho : Byte := 1
def telnetOptSuppressGoAhead : Byte := 3

def telnetRxBufferBytes : Nat := 256

/-- `telnet_parse_state_t`. -/
inductive TelnetParse where
  | data
  | iac
  | option
  | subnegotiation
  | subnegotiationIac
deriving DecidableEq

/-- What the loop does to the outside: `telnet_send_command`, `sock_printf` of a fixed text, and `handle_command`. -/
inductive TelnetOut where
  | sendCommand (command option : Byte)
  | print (text : String)
  | command (line : List Byte)
deriving DecidableEq

/-- `telnet_negotiate`. -/
def telnetNegotiate : List TelnetOut :=
  [.sendCommand telnetWont telnetOptEcho, .sendCommand telnetWill telnetOptSuppressGoAhead,
   .sendCommand telnetDo telnetOptSuppressGoAhead]

/-- `telnet_handle_option`. -/
def telnetHandleOption (command option : Byte) : List TelnetOut :=
  if command = telnetDo then
    [.sendCommand (if option = telnetOptSuppressGoAhead then telnetWill else telnetWont) option]
  else if command = telnetWill then
    [.sendCommand (if option = telnetOptSuppressGoAhead then telnetDo else telnetDont) option]
  else []

/-! ## Commands -/

def isBlank (ch : Byte) : Bool := ch = 0x20 || ch = 0x09

/-- `next_token`: the token and what follows it. -/
def nextToken (s : List Byte) : Option (List Byte × List Byte) :=
  let start := s.dropWhile isBlank
  if start = [] then none else some (start.takeWhile (!isBlank ·), (start.dropWhile (!isBlank ·)).drop 1)

/-- The bytes of a text. -/
def textBytes (text : List Char) : List Byte := text.map fun c => BitVec.ofNat 8 c.toNat

/-- What `handle_command` returns: `false` ends the session. -/
def handleCommand (line : List Byte) : Bool :=
  match nextToken line with
  | none => true
  | some (cmd, _) => !(cmd = textBytes ['q', 'u', 'i', 't'] || cmd = textBytes ['e', 'x', 'i', 't'])

/-! ## The line -/

/-- The locals that belong to the line; `line` are the first `used` characters of the buffer. -/
structure TelnetLine where
  line : List Byte
  ignoreLfAfterCr : Bool
  lineOverflowed : Bool
  used_lt : line.length < telnetRxBufferBytes

namespace TelnetLine

/-- An empty line. -/
def new (ignoreLfAfterCr : Bool) : TelnetLine := ⟨[], ignoreLfAfterCr, false, by decide⟩

theorem length_dropLast_lt (s : TelnetLine) : s.line.dropLast.length < telnetRxBufferBytes := by
  have h := s.used_lt
  rw [List.length_dropLast]
  omega

/-- The part of the loop that edits the line, for a byte that is no part of a Telnet sequence. -/
def edit (ch : Byte) (s : TelnetLine) : List TelnetOut × Option TelnetLine :=
  if (ch = 0x0a ∨ ch = 0x00) ∧ s.ignoreLfAfterCr = true then ([], some { s with ignoreLfAfterCr := false })
  else if ch = 0x0d ∨ ch = 0x0a then
    if s.lineOverflowed then
      ([.print "\r\n", .print "input line too long; discarded\r\n", .print "> "], some (new (ch = 0x0d)))
    else if handleCommand s.line then ([.print "\r\n", .command s.line, .print "> "], some (new (ch = 0x0d)))
    else ([.print "\r\n", .command s.line], none)
  else if ch = 0x08 ∨ ch = 0x7f then
    ([], some ⟨s.line.dropLast, false, s.lineOverflowed, s.length_dropLast_lt⟩)
  else if ch = 0x15 then ([], some (new false))
  else if ch = 0x03 then ([], some (new false))
  else if h : s.line.length < telnetRxBufferBytes - 1 then
    if 0x20 ≤ ch.toNat ∧ ch.toNat ≤ 0x7e then
      ([], some ⟨s.line ++ [ch], false, s.lineOverflowed, by rw [List.length_append, List.length_singleton]; omega⟩)
    else ([], some { s with ignoreLfAfterCr := false })
  else if s.lineOverflowed = false then ([.print "\x07"], some { s with lineOverflowed := true })
  else ([], some s)

end TelnetLine

/-! ## The session -/

/-- The locals of `telnet_client`. -/
structure TelnetState where
  input : TelnetLine
  parseState : TelnetParse
  optionCommand : Byte

namespace TelnetState

def init : TelnetState := ⟨.new false, .data, 0⟩

/-- One pass of the loop over a received byte; `none` is the `break` behind `handle_command`. -/
def read (ch : Byte) (s : TelnetState) : List TelnetOut × Option TelnetState :=
  match s.parseState with
  | .iac =>
    if ch = telnetIac then ([], some { s with parseState := .data })
    else if ch = telnetDo ∨ ch = telnetDont ∨ ch = telnetWill ∨ ch = telnetWont then
      ([], some { s with optionCommand := ch, parseState := .option })
    else if ch = telnetSb then ([], some { s with parseState := .subnegotiation })
    else ([], some { s with parseState := .data })
  | .option => (telnetHandleOption s.optionCommand ch, some { s with parseState := .data })
  | .subnegotiation =>
    if ch = telnetIac then ([], some { s with parseState := .subnegotiationIac }) else ([], some s)
  | .subnegotiationIac =>
    ([], some { s with parseState := if ch = telnetSe then .data else .subnegotiation })
  | .data =>
    if ch = telnetIac then ([], some { s with parseState := .iac })
    else ((s.input.edit ch).1, (s.input.edit ch).2.map fun input => { s with input := input })

end TelnetState

def telnetGreeting : String := "\r\nVEK280 miner telnet console\r\nNo authentication is enabled.\r\n> "

/-- `telnet_client` on the bytes that are received until the connection ends; in the end the locals, or `none` if a
command has ended the session. -/
def telnetClient (received : List Byte) : List TelnetOut × Option TelnetState :=
  let (out, s) := Reader.loop TelnetState.read received .init
  (telnetNegotiate ++ [.print telnetGreeting] ++ out, s)

/-! ## The parser by itself -/

/-- What the parser does with a byte: lets it through to the line or not, and its next state. -/
def telnetPass (ch : Byte) : TelnetParse → Option Byte × TelnetParse
  | .iac =>
    if ch = telnetIac then (none, .data)
    else if ch = telnetDo ∨ ch = telnetDont ∨ ch = telnetWill ∨ ch = telnetWont then (none, .option)
    else if ch = telnetSb then (none, .subnegotiation)
    else (none, .data)
  | .option => (none, .data)
  | .subnegotiation => if ch = telnetIac then (none, .subnegotiationIac) else (none, .subnegotiation)
  | .subnegotiationIac => if ch = telnetSe then (none, .data) else (none, .subnegotiation)
  | .data => if ch = telnetIac then (none, .iac) else (some ch, .data)

/-- The bytes that reach the line, and the state of the parser after them. -/
def dataBytes (received : List Byte) (p : TelnetParse) : List Byte × TelnetParse := Reader.passed telnetPass received p

/-- Anything but a reply to an option. -/
def TelnetOut.isConsole : TelnetOut → Bool
  | .sendCommand _ _ => false
  | _ => true

/-- Only a byte in the data state reaches the line. -/
theorem telnetPass_some {ch k : Byte} {p : TelnetParse} (h : (telnetPass ch p).1 = some k) :
    p = .data ∧ ch ≠ telnetIac ∧ k = ch := by
  cases p <;> simp only [telnetPass] at h
  case data =>
    by_cases hi : ch = telnetIac
    · simp [hi] at h
    · rw [if_neg hi] at h
      exact ⟨rfl, hi, (Option.some.inj h).symm⟩
  case iac => split_ifs at h
  case option => cases h
  case subnegotiation => split_ifs at h
  case subnegotiationIac => split_ifs at h

/-- **Parser and editor.** The loop is the parser before the editor, but for the replies to options. -/
theorem telnet_filters :
    Reader.Filters telnetPass TelnetState.read TelnetLine.edit TelnetState.parseState TelnetState.input
    TelnetOut.isConsole where
  held ch s h := by
    cases hp : s.parseState <;> simp only [hp, telnetPass, TelnetState.read] at h ⊢
    case data =>
      by_cases hi : ch = telnetIac
      · simp [hi]
      · simp [hi] at h
    case iac => split_ifs <;> exact ⟨rfl, _, rfl, rfl, rfl⟩
    case option =>
      refine ⟨?_, _, rfl, rfl, rfl⟩
      unfold telnetHandleOption
      split_ifs <;> rfl
    case subnegotiation =>
      split_ifs
      · exact ⟨rfl, _, rfl, rfl, rfl⟩
      · exact ⟨rfl, _, rfl, rfl, hp⟩
    case subnegotiationIac => split_ifs <;> exact ⟨rfl, _, rfl, rfl, rfl⟩
  let_through ch s k h := by
    obtain ⟨hp, hi, rfl⟩ := telnetPass_some h
    have hread : s.read k = ((s.input.edit k).1, (s.input.edit k).2.map fun input => { s with input := input }) := by
      simp [TelnetState.read, hp, hi]
    rw [hread, hp]
    refine ⟨rfl, ?_, fun s' hs' => ?_⟩
    · rw [Option.map_map]
      exact congrFun Option.map_id _
    · obtain ⟨input, -, rfl⟩ := Option.map_eq_some_iff.1 hs'
      simp [telnetPass, hi]

/-! ## Telnet sequences -/

/-- What is between `IAC SB` and `IAC SE`: bytes, of which an `IAC` is doubled. -/
inductive TelnetBody : List Byte → Prop
  | nil : TelnetBody []
  | byte {ch : Byte} {body : List Byte} (h : ch ≠ telnetIac) : TelnetBody body → TelnetBody (ch :: body)
  | doubled {body : List Byte} : TelnetBody body → TelnetBody (telnetIac :: telnetIac :: body)

/-- A complete sequence. -/
inductive TelnetSequence : List Byte → Prop
  | escape : TelnetSequence [telnetIac, telnetIac]
  | command {ch : Byte} (h : ch ∉ [telnetIac, telnetSb, telnetDo, telnetDont, telnetWill, telnetWont]) :
      TelnetSequence [telnetIac, ch]
  | option {ch : Byte} (h : ch ∈ [telnetDo, telnetDont, telnetWill, telnetWont]) (option : Byte) :
      TelnetSequence [telnetIac, ch, option]
  | subnegotiation {body : List Byte} (h : TelnetBody body) :
      TelnetSequence ([telnetIac, telnetSb] ++ body ++ [telnetIac, telnetSe])

theorem dataBytes_body {body : List Byte} (h : TelnetBody body) :
    dataBytes body .subnegotiation = ([], .subnegotiation) := by
  induction h with
  | nil => rfl
  | byte hne _ ih =>
    unfold dataBytes at ih ⊢
    simp [Reader.passed, telnetPass, hne, ih]
  | doubled _ ih =>
    unfold dataBytes at ih ⊢
    simp [Reader.passed, telnetPass, ih, show telnetIac ≠ telnetSe by decide]

/-- Bytes that begin no sequence all reach the line. -/
theorem dataBytes_plain : ∀ {l : List Byte}, (∀ ch ∈ l, ch ≠ telnetIac) → dataBytes l .data = (l, .data)
  | [], _ => rfl
  | ch :: l, h => by
    have hch := h ch (List.mem_cons_self ..)
    have ih := dataBytes_plain fun c hc => h c (List.mem_cons_of_mem ch hc)
    unfold dataBytes at ih ⊢
    simp [Reader.passed, telnetPass, hch, ih]

/-- Nothing of a complete sequence reaches the line. -/
theorem dataBytes_sequence {seq : List Byte} (h : TelnetSequence seq) : dataBytes seq .data = ([], .data) := by
  cases h with
  | escape => decide
  | @command ch hne =>
    simp only [List.mem_cons, List.not_mem_nil, or_false, not_or] at hne
    simp [dataBytes, Reader.passed, telnetPass, hne]
  | @option ch hmem option =>
    simp only [List.mem_cons, List.not_mem_nil, or_false] at hmem
    have hne : ch ≠ telnetIac := by rcases hmem with rfl | rfl | rfl | rfl <;> decide
    simp [dataBytes, Reader.passed, telnetPass, hmem, hne]
  | @subnegotiation body hbody =>
    have hb := dataBytes_body hbody
    unfold dataBytes at hb ⊢
    rw [List.append_assoc, Reader.passed_append, Reader.passed_append]
    have hopen : Reader.passed telnetPass [telnetIac, telnetSb] .data = ([], .subnegotiation) := by decide
    have hclose : Reader.passed telnetPass [telnetIac, telnetSe] .subnegotiation = ([], .data) := by decide
    rw [hopen, hb, hclose]
    rfl

/-- A sequence that arrives in the data state changes nothing but the replies to options. -/
theorem loop_sequence {seq : List Byte} (h : TelnetSequence seq) {s : TelnetState} (hs : s.parseState = .data)
    (post : List Byte) :
    (Reader.loop TelnetState.read (seq ++ post) s).1.filter TelnetOut.isConsole =
        (Reader.loop TelnetState.read post s).1.filter TelnetOut.isConsole ∧
      (Reader.loop TelnetState.read (seq ++ post) s).2.isNone = (Reader.loop TelnetState.read post s).2.isNone := by
  obtain ⟨hout, hend, -⟩ := Reader.loop_passed telnet_filters (seq ++ post) s
  obtain ⟨hout', hend', -⟩ := Reader.loop_passed telnet_filters post s
  have hseq := dataBytes_sequence h
  unfold dataBytes at hseq
  rw [hs] at hout hend hout' hend'
  rw [Reader.passed_append, hseq, List.nil_append] at hout hend
  refine ⟨hout.trans hout'.symm, ?_⟩
  rw [← Option.isNone_map, hend, ← hend', Option.isNone_map]

/-! ## The line -/

/-- A character that can be on a line. -/
abbrev IsConsoleChar (ch : Byte) : Prop := 0x20 ≤ ch.toNat ∧ ch.toNat ≤ 0x7e

namespace TelnetLine

variable {ch : Byte} {s : TelnetLine}

/-- The line is printable, and nothing is on it while the byte behind a carriage return is awaited. -/
structure Clean (s : TelnetLine) : Prop where
  printable : ∀ ch ∈ s.line, IsConsoleChar ch
  fresh : s.ignoreLfAfterCr = true → s.line = [] ∧ s.lineOverflowed = false

theorem clean_new (ignore : Bool) : Clean (new ignore) := ⟨fun _ h => absurd h List.not_mem_nil, fun _ => ⟨rfl, rfl⟩⟩

/-- With a full line no byte behind a carriage return is awaited. -/
theorem Clean.ignore_of_full (h : Clean s) (hfull : ¬ s.line.length < telnetRxBufferBytes - 1) :
    s.ignoreLfAfterCr = false := by
  rw [← Bool.not_eq_true]
  intro hi
  rw [(h.fresh hi).1] at hfull
  exact hfull (by decide)

/-- What a byte does: it executes the line as it is or nothing, and what it leaves is clean. -/
theorem edit_clean (h : Clean s) : (∀ line, .command line ∈ (s.edit ch).1 → line = s.line) ∧
    ∀ s', (s.edit ch).2 = some s' → Clean s' := by
  have hlow : ∀ {line : List Byte} {overflowed : Bool} {hlt : line.length < telnetRxBufferBytes},
      (∀ ch ∈ line, IsConsoleChar ch) → Clean ⟨line, false, overflowed, hlt⟩ := fun hp => ⟨hp, fun hi => by cases hi⟩
  unfold edit
  split_ifs with h1 h2 h3 h4 h5 h6 h7 h8 h9 h10
  · -- the second character of a line ending
    exact ⟨by simp, fun s' hs' => Option.some.inj hs' ▸ hlow h.printable⟩
  · exact ⟨by simp, fun s' hs' => Option.some.inj hs' ▸ clean_new _⟩
  · exact ⟨by simp, fun s' hs' => Option.some.inj hs' ▸ clean_new _⟩
  · exact ⟨by simp, fun s' hs' => by cases hs'⟩
  · exact ⟨by simp, fun s' hs' => Option.some.inj hs' ▸ hlow fun c hc => h.printable c (List.mem_of_mem_dropLast hc)⟩
  · exact ⟨by simp, fun s' hs' => Option.some.inj hs' ▸ clean_new _⟩
  · exact ⟨by simp, fun s' hs' => Option.some.inj hs' ▸ clean_new _⟩
  · refine ⟨by simp, fun s' hs' => Option.some.inj hs' ▸ hlow fun c hc => ?_⟩
    rcases List.mem_append.1 hc with hc | hc
    · exact h.printable c hc
    · rw [List.mem_singleton.1 hc]
      exact h9
  · exact ⟨by simp, fun s' hs' => Option.some.inj hs' ▸ hlow h.printable⟩
  · refine ⟨by simp, fun s' hs' => Option.some.inj hs' ▸ ⟨h.printable, fun hi => ?_⟩⟩
    rw [h.ignore_of_full h8] at hi
    cases hi
  · exact ⟨by simp, fun s' hs' => Option.some.inj hs' ▸ h⟩

/-- The bytes that end a line or empty it. -/
def restarts (ch : Byte) : Bool := ch = 0x0d || ch = 0x0a || ch = 0x15 || ch = 0x03

/-- A line that has overflowed, with no byte behind a carriage return awaited. -/
structure Spoiled (s : TelnetLine) : Prop where
  overflowed : s.lineOverflowed = true
  ignore : s.ignoreLfAfterCr = false

/-- A printable character that finds the line full spoils it. -/
theorem edit_full (h : Clean s) (hfull : s.line.length = telnetRxBufferBytes - 1) (hch : IsConsoleChar ch) :
    (∀ line, .command line ∉ (s.edit ch).1) ∧ ∃ s', (s.edit ch).2 = some s' ∧ Spoiled s' := by
  have hno : ¬ s.line.length < telnetRxBufferBytes - 1 := by omega
  have hignore := h.ignore_of_full hno
  have hne : ∀ {c : Byte}, ¬ IsConsoleChar c → ch ≠ c := fun hc he => hc (he ▸ hch)
  have hedit : s.edit ch =
      if s.lineOverflowed = false then ([.print "\x07"], some { s with lineOverflowed := true }) else ([], some s) := by
    rw [edit, if_neg (by simp [hignore]), if_neg (not_or.2 ⟨hne (by decide), hne (by decide)⟩),
      if_neg (not_or.2 ⟨hne (by decide), hne (by decide)⟩), if_neg (hne (by decide)), if_neg (hne (by decide)), dif_neg hno]
  rw [hedit]
  split_ifs with ho
  · exact ⟨by simp, _, rfl, rfl, hignore⟩
  · exact ⟨by simp, s, rfl, by simpa using ho, hignore⟩

/-- A spoiled line stays spoiled until it ends or is emptied. -/
theorem edit_spoiled (h : Spoiled s) (hch : restarts ch = false) :
    (s.edit ch).1 = [] ∧ ∃ s', (s.edit ch).2 = some s' ∧ Spoiled s' := by
  simp only [restarts, Bool.or_eq_false_iff, decide_eq_false_iff_not] at hch
  obtain ⟨⟨⟨h0d, h0a⟩, h15⟩, h03⟩ := hch
  have hlast : ¬ s.lineOverflowed = false := by simp [h.overflowed]
  rw [edit, if_neg (by simp [h.ignore]), if_neg (not_or.2 ⟨h0d, h0a⟩), if_neg h15, if_neg h03, if_neg hlast]
  split_ifs
  · exact ⟨rfl, _, rfl, h.overflowed, rfl⟩
  · exact ⟨rfl, _, rfl, h.overflowed, rfl⟩
  · exact ⟨rfl, _, rfl, h.overflowed, rfl⟩
  · exact ⟨rfl, s, rfl, h⟩

theorem loop_spoiled : ∀ (l : List Byte) {s : TelnetLine}, Spoiled s → (∀ ch ∈ l, restarts ch = false) →
    (Reader.loop edit l s).1 = [] ∧ ∃ s', (Reader.loop edit l s).2 = some s' ∧ Spoiled s'
  | [], s, h, _ => ⟨rfl, s, rfl, h⟩
  | ch :: l, s, h, hl => by
    obtain ⟨hout, s', hs', h'⟩ := edit_spoiled h (hl ch (List.mem_cons_self ..))
    obtain ⟨hrest, hlast⟩ := loop_spoiled l h' fun c hc => hl c (List.mem_cons_of_mem ch hc)
    rw [Reader.loop_cons_of_some hs', hout, hrest]
    exact ⟨rfl, hlast⟩

/-- The end of a spoiled line discards it. -/
theorem edit_end_spoiled (h : Spoiled s) (hch : ch = 0x0d ∨ ch = 0x0a) :
    s.edit ch = ([.print "\r\n", .print "input line too long; discarded\r\n", .print "> "], some (new (ch = 0x0d))) := by
  rw [edit, if_neg (by simp [h.ignore]), if_pos hch, if_pos h.overflowed]

/-- What is typed behind a full line, until it ends or is emptied. -/
theorem loop_full (h : Clean s) (hfull : s.line.length = telnetRxBufferBytes - 1) (hch : IsConsoleChar ch) {l : List Byte}
    (hl : ∀ c ∈ l, restarts c = false) : (∀ line, .command line ∉ (Reader.loop edit (ch :: l) s).1) ∧
      ∃ s', (Reader.loop edit (ch :: l) s).2 = some s' ∧ Spoiled s' := by
  obtain ⟨hout, s1, hs1, hspoiled⟩ := edit_full h hfull hch
  obtain ⟨hrest, hlast⟩ := loop_spoiled l hspoiled hl
  rw [Reader.loop_cons_of_some hs1, hrest, List.append_nil]
  exact ⟨hout, hlast⟩

/-- Printable characters that there is room for are put on the line. -/
theorem loop_typed : ∀ (l : List Byte) {s : TelnetLine}, (∀ c ∈ l, IsConsoleChar c) →
    s.line.length + l.length < telnetRxBufferBytes →
    (Reader.loop edit l s).1 = [] ∧ ∃ s', (Reader.loop edit l s).2 = some s' ∧ s'.line = s.line ++ l
  | [], s, _, _ => ⟨rfl, s, rfl, (List.append_nil _).symm⟩
  | ch :: l, s, hl, hlen => by
    have hch := hl ch (List.mem_cons_self ..)
    have hne : ∀ {c : Byte}, ¬ IsConsoleChar c → ch ≠ c := fun hc he => hc (he ▸ hch)
    rw [List.length_cons] at hlen
    have hroom : s.line.length < telnetRxBufferBytes - 1 := by omega
    have hedit : ∃ s', s.edit ch = ([], some s') ∧ s'.line = s.line ++ [ch] := by
      rw [edit, if_neg (not_and_of_not_left _ (not_or.2 ⟨hne (by decide), hne (by decide)⟩)),
        if_neg (not_or.2 ⟨hne (by decide), hne (by decide)⟩), if_neg (not_or.2 ⟨hne (by decide), hne (by decide)⟩),
        if_neg (hne (by decide)), if_neg (hne (by decide)), dif_pos hroom, if_pos hch]
      exact ⟨_, rfl, rfl⟩
    obtain ⟨s1, hs1, hline⟩ := hedit
    obtain ⟨hrest, s2, hs2, hlast⟩ := loop_typed l (s := s1) (fun c hc => hl c (List.mem_cons_of_mem ch hc))
      (by rw [hline, List.length_append, List.length_singleton]; omega)
    rw [Reader.loop_cons_of_some (congrArg Prod.snd hs1), hrest, hs1, hs2]
    exact ⟨rfl, s2, rfl, by rw [hlast, hline, List.append_assoc]; rfl⟩

end TelnetLine

/-! ## Whole sessions -/

/-- The command lines among what is put out. -/
def executed (out : List TelnetOut) : List (List Byte) := out.filterMap fun
  | .command line => some line
  | _ => none

theorem executed_append (out out' : List TelnetOut) : executed (out ++ out') = executed out ++ executed out' :=
  List.filterMap_append

theorem executed_filter (out : List TelnetOut) : executed (out.filter TelnetOut.isConsole) = executed out := by
  unfold executed
  rw [List.filterMap_filter]
  congr 1
  funext o
  cases o <;> rfl

theorem executed_eq_nil {out : List TelnetOut} (h : ∀ line, .command line ∉ out) : executed out = [] := by
  rw [executed, List.filterMap_eq_nil_iff]
  intro o ho
  cases o with
  | command line => exact absurd ho (h line)
  | print text => rfl
  | sendCommand command option => rfl

/-- The commands of a session are those of the editor on the data bytes. -/
theorem executed_loop (l : List Byte) (s : TelnetState) : executed (Reader.loop TelnetState.read l s).1 =
    executed (Reader.loop TelnetLine.edit (dataBytes l s.parseState).1 s.input).1 := by
  rw [← executed_filter, (Reader.loop_passed telnet_filters l s).1, executed_filter]
  rfl

theorem input_loop (l : List Byte) (s : TelnetState) : (Reader.loop TelnetState.read l s).2.map TelnetState.input =
    (Reader.loop TelnetLine.edit (dataBytes l s.parseState).1 s.input).2 :=
  (Reader.loop_passed telnet_filters l s).2.1

theorem telnetClient_append_of_none {pre : List Byte} (h : (telnetClient pre).2 = none) (l : List Byte) :
    telnetClient (pre ++ l) = telnetClient pre := by
  unfold telnetClient at h ⊢
  rw [Reader.loop_append_of_none h]

theorem telnetClient_append_of_some {pre : List Byte} {s : TelnetState} (h : (telnetClient pre).2 = some s)
    (l : List Byte) :
    telnetClient (pre ++ l) =
      ((telnetClient pre).1 ++ (Reader.loop TelnetState.read l s).1, (Reader.loop TelnetState.read l s).2) := by
  unfold telnetClient at h ⊢
  rw [Reader.loop_append_of_some h]
  simp only [List.append_assoc]

theorem command_mem_filter {out : List TelnetOut} {line : List Byte} :
    .command line ∈ out.filter TelnetOut.isConsole ↔ .command line ∈ out := by simp [TelnetOut.isConsole]

/-- What one byte executes is on a clean line, and it leaves a clean line. -/
theorem read_clean {s : TelnetState} (h : s.input.Clean) (ch : Byte) :
    (∀ o ∈ (s.read ch).1, ∀ line, o = .command line → line = s.input.line) ∧
      ∀ s', (s.read ch).2 = some s' → s'.input.Clean := by
  cases hp : (telnetPass ch s.parseState).1 with
  | none =>
    obtain ⟨hout, s1, hr, hview, -⟩ := telnet_filters.held ch s hp
    refine ⟨fun o ho line hline => ?_, fun s' hs' => ?_⟩
    · subst hline
      rw [← command_mem_filter, hout] at ho
      cases ho
    · obtain rfl := Option.some.inj (hr.symm.trans hs')
      rwa [hview]
  | some k =>
    obtain ⟨hout, hmap, -⟩ := telnet_filters.let_through ch s k hp
    obtain ⟨hline, hclean⟩ := @TelnetLine.edit_clean k _ h
    refine ⟨fun o ho line ho' => ?_, fun s' hs' => ?_⟩
    · subst ho'
      rw [← command_mem_filter, hout, command_mem_filter] at ho
      exact hline line ho
    · rw [hs', Option.map_some] at hmap
      exact hclean _ hmap.symm

/-- What a session executes is short and printable, and its line is clean while it lasts. -/
theorem telnetClient_clean (received : List Byte) :
    (∀ line, .command line ∈ (telnetClient received).1 →
        line.length < telnetRxBufferBytes ∧ ∀ ch ∈ line, IsConsoleChar ch) ∧
      ∀ s, (telnetClient received).2 = some s → s.input.Clean := by
  have hread : ∀ ch (s : TelnetState), s.input.Clean → (∀ o ∈ (s.read ch).1, ∀ line, o = .command line →
      line.length < telnetRxBufferBytes ∧ ∀ ch ∈ line, IsConsoleChar ch) ∧
        ∀ s', (s.read ch).2 = some s' → s'.input.Clean := by
    intro ch s hs
    obtain ⟨hline, hclean⟩ := read_clean hs ch
    refine ⟨fun o ho line ho' => ?_, hclean⟩
    rw [hline o ho line ho']
    exact ⟨s.input.used_lt, hs.printable⟩
  obtain ⟨hout, hclean⟩ := Reader.loop_invariant hread received .init (TelnetLine.clean_new false)
  refine ⟨fun line hline => ?_, hclean⟩
  rcases List.mem_append.1 hline with hline | hline
  · simp [telnetNegotiate] at hline
  · exact hout _ hline line rfl

/-- A sequence that arrives in the data state. -/
theorem telnetClient_sequence {pre seq : List Byte} (hseq : TelnetSequence seq)
    (hdata : ∀ s, (telnetClient pre).2 = some s → s.parseState = .data) (post : List Byte) :
    (telnetClient (pre ++ seq ++ post)).1.filter TelnetOut.isConsole =
        (telnetClient (pre ++ post)).1.filter TelnetOut.isConsole ∧
      (telnetClient (pre ++ seq ++ post)).2.isNone = (telnetClient (pre ++ post)).2.isNone := by
  rw [List.append_assoc]
  cases hpre : (telnetClient pre).2 with
  | none =>
    rw [telnetClient_append_of_none hpre, telnetClient_append_of_none hpre]
    exact ⟨rfl, rfl⟩
  | some s =>
    obtain ⟨hout, hend⟩ := loop_sequence hseq (hdata s hpre) post
    rw [telnetClient_append_of_some hpre, telnetClient_append_of_some hpre, List.filter_append, List.filter_append, hout]
    exact ⟨rfl, hend⟩

/-- A character that finds the line full, and what follows it, until the line is emptied. -/
theorem telnetClient_full {pre mid : List Byte} {ch : Byte} {s : TelnetState} (hs : (telnetClient pre).2 = some s)
    (hp : s.parseState = .data) (hfull : s.input.line.length = telnetRxBufferBytes - 1) (hch : IsConsoleChar ch)
    (hmid : ∀ c ∈ (dataBytes mid .data).1, TelnetLine.restarts c = false) :
    executed (telnetClient (pre ++ ch :: mid)).1 = executed (telnetClient pre).1 ∧
      ∀ eol, eol = 0x0d ∨ eol = 0x0a → (dataBytes mid .data).2 = .data →
        executed (telnetClient (pre ++ ch :: mid ++ [eol])).1 = executed (telnetClient pre).1 ∧
          ∃ s', (telnetClient (pre ++ ch :: mid ++ [eol])).2 = some s' ∧ s'.input.line = [] := by
  have hclean := (telnetClient_clean pre).2 s hs
  obtain ⟨hnone, s1, hs1, hspoiled⟩ := TelnetLine.loop_full hclean hfull hch hmid
  have hiac : ch ≠ telnetIac := fun he => by
    rw [he] at hch
    exact absurd hch (by decide)
  have hdata : dataBytes (ch :: mid) .data = (ch :: (dataBytes mid .data).1, (dataBytes mid .data).2) := by
    simp [dataBytes, Reader.passed, telnetPass, hiac]
  refine ⟨?_, fun eol heol hlast => ?_⟩
  · rw [telnetClient_append_of_some hs, executed_append, executed_loop, hp, hdata, executed_eq_nil hnone,
      List.append_nil]
  · have hend : eol ≠ telnetIac := by rcases heol with rfl | rfl <;> decide
    have hline : dataBytes (ch :: mid ++ [eol]) .data = (ch :: (dataBytes mid .data).1 ++ [eol], .data) := by
      have happ := Reader.passed_append telnetPass (ch :: mid) [eol] .data
      unfold dataBytes at hdata hlast ⊢
      rw [happ, hdata, hlast]
      simp [Reader.passed, telnetPass, hend]
    -- the editor is given the rest of the line and its end
    have hnext := TelnetLine.edit_end_spoiled hspoiled heol
    have hedit : Reader.loop TelnetLine.edit (ch :: (dataBytes mid .data).1 ++ [eol]) s.input =
        ((Reader.loop TelnetLine.edit (ch :: (dataBytes mid .data).1) s.input).1 ++ (s1.edit eol).1,
          some (.new (eol = 0x0d))) := by
      rw [Reader.loop_append_of_some hs1, Reader.loop_cons_of_some (congrArg Prod.snd hnext), Reader.loop_nil,
        List.append_nil]
    rw [List.append_assoc, telnetClient_append_of_some hs, executed_append, executed_loop, hp, hline, hedit,
      executed_append, executed_eq_nil hnone, hnext, List.nil_append]
    refine ⟨List.append_nil _, ?_⟩
    have hview := input_loop (ch :: mid ++ [eol]) s
    rw [hp, hline, hedit] at hview
    obtain ⟨s', hs', hnew⟩ := Option.map_eq_some_iff.1 hview
    exact ⟨s', hs', by rw [hnew]; rfl⟩

/-- **Console.** A complete Telnet sequence that arrives in the data state changes neither what is executed and printed
nor whether the session ends; only short printable lines are executed; and after a character that finds the line full
nothing is executed until the line is emptied, and the end of the line discards it. -/
theorem telnet_console :
    (∀ pre seq post : List Byte, TelnetSequence seq →
      (∀ s, (telnetClient pre).2 = some s → s.parseState = .data) →
      (telnetClient (pre ++ seq ++ post)).1.filter TelnetOut.isConsole =
          (telnetClient (pre ++ post)).1.filter TelnetOut.isConsole ∧
        (telnetClient (pre ++ seq ++ post)).2.isNone = (telnetClient (pre ++ post)).2.isNone) ∧
    (∀ (received line : List Byte), .command line ∈ (telnetClient received).1 →
      line.length ≤ 255 ∧ ∀ ch ∈ line, IsConsoleChar ch) ∧
    ∀ (pre : List Byte) (ch : Byte) (mid : List Byte) (s : TelnetState), (telnetClient pre).2 = some s →
      s.parseState = .data → s.input.line.length = telnetRxBufferBytes - 1 → IsConsoleChar ch →
      (∀ c ∈ (dataBytes mid .data).1, TelnetLine.restarts c = false) →
      executed (telnetClient (pre ++ ch :: mid)).1 = executed (telnetClient pre).1 ∧
        ∀ eol, eol = 0x0d ∨ eol = 0x0a → (dataBytes mid .data).2 = .data →
          executed (telnetClient (pre ++ ch :: mid ++ [eol])).1 = executed (telnetClient pre).1 ∧
            ∃ s', (telnetClient (pre ++ ch :: mid ++ [eol])).2 = some s' ∧ s'.input.line = [] := by
  refine ⟨fun _ _ post hseq hdata => telnetClient_sequence hseq hdata post, fun received line hline => ?_,
    fun _ _ _ _ hs hp hfull hch hmid => telnetClient_full hs hp hfull hch hmid⟩
  obtain ⟨hlen, hchars⟩ := (telnetClient_clean received).1 line hline
  exact ⟨Nat.le_of_lt_succ hlen, hchars⟩

/-- A line that is typed on a new connection, as long as there is room for it. -/
theorem telnetClient_typed {l : List Byte} (hl : ∀ ch ∈ l, IsConsoleChar ch) (hlen : l.length < telnetRxBufferBytes) :
    executed (telnetClient l).1 = [] ∧
      ∃ s, (telnetClient l).2 = some s ∧ s.parseState = .data ∧ s.input.line = l := by
  have hplain : ∀ ch ∈ l, ch ≠ telnetIac := fun ch hch he => by
    have hlow := hl ch hch
    rw [he] at hlow
    exact absurd hlow (by decide)
  have hdata : dataBytes l TelnetState.init.parseState = (l, .data) := dataBytes_plain hplain
  obtain ⟨hout, s1, hs1, hline⟩ := TelnetLine.loop_typed l (s := TelnetState.init.input) hl
    (by rw [show TelnetState.init.input.line = [] from rfl, List.length_nil, Nat.zero_add]; exact hlen)
  have hview := input_loop l .init
  rw [hdata, hs1] at hview
  obtain ⟨s, hs, hinput⟩ := Option.map_eq_some_iff.1 hview
  refine ⟨?_, s, hs, ?_, ?_⟩
  · show executed (_ ++ _) = []
    rw [executed_append, executed_loop, hdata, hout]
    rfl
  · have hparse := (Reader.loop_passed telnet_filters l .init).2.2 s hs
    unfold dataBytes at hdata
    rw [hparse, hdata]
  · rw [hinput, hline]
    rfl

/-- A line with a negotiation in it, and a line of which one character too many is typed and taken back. -/
theorem telnet_console_sessions :
    (telnetClient (textBytes ['s', 't'] ++ [telnetIac, telnetDo, telnetOptEcho] ++ textBytes ['o', 'p', '\r'])).1.filter
        TelnetOut.isConsole =
      (telnetClient (textBytes ['s', 't'] ++ textBytes ['o', 'p', '\r'])).1.filter TelnetOut.isConsole ∧
    executed (telnetClient (List.replicate 255 0x61 ++ 0x61 :: [0x08] ++ [0x0d])).1 = [] := by
  obtain ⟨hsequence, -, hfull⟩ := telnet_console
  have htyped : ∀ {n : Nat}, ∀ ch ∈ List.replicate n (0x61 : Byte), IsConsoleChar ch := by
    intro n ch hch
    rw [List.eq_of_mem_replicate hch]
    decide
  obtain ⟨hnone, s, hs, hp, hline⟩ := telnetClient_typed (htyped (n := 255)) (by rw [List.length_replicate]; decide)
  constructor
  · refine (hsequence _ _ _ (.option (by decide) _) fun s hs => ?_).1
    obtain ⟨-, s', hs', hp', -⟩ := telnetClient_typed (l := textBytes ['s', 't']) (by decide) (by decide)
    obtain rfl := Option.some.inj (hs.symm.trans hs')
    exact hp'
  · have h := hfull _ 0x61 [0x08] s hs hp (by rw [hline, List.length_replicate]; rfl) (by decide) (by decide)
    rw [(h.2 0x0d (.inl rfl) (by decide)).1, hnone]

end Vek280Miner.Sw
