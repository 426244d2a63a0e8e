import Mathlib.Data.List.TakeWhile

/-!
# Received lines (`stratum_client.c`)

`stratum_task` receives one character at a time and collects the line in a buffer of `STRATUM_LINE_BUFFER_BYTES`
characters. A newline ends the line, which is then handled; a carriage return is skipped; a character that finds the
buffer full is dropped and the line begun anew. A timeout of the receive call leaves the buffer alone.

What has been collected of a line depends only on the part of the line that has been received (`kept`), so the lines
that are handled are given by the stream alone (`handledLines_eq`). They are the lines of the stream exactly when no
line is too long for the buffer or has a zero character in it (`handled_lines_iff`): of a line that is too long the tail
is handled.
-/

namespace Vek280Miner.Sw

/-! ## The buffer -/

def stratumLineBufferBytes : Nat := 2048

/-- The buffer `line` and the number of characters `used` in it. -/
structure LineBuffer where
  line : List Char
  used : Nat
  length_line : line.length = stratumLineBufferBytes
  used_lt : used < stratumLineBufferBytes

/-- The characters that are in the buffer of a new connection. -/
abbrev LineMem := { line : List Char // line.length = stratumLineBufferBytes }

def LineBuffer.empty (mem : LineMem) : LineBuffer := ⟨mem.1, 0, mem.2, by decide⟩

/-- The text at an address: what is in front of the terminating zero. -/
def cString (mem : List Char) : List Char := mem.takeWhile (· ≠ '\x00')

/-- One received character, and the buffer that is handed to `handle_stratum_line` if the character ends the line. -/
def LineBuffer.receive (b : LineBuffer) (ch : Char) : LineBuffer × Option (List Char) :=
  if ch = '\n' then
    let line := b.line.set b.used '\x00'
    (⟨line, 0, by rw [List.length_set]; exact b.length_line, by decide⟩, some line)
  else if ch ≠ '\r' then
    if h : b.used < stratumLineBufferBytes - 1 then
      (⟨b.line.set b.used ch, b.used + 1, by rw [List.length_set]; exact b.length_line, by omega⟩, none)
    else (⟨b.line, 0, b.length_line, by decide⟩, none)
  else (b, none)

/-- What `FreeRTOS_recv` gives as long as the connection lasts: nothing within the time, or a character. -/
inductive Recv where
  | timeout
  | char (ch : Char)

/-- The lines that are given to `handle_stratum_line`. -/
def handledLines : LineBuffer → List Recv → List (List Char)
  | _, [] => []
  | b, .timeout :: rest => handledLines b rest
  | b, .char ch :: rest => ((b.receive ch).2.map cString).toList ++ handledLines (b.receive ch).1 rest

/-- The stream that is received. -/
def received (events : List Recv) : List Char :=
  events.filterMap fun
    | .timeout => none
    | .char ch => some ch

/-- The lines of a stream that are ended by a newline, without their carriage returns. -/
def streamLines (stream : List Char) : List (List Char) :=
  (stream.splitOn '\n').dropLast.map fun line => line.filter (· ≠ '\r')

/-- The lines that are to be handled. -/
def shortLines (stream : List Char) : List (List Char) :=
  (streamLines stream).filter fun line => line.length ≤ stratumLineBufferBytes - 1

/-! ## What is kept of a line -/

/-- The part of a line that is in the buffer: each time the buffer overflows, what it holds and the next character go.
-/
def kept (line : List Char) : List Char :=
  line.drop (stratumLineBufferBytes * (line.length / stratumLineBufferBytes))

theorem length_kept (line : List Char) : (kept line).length = line.length % stratumLineBufferBytes := by
  rw [kept, List.length_drop, Nat.mod_eq_sub]

theorem kept_of_short {line : List Char} (h : line.length ≤ stratumLineBufferBytes - 1) : kept line = line := by
  have hlt : line.length < stratumLineBufferBytes := by unfold stratumLineBufferBytes at *; omega
  rw [kept, Nat.div_eq_of_lt hlt, Nat.mul_zero, List.drop_zero]

/-- A character is appended while there is room. -/
theorem kept_append {line : List Char} {ch : Char} (h : (kept line).length < stratumLineBufferBytes - 1) :
    kept (line ++ [ch]) = kept line ++ [ch] := by
  rw [length_kept] at h
  have hle : stratumLineBufferBytes * (line.length / stratumLineBufferBytes) ≤ line.length := Nat.mul_div_le _ _
  have hdiv : (line.length + 1) / stratumLineBufferBytes = line.length / stratumLineBufferBytes := by
    unfold stratumLineBufferBytes at *
    omega
  rw [kept, List.length_append, List.length_singleton, hdiv, List.drop_append_of_le_length hle, kept]

/-- The character that finds no room is dropped with the rest. -/
theorem kept_overflow {line : List Char} {ch : Char} (h : ¬ (kept line).length < stratumLineBufferBytes - 1) :
    kept (line ++ [ch]) = [] := by
  rw [length_kept] at h
  rw [kept, List.drop_eq_nil_iff, List.length_append, List.length_singleton]
  unfold stratumLineBufferBytes at *
  omega

/-- The buffer holds what is kept of `line`. -/
def LineBuffer.Holds (b : LineBuffer) (line : List Char) : Prop := b.line.take b.used = kept line

namespace LineBuffer

variable {b : LineBuffer} {line : List Char} {ch : Char}

theorem Holds.length (h : b.Holds line) : (kept line).length = b.used := by
  have hlt := b.used_lt
  rw [← h, List.length_take, b.length_line]
  omega

theorem holds_empty (mem : LineMem) : (empty mem).Holds [] := rfl

theorem take_set_succ (b : LineBuffer) (ch : Char) : (b.line.set b.used ch).take (b.used + 1) = b.line.take b.used ++ [ch] := by
  have hlt : b.used < b.line.length := by rw [b.length_line]; exact b.used_lt
  rw [List.take_add_one, List.take_set_of_le le_rfl, List.getElem?_set_self hlt, Option.toList_some]

/-- A character of the line. -/
theorem Holds.char (h : b.Holds line) (hn : ch ≠ '\n') (hr : ch ≠ '\r') :
    (b.receive ch).1.Holds (line ++ [ch]) ∧ (b.receive ch).2 = none := by
  have hlen := h.length
  rw [receive, if_neg hn, if_pos hr]
  split
  · rename_i hroom
    refine ⟨?_, rfl⟩
    rw [Holds, kept_append (by omega), ← h]
    exact take_set_succ b ch
  · rename_i hfull
    refine ⟨?_, rfl⟩
    rw [Holds, kept_overflow (by omega)]
    rfl

/-- A character of the line while there is room. -/
theorem receive_room (hn : ch ≠ '\n') (hr : ch ≠ '\r') (hroom : b.used < stratumLineBufferBytes - 1) :
    (b.receive ch).2 = none ∧ (b.receive ch).1.used = b.used + 1 ∧ (b.receive ch).1.line = b.line.set b.used ch := by
  rw [receive, if_neg hn, if_pos hr, dif_pos hroom]
  exact ⟨rfl, rfl, rfl⟩

/-- The end of the line. -/
theorem Holds.newline (h : b.Holds line) :
    (b.receive '\n').1.Holds [] ∧ (b.receive '\n').2.map cString = some (cString (kept line)) := by
  refine ⟨rfl, ?_⟩
  have hlt : b.used < b.line.length := by rw [b.length_line]; exact b.used_lt
  have hset : b.line.set b.used '\x00' = kept line ++ '\x00' :: b.line.drop (b.used + 1) := by
    rw [List.set_eq_take_append_cons_drop, if_pos hlt, ← h]
  have hgiven : (b.receive '\n').2 = some (b.line.set b.used '\x00') := rfl
  rw [hgiven, hset, Option.map_some, cString, cString, List.takeWhile_append]
  split
  · rename_i hall
    rw [List.takeWhile_cons_of_neg (by simp), List.append_nil, (List.takeWhile_sublist _).eq_of_length hall]
  · rfl

end LineBuffer

/-! ## The lines of a stream -/

/-- From a buffer that holds what has been received of a line. -/
theorem handledLines_from (events : List Recv) (b : LineBuffer) (part : List Char) (hpart : '\n' ∉ part)
    (hb : b.Holds (part.filter (· ≠ '\r'))) :
    handledLines b events = (streamLines (part ++ received events)).map fun line => cString (kept line) := by
  induction events generalizing b part with
  | nil =>
    have hend : received [] = [] := rfl
    rw [hend, List.append_nil, streamLines, List.splitOn_eq_singleton hpart]
    rfl
  | cons event rest ih =>
    cases event with
    | timeout => exact ih b part hpart hb
    | char ch =>
      have hrec : received (.char ch :: rest) = ch :: received rest := rfl
      rw [handledLines, hrec]
      by_cases hn : ch = '\n'
      · subst hn
        obtain ⟨hempty, hgiven⟩ := hb.newline
        have hlines : streamLines (part ++ '\n' :: received rest) =
            part.filter (· ≠ '\r') :: streamLines (received rest) := by
          rw [streamLines, List.splitOn_append_cons_self_of_not_mem hpart,
            List.dropLast_cons_of_ne_nil (List.splitOn_ne_nil _ _), List.map_cons, streamLines]
        rw [hgiven, hlines, List.map_cons, ih _ [] (by simp) hempty]
        rfl
      · have hpart' : '\n' ∉ part ++ [ch] := by simp [hpart, Ne.symm hn]
        have hcat : part ++ ch :: received rest = part ++ [ch] ++ received rest := by simp
        rw [hcat]
        by_cases hr : ch = '\r'
        · subst hr
          exact ih b _ hpart' (by rw [List.filter_append]; simpa using hb)
        · obtain ⟨hholds, hnone⟩ := hb.char hn hr
          rw [hnone]
          exact ih _ _ hpart' (by rw [List.filter_append]; simpa [hr] using hholds)

/-- **The lines that are handled**, whatever the buffer held and however the stream arrives. -/
theorem handledLines_eq (mem : LineMem) (events : List Recv) :
    handledLines (.empty mem) events = (streamLines (received events)).map fun line => cString (kept line) :=
  handledLines_from events _ [] (by simp) (LineBuffer.holds_empty mem)

theorem cString_eq_self_iff {line : List Char} : cString line = line ↔ '\x00' ∉ line := by
  rw [cString, List.takeWhile_eq_self_iff]
  constructor
  · intro h hmem
    simpa using h _ hmem
  · intro h ch hch
    have hne : ch ≠ '\x00' := fun heq => h (heq ▸ hch)
    simpa using hne

/-- **Framing.** The lines that are handled are those of the stream, with the lines that are too long left out, exactly
when no line of the stream is too long or has a zero character in it. -/
theorem handled_lines_iff (mem : LineMem) (events : List Recv) :
    handledLines (.empty mem) events = shortLines (received events) ↔
      ∀ line ∈ streamLines (received events), line.length ≤ stratumLineBufferBytes - 1 ∧ '\x00' ∉ line := by
  rw [handledLines_eq, shortLines]
  generalize streamLines (received events) = lines
  constructor
  · intro h
    -- one line is handled for each line of the stream, so none has been left out
    have hlen : (lines.filter fun line => line.length ≤ stratumLineBufferBytes - 1).length = lines.length := by
      rw [← h, List.length_map]
    have hall := List.length_filter_eq_length_iff.1 hlen
    have hshort : ∀ line ∈ lines, line.length ≤ stratumLineBufferBytes - 1 := fun line hl => by simpa using hall line hl
    rw [List.filter_eq_self.2 hall] at h
    intro line hl
    refine ⟨hshort line hl, cString_eq_self_iff.1 ?_⟩
    have hmap : lines.map (fun line => cString (kept line)) = lines.map id := by rw [h, List.map_id]
    have hsame := List.map_inj_left.1 hmap line hl
    rwa [kept_of_short (hshort line hl)] at hsame
  · intro h
    rw [List.filter_eq_self.2 fun line hl => by simpa using (h line hl).1]
    refine (List.map_congr_left fun line hl => ?_).trans (List.map_id lines)
    rw [kept_of_short (h line hl).1, id]
    exact cString_eq_self_iff.2 (h line hl).2

/-- A line of 2048 characters in front of a message. -/
def longLine : List Char := List.replicate stratumLineBufferBytes ' ' ++ "\"true\"".toList

/-- The end of a line that is too long is handled as a line. -/
theorem tail_of_long_line_handled : ¬ ∀ (mem : LineMem) (events : List Recv),
    handledLines (.empty mem) events = shortLines (received events) := by
  intro h
  let mem : LineMem := ⟨List.replicate stratumLineBufferBytes ' ', List.length_replicate⟩
  have hn : '\n' ∉ longLine := by simp [longLine]
  have hlines : streamLines (received ((longLine ++ ['\n']).map .char)) = [longLine] := by
    have hrec : received ((longLine ++ ['\n']).map .char) = longLine ++ '\n' :: [] := by
      rw [received, List.filterMap_map]
      exact List.filterMap_some
    rw [hrec, streamLines, List.splitOn_append_cons_self_of_not_mem hn]
    simp [longLine]
  have hlong : ¬ longLine.length ≤ stratumLineBufferBytes - 1 := by
    rw [longLine, List.length_append, List.length_replicate, stratumLineBufferBytes]
    omega
  have hrun := h mem ((longLine ++ ['\n']).map .char)
  rw [handledLines_eq, shortLines, hlines, List.filter_cons_of_neg (by simpa using hlong)] at hrun
  cases hrun

end Vek280Miner.Sw
