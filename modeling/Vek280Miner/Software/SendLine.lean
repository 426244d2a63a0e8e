import Vek280Miner.Software.Job

/-!
# Sent lines (`stratum_client.c`)

`send_line` hands a line to `FreeRTOS_send` until all of it has been accepted or a call fails. Its callers go on after a
failure: the next line follows on the same connection. The bytes that the socket accepts are complete lines and the
beginning of the line that is being sent exactly when only the first call for a line ever fails (`framed_iff`).
-/

namespace Vek280Miner.Sw

/-! ## `send_line` -/

/-- A call of `send_line`: what the socket has accepted, what the call has returned, if it has, and the outcomes that
are left for the calls that follow. -/
structure SendRun where
  accepted : List Char
  returned : Option Int
  rest : List Int
deriving DecidableEq

/-- The loop of `send_line` from `sent` on; the list holds what the calls of `FreeRTOS_send` return, one after the
other. A call that returns `rc` has accepted `rc` characters, or none if `rc` is not positive. -/
def sendLoop (line : List Char) : Nat → List Int → SendRun
  | sent, [] => ⟨[], if sent < line.length then none else some sent, []⟩
  | sent, rc :: rcs =>
    if sent < line.length then
      if rc ≤ 0 then ⟨[], some rc, rcs⟩
      else
        let run := sendLoop line (sent + rc.toNat) rcs
        { run with accepted := (line.drop sent).take rc.toNat ++ run.accepted }
    else ⟨[], some sent, rc :: rcs⟩

def sendLine (line : List Char) (rcs : List Int) : SendRun := sendLoop line 0 rcs

/-! ## The lines of a connection -/

/-- What the socket has accepted of the lines passed to `send_line`: all bytes, the lines of which every byte has been
accepted, and of the line that is being sent, if there is one, the part that has been accepted. -/
structure Sent where
  accepted : List Char
  complete : List (List Char)
  sending : List Char
  current : List Char

/-- The lines passed to `send_line` one after the other; a line that fails does not keep the next one back. -/
def sendLines : List (List Char) → List Int → Sent
  | [], _ => ⟨[], [], [], []⟩
  | line :: lines, rcs =>
    let run := sendLine line rcs
    match run.returned with
    | none => ⟨run.accepted, [], line, run.accepted⟩
    | some _ =>
      let later := sendLines lines run.rest
      { later with
        accepted := run.accepted ++ later.accepted
        complete := if run.accepted = line then line :: later.complete else later.complete }

/-- The accepted bytes are complete lines and the beginning of the line that is being sent. -/
structure Sent.Framed (sent : Sent) : Prop where
  bytes : sent.accepted = sent.complete.flatten ++ sent.current
  beginning : sent.current <+: sent.sending

/-- The outcomes of the calls for a line of `len` characters from `sent` on: up to the one that fails or is the last. -/
def lineCalls (len : Nat) : Nat → List Int → List Int
  | _, [] => []
  | sent, rc :: rcs =>
    if sent < len then if rc ≤ 0 then [rc] else rc :: lineCalls len (sent + rc.toNat) rcs else []

/-- Of the calls for a line only the first one fails, if any. -/
def FailsFirst : List (List Char) → List Int → Prop
  | [], _ => True
  | line :: lines, rcs =>
    let calls := lineCalls line.length 0 rcs
    (∀ rc ∈ calls.tail, 0 < rc) ∧ FailsFirst lines (rcs.drop calls.length)

theorem failsFirst_nil : ∀ lines, FailsFirst lines []
  | [] => trivial
  | _ :: lines => ⟨by simp [lineCalls], failsFirst_nil lines⟩

/-! ## One line -/

variable {line : List Char}

/-- The socket accepts the line from its beginning. -/
theorem sendLoop_prefix (line : List Char) : ∀ (sent : Nat) (rcs : List Int),
    (sendLoop line sent rcs).accepted <+: line.drop sent
  | _, [] => List.nil_prefix
  | sent, rc :: rcs => by
    rw [sendLoop]
    split
    · split
      · exact List.nil_prefix
      · obtain ⟨tail, htail⟩ := sendLoop_prefix line (sent + rc.toNat) rcs
        refine ⟨tail, ?_⟩
        rw [List.append_assoc, htail, ← List.drop_drop, List.take_append_drop]
    · exact List.nil_prefix

/-- A call uses up the outcomes of the calls for its line; before it has returned, all of them. -/
theorem sendLoop_rest (line : List Char) : ∀ (sent : Nat) (rcs : List Int),
    (sendLoop line sent rcs).rest = rcs.drop (lineCalls line.length sent rcs).length ∧
      ((sendLoop line sent rcs).returned = none → rcs.drop (lineCalls line.length sent rcs).length = [])
  | _, [] => ⟨rfl, fun _ => rfl⟩
  | sent, rc :: rcs => by
    rw [sendLoop, lineCalls]
    split
    · split
      · exact ⟨rfl, fun h => by cases h⟩
      · exact sendLoop_rest line (sent + rc.toNat) rcs
    · exact ⟨rfl, fun h => by cases h⟩

/-- Without a failure the call returns when the line is complete. -/
theorem sendLoop_complete (line : List Char) : ∀ (sent : Nat) (rcs : List Int),
    (∀ rc ∈ lineCalls line.length sent rcs, 0 < rc) → (sendLoop line sent rcs).returned ≠ none →
      (sendLoop line sent rcs).accepted = line.drop sent
  | sent, [], _, h => by
    rw [sendLoop] at h ⊢
    have hlen : line.length ≤ sent := by simpa using h
    exact (List.drop_eq_nil_of_le hlen).symm
  | sent, rc :: rcs, hpos, h => by
    rw [lineCalls] at hpos
    rw [sendLoop] at h ⊢
    split
    · rename_i hlt
      rw [if_pos hlt] at hpos h
      have hrc : ¬ rc ≤ 0 := by
        intro hle
        rw [if_pos hle] at hpos
        exact absurd (hpos rc (by simp)) (by omega)
      rw [if_neg hrc] at hpos h ⊢
      have hrest := sendLoop_complete line (sent + rc.toNat) rcs (fun rc' h' => hpos rc' (by simp [h'])) h
      show (line.drop sent).take rc.toNat ++ (sendLoop line (sent + rc.toNat) rcs).accepted = _
      rw [hrest, ← List.drop_drop, List.take_append_drop]
    · rename_i hge
      exact (List.drop_eq_nil_of_le (by omega)).symm

/-- A call that fails returns before the line is complete. -/
theorem sendLoop_fails (line : List Char) : ∀ (sent : Nat) (rcs : List Int) (rc : Int),
    rc ∈ lineCalls line.length sent rcs → rc ≤ 0 →
      (sendLoop line sent rcs).returned ≠ none ∧ (sendLoop line sent rcs).accepted ≠ line.drop sent
  | _, [], _, h, _ => by cases h
  | sent, rc :: rcs, rc', h, hle => by
    rw [lineCalls] at h
    rw [sendLoop]
    split
    · rename_i hlt
      rw [if_pos hlt] at h
      split
      · refine ⟨by simp, fun hnil => ?_⟩
        have hlen : line.length ≤ sent := List.drop_eq_nil_iff.1 hnil.symm
        omega
      · rename_i hpos
        rw [if_neg hpos] at h
        rcases List.mem_cons.1 h with rfl | h
        · exact absurd hle hpos
        · obtain ⟨hret, hne⟩ := sendLoop_fails line (sent + rc.toNat) rcs rc' h hle
          refine ⟨hret, fun heq => hne ?_⟩
          have hcat : (line.drop sent).take rc.toNat ++ line.drop (sent + rc.toNat) = line.drop sent := by
            rw [← List.drop_drop, List.take_append_drop]
          exact List.append_cancel_left (heq.trans hcat.symm)
    · rename_i hge
      rw [if_neg hge] at h
      cases h

/-- A call that fails has accepted nothing exactly when it is the first one. -/
theorem sendLine_fails {rcs : List Int} (h : ∃ rc ∈ lineCalls line.length 0 rcs, rc ≤ 0) :
    (sendLine line rcs).accepted = [] ↔ ∀ rc ∈ (lineCalls line.length 0 rcs).tail, 0 < rc := by
  obtain ⟨rc', hmem, hle⟩ := h
  cases rcs with
  | nil => cases hmem
  | cons rc rcs =>
    rw [lineCalls] at hmem ⊢
    rw [sendLine, sendLoop]
    by_cases hlt : 0 < line.length
    · rw [if_pos hlt] at hmem ⊢
      rw [if_pos hlt]
      by_cases hrc : rc ≤ 0
      · rw [if_pos hrc, if_pos hrc]
        exact ⟨fun _ rc'' h' => (by cases h'), fun _ => rfl⟩
      · rw [if_neg hrc] at hmem
        rw [if_neg hrc, if_neg hrc]
        refine ⟨fun hnil => absurd (List.append_eq_nil_iff.1 hnil).1 ?_, fun hpos => absurd (hpos rc' ?_) (by omega)⟩
        · have hne : line ≠ [] := List.ne_nil_of_length_pos hlt
          rw [List.drop_zero, List.take_eq_nil_iff]
          rintro (h0 | h0)
          · omega
          · exact hne h0
        · rcases List.mem_cons.1 hmem with rfl | hmem
          · exact absurd hle hrc
          · exact hmem
    · rw [if_neg hlt] at hmem
      cases hmem

/-! ## All lines -/

/-- What is accounted for has been accepted. -/
theorem length_sendLines : ∀ (lines : List (List Char)) (rcs : List Int),
    ((sendLines lines rcs).complete.flatten ++ (sendLines lines rcs).current).length ≤ (sendLines lines rcs).accepted.length
  | [], _ => le_rfl
  | line :: lines, rcs => by
    rw [sendLines]
    split
    · simp
    · have ih := length_sendLines lines (sendLine line rcs).rest
      split
      · rename_i hline
        simp only [List.flatten_cons, List.length_append, hline] at ih ⊢
        omega
      · simp only [List.length_append] at ih ⊢
        omega

/-- The part of the line that is being sent is its beginning. -/
theorem current_prefix : ∀ (lines : List (List Char)) (rcs : List Int),
    (sendLines lines rcs).current <+: (sendLines lines rcs).sending
  | [], _ => List.prefix_rfl
  | line :: lines, rcs => by
    rw [sendLines]
    split
    · exact sendLoop_prefix line 0 rcs
    · exact current_prefix lines (sendLine line rcs).rest

theorem framed_iff_bytes (lines : List (List Char)) (rcs : List Int) : (sendLines lines rcs).Framed ↔
    (sendLines lines rcs).accepted = (sendLines lines rcs).complete.flatten ++ (sendLines lines rcs).current :=
  ⟨fun h => h.bytes, fun h => ⟨h, current_prefix lines rcs⟩⟩

/-- **Framing.** For all lines and all outcomes of the calls of `FreeRTOS_send`: what the socket has accepted is
complete lines, followed by the beginning of the line that is being sent, exactly when only the first call for a line
fails. -/
theorem framed_iff (lines : List (List Char)) (rcs : List Int) :
    (sendLines lines rcs).Framed ↔ FailsFirst lines rcs := by
  induction lines generalizing rcs with
  | nil => exact ⟨fun _ => trivial, fun _ => (framed_iff_bytes _ _).2 rfl⟩
  | cons line lines ih =>
    have hrest := sendLoop_rest line 0 rcs
    have hih := ih (sendLine line rcs).rest
    rw [show (sendLine line rcs).rest = _ from hrest.1] at hih
    rw [framed_iff_bytes] at hih ⊢
    rw [FailsFirst, ← hih]
    by_cases hall : ∀ rc ∈ lineCalls line.length 0 rcs, 0 < rc
    · have htail : ∀ rc ∈ (lineCalls line.length 0 rcs).tail, 0 < rc := fun rc h => hall rc (List.mem_of_mem_tail h)
      cases hret : (sendLine line rcs).returned with
      | none =>
        rw [hrest.2 hret] at hih ⊢
        rw [sendLines, hret]
        exact ⟨fun _ => ⟨htail, hih.2 (failsFirst_nil lines)⟩, fun _ => rfl⟩
      | some rc =>
        have hline : (sendLine line rcs).accepted = line :=
          sendLoop_complete line 0 rcs hall (by rw [show sendLoop line 0 rcs = sendLine line rcs from rfl, hret]; simp)
        rw [sendLines, hret]
        simp only [hline, if_true, List.flatten_cons, List.append_assoc, List.append_cancel_left_eq]
        rw [show (sendLine line rcs).rest = _ from hrest.1]
        exact ⟨fun h => ⟨htail, h⟩, fun h => h.2⟩
    · obtain ⟨rc', hmem, hle⟩ : ∃ rc ∈ lineCalls line.length 0 rcs, rc ≤ 0 := by
        by_contra hno
        exact hall fun rc h => by
          by_contra hpos
          exact hno ⟨rc, h, by omega⟩
      obtain ⟨hret, hne⟩ := sendLoop_fails line 0 rcs rc' hmem hle
      obtain ⟨rc, hret⟩ := Option.ne_none_iff_exists'.1 hret
      have hfirst := sendLine_fails ⟨rc', hmem, hle⟩
      have hlen := length_sendLines lines (rcs.drop (lineCalls line.length 0 rcs).length)
      rw [sendLines, show (sendLine line rcs).returned = _ from hret, ← hfirst]
      simp only [show (sendLine line rcs).accepted ≠ line from hne, if_false, show (sendLine line rcs).rest = _ from hrest.1]
      constructor
      · intro h
        have hnil : (sendLine line rcs).accepted = [] := by
          have hl := congrArg List.length h
          rw [List.length_append] at hl
          exact List.eq_nil_of_length_eq_zero (by omega)
        rw [hnil, List.nil_append] at h
        exact ⟨hnil, h⟩
      · rintro ⟨hnil, h⟩
        rw [hnil, List.nil_append]
        exact h

/-! ## The first two lines -/

/-- `snprintf` of the subscription. -/
def subscribeLine : List Char :=
  snprintf 384 "\x7b\"id\":1,\"method\":\"mining.subscribe\",\"params\":[\"vek280_bitcoin_miner/0.1\"]\x7d\n".toList

/-- `snprintf` of the authorization. -/
def authorizeLine (user : CStr 128) (password : CStr 64) : List Char :=
  snprintf 384 ("\x7b\"id\":2,\"method\":\"mining.authorize\",\"params\":[\"".toList ++ user ++ "\",\"".toList ++ password ++
    "\"]\x7d\n".toList)

/-- The lines of `send_subscribe_authorize`, sent whether or not the first one fails. -/
def sendSubscribeAuthorize (user : CStr 128) (password : CStr 64) : List (List Char) :=
  [subscribeLine, authorizeLine user password]

/-- The authorization follows the beginning of the subscription. -/
theorem authorize_behind_partial_subscribe : ¬ ∀ (lines : List (List Char)) (rcs : List Int),
    (sendLines lines rcs).Framed := by
  intro h
  have hrun := (h (sendSubscribeAuthorize ⟨['u'], by decide⟩ ⟨['x'], by decide⟩) [10, -11, 56]).bytes
  revert hrun
  decide +kernel

end Vek280Miner.Sw
