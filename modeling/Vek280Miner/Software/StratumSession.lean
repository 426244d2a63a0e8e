import Vek280Miner.Software.StratumParse

/-!
# The session with the pool (`stratum_client.c`)

`stratum_state_t` and what a line does to it. `handle_stratum_line` stores a notify, a target, the subscription or the
authorization, and then tries to dispatch the notify that is pending. The dispatch itself uses the miner service, which
other tasks use at the same time; it is part of the task that runs it.
-/

namespace Vek280Miner.Sw

/-- `stratum_state_t`; a notify whose flag is not set is `none`. -/
structure StratumSession where
  state : StratumState
  pendingNotify : Option StratumNotify
  currentNotify : Option StratumNotify

deriving instance DecidableEq for StratumNotify, StratumState, StratumSession

/-- The counters of `stratum_debug_t` that `handle_stratum_line` keeps. They wrap at 2^32; here they are unbounded. -/
structure StratumDebug where
  rxLines : Nat
  notifyCount : Nat
  difficultyCount : Nat
  targetCount : Nat
  subscribeOk : Nat
  authorizeOk : Nat
  shareAccepted : Nat
  shareRejected : Nat
deriving DecidableEq

/-- The state of a new connection, every byte zero. -/
def StratumSession.fresh : StratumSession := ⟨⟨⟨[], Nat.zero_lt_succ _⟩, 0, 0, 0, false, false, false, by decide⟩, none, none⟩

def StratumDebug.fresh : StratumDebug := ⟨0, 0, 0, 0, 0, 0, 0, 0⟩

/-- The verdict on a share, by the first of two texts that the line contains. -/
def countShare (line : List Char) (debug : StratumDebug) : StratumDebug :=
  if jsonHasId line 4 then
    if (strstr "\"result\":true".toList line).isSome then { debug with shareAccepted := debug.shareAccepted + 1 }
    else if (strstr "\"result\":false".toList line).isSome || (strstr "\"error\":".toList line).isSome then
      { debug with shareRejected := debug.shareRejected + 1 }
    else debug
  else debug

/-- The session, the counters, and whether `try_dispatch_pending_notify` follows. -/
abbrev Handled := StratumSession × StratumDebug × Bool

/-- A line that is neither a notify nor a target. -/
def handleResponse (line : List Char) (session : StratumSession) (debug : StratumDebug) : Handled :=
  let debug := countShare line debug
  let (state, debug) :=
    match parseSubscribeResponse line session.state with
    | some state => (state, { debug with subscribeOk := debug.subscribeOk + 1 })
    | none => (session.state, debug)
  let (state, debug) :=
    match parseAuthorizeResponse line state with
    | some state => (state, { debug with authorizeOk := debug.authorizeOk + 1 })
    | none => (state, debug)
  ({ session with state }, debug, true)

/-- `handle_stratum_line`, up to the dispatch. -/
def handleStratumLine (strtod : List Char → Rat) (line : List Char) (session : StratumSession) (debug : StratumDebug) :
    Handled :=
  let debug := { debug with rxLines := debug.rxLines + 1 }
  if jsonMethodIs line "mining.notify".toList then
    match parseNotify line with
    | some notify =>
      ({ session with pendingNotify := some notify }, { debug with notifyCount := debug.notifyCount + 1 }, true)
    | none => (session, debug, false)
  else if jsonMethodIs line "mining.set_difficulty".toList then
    match parseDifficulty strtod line with
    | some difficulty =>
      ({ session with state := { session.state with target := compactTargetForDifficulty difficulty, haveTarget := true } },
        { debug with difficultyCount := debug.difficultyCount + 1 }, true)
    | none => (session, debug, false)
  else if jsonMethodIs line "mining.set_target".toList then
    match parseTarget line with
    | some target =>
      ({ session with state := { session.state with target, haveTarget := true } },
        { debug with targetCount := debug.targetCount + 1 }, true)
    | none => (session, debug, false)
  else handleResponse line session debug

/-- `build_job` in `dispatch_notify_work`; the counter of the session advances. -/
def dispatchNotifyWork (notify : StratumNotify) (session : StratumSession) : Option MinerJob × StratumSession :=
  ((buildJob notify session.state).1, { session with state := (buildJob notify session.state).2 })

/-- The notify that a line stores. -/
def notifyOf (line : List Char) : Option StratumNotify :=
  if jsonMethodIs line "mining.notify".toList then parseNotify line else none

/-- The extranonce1 that a line stores. -/
def subscriptionOf (line : List Char) (session : StratumSession) : Option (CStr 65) :=
  if jsonMethodIs line "mining.notify".toList || jsonMethodIs line "mining.set_difficulty".toList ||
    jsonMethodIs line "mining.set_target".toList then none
  else (parseSubscribeResponse line session.state).map (·.extranonce1)

/-- The target that a line stores. -/
def targetOf (strtod : List Char → Rat) (line : List Char) : Option (Words 8) :=
  if jsonMethodIs line "mining.notify".toList then none
  else if jsonMethodIs line "mining.set_difficulty".toList then
    (parseDifficulty strtod line).map compactTargetForDifficulty
  else if jsonMethodIs line "mining.set_target".toList then parseTarget line
  else none

/-! ## What a line changes -/

variable {line : List Char} {session : StratumSession} {debug : StratumDebug} {strtod : List Char → Rat}

/-- An authorization changes its flag only. -/
theorem parseAuthorize_some {state state' : StratumState} (h : parseAuthorizeResponse line state = some state') :
    state' = { state with authorized := true } := by
  unfold parseAuthorizeResponse at h
  split at h
  · cases h
  · split at h
    · cases h
    · split at h
      · exact (Option.some.inj h).symm
      · cases h

theorem parseSubscribe_target {state state' : StratumState} (h : parseSubscribeResponse line state = some state') :
    state'.target = state.target ∧ state'.haveTarget = state.haveTarget := by
  unfold parseSubscribeResponse at h
  split at h
  · cases h
  · split at h
    · cases h
    · split at h
      · cases h
      · split at h
        · cases h
        · split at h
          · cases h
          · obtain rfl := Option.some.inj h
            exact ⟨rfl, rfl⟩

/-- A response stores the subscription and the authorization that it is read as. -/
theorem handleResponse_session : (handleResponse line session debug).1 =
    let state := (parseSubscribeResponse line session.state).getD session.state
    { session with state := (parseAuthorizeResponse line state).getD state } := by
  unfold handleResponse
  cases hs : parseSubscribeResponse line session.state with
  | none => cases ha : parseAuthorizeResponse line session.state <;> simp only [ha, Option.getD_none, Option.getD_some]
  | some state => cases ha : parseAuthorizeResponse line state <;> simp only [ha, Option.getD_none, Option.getD_some]

/-- The notify that is pending is the old one or the one that the line stores. -/
theorem handle_pending : (handleStratumLine strtod line session debug).1.pendingNotify =
    (notifyOf line).orElse fun _ => session.pendingNotify := by
  unfold handleStratumLine notifyOf
  split
  · cases parseNotify line <;> rfl
  · split
    · cases parseDifficulty strtod line <;> rfl
    · split
      · cases parseTarget line <;> rfl
      · rfl

theorem handle_current : (handleStratumLine strtod line session debug).1.currentNotify = session.currentNotify := by
  unfold handleStratumLine
  split
  · cases parseNotify line <;> rfl
  · split
    · cases parseDifficulty strtod line <;> rfl
    · split
      · cases parseTarget line <;> rfl
      · rfl

/-- The counters have no influence on the session. -/
theorem handle_debug (debug debug' : StratumDebug) :
    (handleStratumLine strtod line session debug).1 = (handleStratumLine strtod line session debug').1 ∧
      (handleStratumLine strtod line session debug).2.2 = (handleStratumLine strtod line session debug').2.2 := by
  unfold handleStratumLine
  split
  · cases parseNotify line <;> exact ⟨rfl, rfl⟩
  · split
    · cases parseDifficulty strtod line <;> exact ⟨rfl, rfl⟩
    · split
      · cases parseTarget line <;> exact ⟨rfl, rfl⟩
      · exact ⟨by rw [handleResponse_session, handleResponse_session], rfl⟩

/-- A response leaves the subscription alone or stores a new one. -/
theorem response_subscription :
    let session' := (handleResponse line session debug).1
    (parseSubscribeResponse line session.state).map (·.extranonce1) = some session'.state.extranonce1 ∨
      session'.state.extranonce1 = session.state.extranonce1 ∧ session'.state.subscribed = session.state.subscribed := by
  -- the authorization leaves it alone
  have hauthorize : ∀ state : StratumState, ((parseAuthorizeResponse line state).getD state).extranonce1 = state.extranonce1 ∧
      ((parseAuthorizeResponse line state).getD state).subscribed = state.subscribed := by
    intro state
    cases ha : parseAuthorizeResponse line state with
    | none => exact ⟨rfl, rfl⟩
    | some state' =>
      rw [parseAuthorize_some ha]
      exact ⟨rfl, rfl⟩
  rw [handleResponse_session]
  cases parseSubscribeResponse line session.state with
  | some state => exact .inl (congrArg some (hauthorize state).1.symm)
  | none => exact .inr (hauthorize session.state)

/-- A response leaves the target alone. -/
theorem response_target :
    let session' := (handleResponse line session debug).1
    session'.state.target = session.state.target ∧ session'.state.haveTarget = session.state.haveTarget := by
  have hauthorize : ∀ state : StratumState, ((parseAuthorizeResponse line state).getD state).target = state.target ∧
      ((parseAuthorizeResponse line state).getD state).haveTarget = state.haveTarget := by
    intro state
    cases ha : parseAuthorizeResponse line state with
    | none => exact ⟨rfl, rfl⟩
    | some state' =>
      rw [parseAuthorize_some ha]
      exact ⟨rfl, rfl⟩
  rw [handleResponse_session]
  cases hs : parseSubscribeResponse line session.state with
  | none => exact hauthorize session.state
  | some state =>
    obtain ⟨htarget, hhave⟩ := parseSubscribe_target hs
    exact ⟨(hauthorize state).1.trans htarget, (hauthorize state).2.trans hhave⟩

/-- A line leaves the target alone or stores a new one. -/
theorem handle_target :
    let session' := (handleStratumLine strtod line session debug).1
    targetOf strtod line = some session'.state.target ∨
      session'.state.target = session.state.target ∧ session'.state.haveTarget = session.state.haveTarget := by
  unfold handleStratumLine targetOf
  split
  · cases parseNotify line <;> exact .inr ⟨rfl, rfl⟩
  · split
    · cases parseDifficulty strtod line with
      | none => exact .inr ⟨rfl, rfl⟩
      | some difficulty => exact .inl rfl
    · split
      · cases parseTarget line with
        | none => exact .inr ⟨rfl, rfl⟩
        | some target => exact .inl rfl
      · exact .inr response_target

/-- A line leaves the subscription alone or stores a new one. -/
theorem handle_subscription :
    let session' := (handleStratumLine strtod line session debug).1
    subscriptionOf line session = some session'.state.extranonce1 ∨
      session'.state.extranonce1 = session.state.extranonce1 ∧ session'.state.subscribed = session.state.subscribed := by
  unfold handleStratumLine subscriptionOf
  by_cases hn : jsonMethodIs line "mining.notify".toList = true
  · simp only [hn, if_true]
    cases parseNotify line <;> exact .inr ⟨rfl, rfl⟩
  · by_cases hd : jsonMethodIs line "mining.set_difficulty".toList = true
    · simp only [hn, hd, if_true]
      cases parseDifficulty strtod line <;> exact .inr ⟨rfl, rfl⟩
    · by_cases ht : jsonMethodIs line "mining.set_target".toList = true
      · simp only [hn, hd, ht, if_true]
        cases parseTarget line <;> exact .inr ⟨rfl, rfl⟩
      · simp only [hn, hd, ht]
        exact response_subscription

end Vek280Miner.Sw
