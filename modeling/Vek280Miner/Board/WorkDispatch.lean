import Vek280Miner.Board.SessionIsolation

/-!
# Work dispatch over the lines of a connection

`handle_stratum_line` stores what a line says (`Stores`) and then tries to dispatch the notify that is pending. An
attempt that finds the session not ready changes nothing, so the order in which the prerequisites come does not matter:
after every line the newest notify has been dispatched if it can be (`Settled`), and the four messages that start a
session lead to the same job in any order.
-/

namespace Vek280Miner.Sw

/-! ## Whether a job can be built -/

/-- Two computations succeed alike if their steps do. -/
theorem isSome_bind_congr {β γ : Type} {x y : Option β} {f g : β → Option γ} (h : x.isSome = y.isSome)
    (hf : ∀ a b, x = some a → y = some b → (f a).isSome = (g b).isSome) : (x.bind f).isSome = (y.bind g).isSome := by
  cases x with
  | none =>
    cases y with
    | none => rfl
    | some b => cases h
  | some a =>
    cases y with
    | none => cases h
    | some b => exact hf a b rfl rfl

theorem hexToBytes_isSome_congr {e e' : List Char} (hl : e.length = e'.length) (he : ∀ ch ∈ e, (hexValue ch).isSome)
    (he' : ∀ ch ∈ e', (hexValue ch).isSome) (m : Nat) : (hexToBytes e m).isSome = (hexToBytes e' m).isSome := by
  rw [Bool.eq_iff_iff, hexToBytes_isSome_iff, hexToBytes_isSome_iff, hl]
  exact ⟨fun h => ⟨h.1, h.2.1, he'⟩, fun h => ⟨h.1, h.2.1, he⟩⟩

/-- Whether the coinbase fits does not depend on the digits of `extranonce2`. -/
theorem coinbaseBytes_isSome {notify : StratumNotify} {extranonce1 e e' : List Char} (hl : e.length = e'.length)
    (he : ∀ ch ∈ e, (hexValue ch).isSome) (he' : ∀ ch ∈ e', (hexValue ch).isSome) :
    (coinbaseBytes notify extranonce1 e).isSome = (coinbaseBytes notify extranonce1 e').isSome := by
  refine isSome_bind_congr rfl fun c1 c1' h1 h1' => ?_
  obtain rfl := Option.some.inj (h1.symm.trans h1')
  refine isSome_bind_congr rfl fun e1 e1' h2 h2' => ?_
  obtain rfl := Option.some.inj (h2.symm.trans h2')
  refine isSome_bind_congr (hexToBytes_isSome_congr hl he he' _) fun b b' h3 h3' => ?_
  have hb : b.length = b'.length := by rw [length_hexToBytes h3, length_hexToBytes h3', hl]
  rw [hb]
  exact isSome_bind_congr rfl fun _ _ _ _ => rfl

theorem merkleLoop_isSome_congr : ∀ (l : List (CStr 65)) (m m' : List Byte),
    (merkleLoop l m).isSome = (merkleLoop l m').isSome
  | [], _, _ => rfl
  | branch :: l, m, m' => by
    rw [merkleLoop, merkleLoop]
    cases hex32 branch with
    | none => rfl
    | some b => exact merkleLoop_isSome_congr l _ _

theorem headerBytes_isSome_congr (notify : StratumNotify) (coinbase coinbase' : List Byte) :
    (headerBytes notify coinbase).isSome = (headerBytes notify coinbase').isSome :=
  isSome_bind_congr (merkleLoop_isSome_congr _ _ _) fun _ _ _ _ => isSome_bind_congr rfl fun _ _ _ _ => rfl

/-- Whether a notify can be built does not depend on the counter. -/
theorem buildJob_isSome_counter (notify : StratumNotify) (state : StratumState) (c : Word) :
    (buildJob notify { state with extranonce2Counter := c }).1.isSome = (buildJob notify state).1.isSome := by
  rw [Bool.eq_iff_iff, buildJob_isSome_iff, buildJob_isSome_iff]
  have hlen : (jobExtranonce2 { state with extranonce2Counter := c }).length = (jobExtranonce2 state).length := by
    simp only [jobExtranonce2, length_bytesToHex, extranonce2Bytes, List.length_map]
  have hheader : (jobHeader notify { state with extranonce2Counter := c }).isSome = (jobHeader notify state).isSome :=
    isSome_bind_congr (coinbaseBytes_isSome hlen (fun _ h => hex_bytesToHex h) fun _ h => hex_bytesToHex h)
      fun _ _ _ _ => headerBytes_isSome_congr notify _ _
  rw [hheader]

/-- `build_job` changes nothing in the session but the counter. -/
theorem buildJob_state (notify : StratumNotify) (state : StratumState) :
    ∃ c, (buildJob notify state).2 = { state with extranonce2Counter := c } := by
  rw [buildJob]
  split
  · exact ⟨state.extranonce2Counter, rfl⟩
  · rw [makeExtranonce2_eq]
    exact ⟨_, rfl⟩

/-- An attempt that the session is not ready for changes nothing. -/
theorem buildJob_blocked {state : StratumState} (h : (state.haveTarget && state.subscribed && state.authorized) = false)
    (notify : StratumNotify) : buildJob notify state = (none, state) := by
  rw [buildJob, if_pos]
  revert h
  cases state.haveTarget <;> cases state.subscribed <;> cases state.authorized <;> simp

/-! ## What a line stores -/

/-- The state with the subscription of another one. -/
def StratumState.subscribe (state sub : StratumState) : StratumState :=
  { state with
    extranonce1 := sub.extranonce1
    extranonce2Size := sub.extranonce2Size
    subscribed := true
    extranonce2Size_le := sub.extranonce2Size_le }

theorem parseSubscribe_eq (line : List Char) (state state' : StratumState) :
    parseSubscribeResponse line state = (parseSubscribeResponse line state').map state.subscribe := by
  unfold parseSubscribeResponse
  split
  · rfl
  · split
    · rfl
    · split
      · rfl
      · split
        · rfl
        · split <;> rfl

theorem parseAuthorize_eq (line : List Char) (state state' : StratumState) : parseAuthorizeResponse line state =
    (parseAuthorizeResponse line state').map fun _ => { state with authorized := true } := by
  unfold parseAuthorizeResponse
  split
  · rfl
  · split
    · rfl
    · split <;> rfl

/-- What a line brings: a notify, a target, a subscription, an authorization. -/
structure Stores where
  notify : Option StratumNotify
  target : Option (Words 8)
  subscription : Option StratumState
  authorizes : Bool
deriving DecidableEq

namespace Stores

def empty : Stores := ⟨none, none, none, false⟩

def ofLine (strtod : List Char → Rat) (line : List Char) : Stores :=
  if jsonMethodIs line "mining.notify".toList then { empty with notify := parseNotify line }
  else if jsonMethodIs line "mining.set_difficulty".toList then
    { empty with target := (parseDifficulty strtod line).map compactTargetForDifficulty }
  else if jsonMethodIs line "mining.set_target".toList then { empty with target := parseTarget line }
  else
    { empty with
      subscription := parseSubscribeResponse line StratumSession.fresh.state
      authorizes := (parseAuthorizeResponse line StratumSession.fresh.state).isSome }

end Stores

/-- A session with what a line brings. -/
def StratumSession.store (session : StratumSession) (m : Stores) : StratumSession :=
  let state := m.subscription.elim session.state session.state.subscribe
  let state := { state with authorized := state.authorized || m.authorizes }
  let state := m.target.elim state fun target => { state with target, haveTarget := true }
  ⟨state, m.notify.or session.pendingNotify, session.currentNotify⟩

section Handle

variable (strtod : List Char → Rat) (line : List Char) (session : StratumSession) (debug : StratumDebug)

@[simp] theorem store_empty : session.store Stores.empty = session := by
  simp [StratumSession.store, Stores.empty]

theorem handleResponse_store : (handleResponse line session debug).1 = session.store
    { Stores.empty with
      subscription := parseSubscribeResponse line StratumSession.fresh.state
      authorizes := (parseAuthorizeResponse line StratumSession.fresh.state).isSome } := by
  unfold handleResponse StratumSession.store
  rw [parseSubscribe_eq line session.state StratumSession.fresh.state]
  cases parseSubscribeResponse line StratumSession.fresh.state with
  | none =>
    simp only [Option.map_none]
    rw [parseAuthorize_eq line session.state StratumSession.fresh.state]
    cases parseAuthorizeResponse line StratumSession.fresh.state <;> simp [Stores.empty]
  | some sub =>
    simp only [Option.map_some]
    rw [parseAuthorize_eq line (session.state.subscribe sub) StratumSession.fresh.state]
    cases parseAuthorizeResponse line StratumSession.fresh.state <;> simp [Stores.empty]

/-- **A line stores what it brings.** -/
theorem handle_store : (handleStratumLine strtod line session debug).1 = session.store (Stores.ofLine strtod line) := by
  unfold handleStratumLine Stores.ofLine
  split
  · cases parseNotify line <;> simp [StratumSession.store, Stores.empty]
  · split
    · cases parseDifficulty strtod line <;> simp [StratumSession.store, Stores.empty]
    · split
      · cases parseTarget line <;> simp [StratumSession.store, Stores.empty]
      · exact handleResponse_store line session _

/-- Without an attempt to dispatch nothing has been stored. -/
theorem handle_idle (h : (handleStratumLine strtod line session debug).2.2 = false) :
    Stores.ofLine strtod line = Stores.empty := by
  unfold handleStratumLine at h
  unfold Stores.ofLine
  split at h
  · cases hn : parseNotify line <;> simp_all [Stores.empty]
  · split at h
    · cases hd : parseDifficulty strtod line <;> simp_all [Stores.empty]
    · split at h
      · cases ht : parseTarget line <;> simp_all [Stores.empty]
      · cases h

end Handle

/-! ## A connection -/

/-- What the client asks of the miner service. -/
inductive ServiceCall where
  | clear
  | submitJob (request : JobRequest)

def ServiceCall.request : ServiceCall → Option JobRequest
  | .clear => none
  | .submitJob request => some request

/-- The session and the calls of the service that an attempt makes. -/
abbrev Attempt := StratumSession × List ServiceCall

def tryDispatchPendingNotify (session : StratumSession) : Attempt :=
  match session.pendingNotify with
  | none => (session, [])
  | some notify =>
    let clear := if notify.cleanJobs then [ServiceCall.clear] else []
    match dispatchNotifyWork notify session with
    | (none, session) => (session, clear)
    | (some job, session) =>
      ({ session with pendingNotify := none, currentNotify := some notify },
        clear ++ [.submitJob ⟨job, notify.cleanJobs⟩])

/-- `refill_if_idle` when the miner does not run. -/
def refillIfIdle (session : StratumSession) : Attempt :=
  match session.currentNotify with
  | none => (session, [])
  | some notify =>
    match dispatchNotifyWork notify session with
    | (none, session) => (session, [])
    | (some job, session) => (session, [.submitJob ⟨job, false⟩])

/-- What happens on a connection: a line is handled, or the idle miner is given more work. -/
inductive SessionEvent where
  | line (line : List Char)
  | refill

/-- A connection: its session, the counters, and the calls of the service so far. -/
structure Connection where
  session : StratumSession
  debug : StratumDebug
  calls : List ServiceCall

namespace Connection

def opened : Connection := ⟨.fresh, .fresh, []⟩

/-- The jobs that have been submitted. -/
def requests (c : Connection) : List JobRequest := c.calls.filterMap ServiceCall.request

/-- An attempt in the session. -/
def attempt (c : Connection) (a : Attempt) : Connection := { c with session := a.1, calls := c.calls ++ a.2 }

/-- `handle_stratum_line`, with its dispatch. -/
def handle (strtod : List Char → Rat) (line : List Char) (c : Connection) : Connection :=
  let handled := handleStratumLine strtod line c.session c.debug
  let c := { c with session := handled.1, debug := handled.2.1 }
  if handled.2.2 then c.attempt (tryDispatchPendingNotify c.session) else c

def next (strtod : List Char → Rat) (c : Connection) : SessionEvent → Connection
  | .line line => c.handle strtod line
  | .refill => c.attempt (refillIfIdle c.session)

/-- The connection after the events. -/
def after (strtod : List Char → Rat) (events : List SessionEvent) : Connection := events.foldl (next strtod) opened

end Connection

/-- What the lines have brought. -/
def seen (strtod : List Char → Rat) (events : List SessionEvent) : List Stores :=
  events.filterMap fun
    | .line line => some (Stores.ofLine strtod line)
    | .refill => none

/-- The newest of what the lines have brought. -/
def latest {β : Type} (f : Stores → Option β) (l : List Stores) : Option β := l.reverse.findSome? f

/-- The three prerequisites: a subscription, an authorization, a target. -/
structure Ready (l : List Stores) (sub : StratumState) (target : Words 8) : Prop where
  subscribed : latest (·.subscription) l = some sub
  authorized : ∃ m ∈ l, m.authorizes = true
  target : latest (·.target) l = some target

/-- The state of a session that is ready. -/
def readyState (sub : StratumState) (target : Words 8) (counter : Word) : StratumState :=
  ⟨sub.extranonce1, sub.extranonce2Size, counter, target, true, true, true, sub.extranonce2Size_le⟩

/-! ## The task on the board makes the same calls -/

section Task

variable {α : Type} [Inhabited α] {host : HostCfg} {cfg : Rtl.MinerCfg}

/-- The board after the jobs have been submitted. -/
def submitAll (obs : Rtl.Engine → α) (view : α → Word) (calls : List ServiceCall) (board : Board α host cfg) :
    Board α host cfg :=
  (calls.filterMap ServiceCall.request).foldl (fun board request =>
    board.step obs view (.submitJob request.job request.cleanJob)) board

theorem dispatchPending_task (obs : Rtl.Engine → α) (view : α → Word) (s : Client α host cfg) :
    (s.dispatchPending obs view).session = (tryDispatchPendingNotify s.session).1 ∧
      (s.dispatchPending obs view).board = submitAll obs view (tryDispatchPendingNotify s.session).2 s.board := by
  unfold Client.dispatchPending tryDispatchPendingNotify
  cases s.session.pendingNotify with
  | none => exact ⟨rfl, rfl⟩
  | some notify =>
    simp only [Client.dispatch, dispatchNotifyWork]
    cases (buildJob notify s.session.state).1 <;> cases notify.cleanJobs <;> exact ⟨rfl, rfl⟩

theorem dispatchCurrent_task (obs : Rtl.Engine → α) (view : α → Word) (s : Client α host cfg) :
    (s.dispatchCurrent obs view).session = (refillIfIdle s.session).1 ∧
      (s.dispatchCurrent obs view).board = submitAll obs view (refillIfIdle s.session).2 s.board := by
  unfold Client.dispatchCurrent refillIfIdle
  cases s.session.currentNotify with
  | none => exact ⟨rfl, rfl⟩
  | some notify =>
    simp only [Client.dispatch, dispatchNotifyWork]
    cases (buildJob notify s.session.state).1 <;> exact ⟨rfl, rfl⟩

end Task

/-! ## What a session knows -/

theorem latest_snoc {β : Type} (f : Stores → Option β) (l : List Stores) (m : Stores) :
    latest f (l ++ [m]) = (f m).or (latest f l) := by
  rw [latest, latest, List.reverse_append, List.reverse_singleton, List.singleton_append, List.findSome?_cons]
  cases f m <;> rfl

/-- The state after what the lines have brought, but for the counter. -/
structure Knows (l : List Stores) (state : StratumState) : Prop where
  subscribed : state.subscribed = (latest (·.subscription) l).isSome
  extranonce1 : ∀ sub, latest (·.subscription) l = some sub →
    state.extranonce1 = sub.extranonce1 ∧ state.extranonce2Size = sub.extranonce2Size
  authorized : state.authorized = true ↔ ∃ m ∈ l, m.authorizes = true
  haveTarget : state.haveTarget = (latest (·.target) l).isSome
  target : ∀ target, latest (·.target) l = some target → state.target = target

theorem knows_fresh : Knows [] StratumSession.fresh.state where
  subscribed := rfl
  extranonce1 _ h := by cases h
  authorized := by simp [StratumSession.fresh]
  haveTarget := rfl
  target _ h := by cases h

/-- The counter is no part of what a session knows. -/
theorem Knows.counter {l : List Stores} {state : StratumState} (h : Knows l state) (c : Word) :
    Knows l { state with extranonce2Counter := c } :=
  ⟨h.subscribed, h.extranonce1, h.authorized, h.haveTarget, h.target⟩

theorem Knows.store {l : List Stores} {session : StratumSession} (h : Knows l session.state) (m : Stores) :
    Knows (l ++ [m]) (session.store m).state := by
  obtain ⟨notify, target, subscription, authorizes⟩ := m
  refine ⟨?_, ?_, ?_, ?_, ?_⟩
  · rw [latest_snoc]
    cases subscription <;> cases target <;> simp [StratumSession.store, StratumState.subscribe, h.subscribed]
  · intro sub
    rw [latest_snoc]
    cases subscription with
    | none => cases target <;> exact fun hsub => h.extranonce1 sub hsub
    | some sub' =>
      intro hsub
      obtain rfl : sub' = sub := Option.some.inj hsub
      cases target <;> exact ⟨rfl, rfl⟩
  · simp only [List.mem_append, List.mem_singleton, or_and_right, exists_or, exists_eq_left, ← h.authorized]
    cases subscription <;> cases target <;> simp [StratumSession.store, StratumState.subscribe]
  · rw [latest_snoc]
    cases subscription <;> cases target <;> simp [StratumSession.store, StratumState.subscribe, h.haveTarget]
  · intro target'
    rw [latest_snoc]
    cases target with
    | none => cases subscription <;> exact fun ht => h.target target' ht
    | some t =>
      intro ht
      obtain rfl : t = target' := Option.some.inj ht
      rfl

/-- A session that is ready is in the ready state. -/
theorem Knows.eq_readyState {l : List Stores} {state : StratumState} (h : Knows l state)
    {sub : StratumState} {target : Words 8} (hr : Ready l sub target) :
    state = readyState sub target state.extranonce2Counter := by
  have hsub : state.subscribed = true := by rw [h.subscribed, hr.subscribed]; rfl
  have hauth : state.authorized = true := h.authorized.2 hr.authorized
  have htarget : state.haveTarget = true := by rw [h.haveTarget, hr.target]; rfl
  obtain ⟨he, hs⟩ := h.extranonce1 sub hr.subscribed
  have ht := h.target target hr.target
  obtain ⟨extranonce1, size, counter, target', subscribed, authorized, haveTarget, hle⟩ := state
  simp only at *
  subst he hs ht hsub hauth htarget
  rfl

/-- A session whose three flags are set has seen the prerequisites. -/
theorem Knows.ready {l : List Stores} {state : StratumState} (h : Knows l state)
    (hflags : state.haveTarget ∧ state.subscribed ∧ state.authorized) : ∃ sub target, Ready l sub target := by
  obtain ⟨ht, hs, ha⟩ := hflags
  rw [h.haveTarget] at ht
  rw [h.subscribed] at hs
  obtain ⟨sub, hsub⟩ := Option.isSome_iff_exists.1 hs
  obtain ⟨target, htarget⟩ := Option.isSome_iff_exists.1 ht
  exact ⟨sub, target, hsub, h.authorized.1 ha, htarget⟩

/-! ## The newest notify -/

/-- The newest job comes from the notify. -/
def LastFrom (notify : StratumNotify) (requests : List JobRequest) : Prop :=
  ∃ request state, requests.getLast? = some request ∧ (buildJob notify state).1 = some request.job

/-- The notify has been dispatched. -/
structure Dispatched (notify : StratumNotify) (c : Connection) : Prop where
  pending : c.session.pendingNotify = none
  current : c.session.currentNotify = some notify
  last : LastFrom notify c.requests

/-- The newest notify is pending or has been dispatched. -/
structure Stored (l : List Stores) (c : Connection) : Prop where
  knows : Knows l c.session.state
  idle : latest (·.notify) l = none → c.session.pendingNotify = none ∧ c.session.currentNotify = none
  newest : ∀ notify, latest (·.notify) l = some notify → c.session.pendingNotify = some notify ∨ Dispatched notify c

/-- If it is pending it cannot be built. -/
structure Settled (l : List Stores) (c : Connection) : Prop extends Stored l c where
  blocked : ∀ notify, c.session.pendingNotify = some notify → (buildJob notify c.session.state).1 = none

section Attempt

variable {l : List Stores} {c : Connection} {notify : StratumNotify} {job : MinerJob}

theorem tryDispatch_none (h : c.session.pendingNotify = none) :
    c.attempt (tryDispatchPendingNotify c.session) = c := by
  rw [tryDispatchPendingNotify, h]
  simp [Connection.attempt]

theorem requests_attempt (c : Connection) (a : Attempt) :
    (c.attempt a).requests = c.requests ++ a.2.filterMap ServiceCall.request := by
  rw [Connection.requests, Connection.attempt, List.filterMap_append]
  rfl

theorem dispatchNotifyWork_eq {o : Option MinerJob} (h : (buildJob notify c.session.state).1 = o) :
    dispatchNotifyWork notify c.session = (o, { c.session with state := (buildJob notify c.session.state).2 }) := by
  rw [dispatchNotifyWork, h]

/-- A notify that cannot be built stays pending. -/
theorem tryDispatch_fails (h : c.session.pendingNotify = some notify) (hb : (buildJob notify c.session.state).1 = none) :
    let c' := c.attempt (tryDispatchPendingNotify c.session)
    c'.session = { c.session with state := (buildJob notify c.session.state).2 } ∧ c'.requests = c.requests := by
  intro c'
  have hd := dispatchNotifyWork_eq hb
  refine ⟨?_, ?_⟩
  · simp only [c', Connection.attempt, tryDispatchPendingNotify, h, hd]
  · rw [requests_attempt, tryDispatchPendingNotify, h]
    simp only [hd]
    cases notify.cleanJobs <;> simp [List.filterMap_cons, ServiceCall.request]

/-- A notify that can be built becomes the current one, and its job is submitted. -/
theorem tryDispatch_succeeds (h : c.session.pendingNotify = some notify)
    (hb : (buildJob notify c.session.state).1 = some job) :
    let c' := c.attempt (tryDispatchPendingNotify c.session)
    c'.session = ⟨(buildJob notify c.session.state).2, none, some notify⟩ ∧
      c'.requests = c.requests ++ [⟨job, notify.cleanJobs⟩] := by
  intro c'
  have hd := dispatchNotifyWork_eq hb
  refine ⟨?_, ?_⟩
  · simp only [c', Connection.attempt, tryDispatchPendingNotify, h, hd]
  · rw [requests_attempt, tryDispatchPendingNotify, h]
    simp only [hd]
    cases notify.cleanJobs <;> simp [List.filterMap_cons, ServiceCall.request]

theorem refill_none (h : c.session.currentNotify = none) : c.attempt (refillIfIdle c.session) = c := by
  rw [refillIfIdle, h]
  simp [Connection.attempt]

theorem refill_fails (h : c.session.currentNotify = some notify) (hb : (buildJob notify c.session.state).1 = none) :
    let c' := c.attempt (refillIfIdle c.session)
    c'.session = { c.session with state := (buildJob notify c.session.state).2 } ∧ c'.requests = c.requests := by
  intro c'
  have hd := dispatchNotifyWork_eq hb
  refine ⟨?_, ?_⟩
  · simp only [c', Connection.attempt, refillIfIdle, h, hd]
  · rw [requests_attempt, refillIfIdle, h]
    simp [hd]

theorem refill_succeeds (h : c.session.currentNotify = some notify)
    (hb : (buildJob notify c.session.state).1 = some job) :
    let c' := c.attempt (refillIfIdle c.session)
    c'.session = { c.session with state := (buildJob notify c.session.state).2 } ∧
      c'.requests = c.requests ++ [⟨job, false⟩] := by
  intro c'
  have hd := dispatchNotifyWork_eq hb
  refine ⟨?_, ?_⟩
  · simp only [c', Connection.attempt, refillIfIdle, h, hd]
  · rw [requests_attempt, refillIfIdle, h]
    simp [hd, ServiceCall.request]

theorem Knows.buildJob (h : Knows l c.session.state) (notify : StratumNotify) :
    Knows l (Sw.buildJob notify c.session.state).2 := by
  obtain ⟨k, hk⟩ := buildJob_state notify c.session.state
  rw [hk]
  exact h.counter k

theorem buildJob_none_again (notify' : StratumNotify) (h : (buildJob notify c.session.state).1 = none) :
    (buildJob notify (buildJob notify' c.session.state).2).1 = none := by
  obtain ⟨k, hk⟩ := buildJob_state notify' c.session.state
  rw [hk, ← Option.not_isSome_iff_eq_none, buildJob_isSome_counter, h]
  decide

theorem lastFrom_snoc {requests : List JobRequest} {state : StratumState} {clean : Bool}
    (h : (buildJob notify state).1 = some job) : LastFrom notify (requests ++ [⟨job, clean⟩]) :=
  ⟨⟨job, clean⟩, state, by simp, h⟩

/-- **An attempt settles the newest notify.** -/
theorem Stored.attempt (h : Stored l c) : Settled l (c.attempt (tryDispatchPendingNotify c.session)) := by
  cases hp : c.session.pendingNotify with
  | none =>
    rw [tryDispatch_none hp]
    exact ⟨h, fun notify hn => by rw [hp] at hn; cases hn⟩
  | some notify =>
    cases hl : latest (·.notify) l with
    | none =>
      have hidle := (h.idle hl).1
      rw [hp] at hidle
      cases hidle
    | some notify' =>
      obtain hn | hn := h.newest notify' hl
      · obtain rfl : notify = notify' := Option.some.inj (hp.symm.trans hn)
        cases hb : (buildJob notify c.session.state).1 with
        | none =>
          obtain ⟨hs, hr⟩ := tryDispatch_fails hp hb
          refine ⟨⟨?_, fun hno => ?_, fun notify' hl' => ?_⟩, fun notify' hn' => ?_⟩
          · rw [hs]
            exact h.knows.buildJob notify
          · rw [hl] at hno
            cases hno
          · rw [hs]
            exact .inl (hp.trans (hl.symm.trans hl'))
          · rw [hs] at hn' ⊢
            obtain rfl : notify = notify' := Option.some.inj (hp.symm.trans hn')
            exact buildJob_none_again notify hb
        | some job =>
          obtain ⟨hs, hr⟩ := tryDispatch_succeeds hp hb
          refine ⟨⟨?_, fun hno => ?_, fun notify' hl' => .inr ?_⟩, fun notify' hn' => ?_⟩
          · rw [hs]
            exact h.knows.buildJob notify
          · rw [hl] at hno
            cases hno
          · obtain rfl : notify = notify' := Option.some.inj (hl.symm.trans hl')
            refine ⟨by rw [hs], by rw [hs], ?_⟩
            rw [hr]
            exact lastFrom_snoc hb
          · rw [hs] at hn'
            cases hn'
      · rw [hn.pending] at hp
        cases hp

end Attempt

/-! ## A run -/

section Run

variable {l : List Stores} {c : Connection} (strtod : List Char → Rat)

/-- The connection with what a line brings, before the dispatch. -/
def Connection.received (c : Connection) (line : List Char) : Connection :=
  let handled := handleStratumLine strtod line c.session c.debug
  { c with session := handled.1, debug := handled.2.1 }

theorem session_received (line : List Char) :
    (c.received strtod line).session = c.session.store (Stores.ofLine strtod line) :=
  handle_store strtod line c.session c.debug

theorem Dispatched.congr {notify : StratumNotify} {c' : Connection} (h : Dispatched notify c)
    (hp : c'.session.pendingNotify = c.session.pendingNotify) (hc : c'.session.currentNotify = c.session.currentNotify)
    (hr : c'.requests = c.requests) : Dispatched notify c' :=
  ⟨hp.trans h.pending, hc.trans h.current, hr.symm ▸ h.last⟩

theorem Stored.received (h : Stored l c) (line : List Char) :
    Stored (l ++ [Stores.ofLine strtod line]) (c.received strtod line) := by
  have hs := session_received (c := c) strtod line
  refine ⟨?_, fun hl => ?_, fun notify hl => ?_⟩
  · rw [hs]
    exact h.knows.store _
  · rw [latest_snoc, Option.or_eq_none_iff] at hl
    rw [hs]
    simp only [StratumSession.store, hl.1]
    exact h.idle hl.2
  · rw [latest_snoc] at hl
    cases hn : (Stores.ofLine strtod line).notify with
    | none =>
      rw [hn] at hl
      have hp : (c.received strtod line).session.pendingNotify = c.session.pendingNotify := by
        rw [hs]
        simp only [StratumSession.store, hn]
        rfl
      have hc : (c.received strtod line).session.currentNotify = c.session.currentNotify := by
        rw [hs]
        rfl
      obtain hq | hq := h.newest notify hl
      · exact .inl (hp.trans hq)
      · exact .inr (hq.congr hp hc rfl)
    | some notify' =>
      rw [hn] at hl
      refine .inl ?_
      rw [hs]
      simp only [StratumSession.store, hn]
      exact hl

/-- A line that brings nothing changes nothing. -/
theorem received_idle {line : List Char} (h : (handleStratumLine strtod line c.session c.debug).2.2 = false) :
    (c.received strtod line).session = c.session := by
  rw [session_received, handle_idle strtod line c.session c.debug h, store_empty]

theorem Settled.handle (h : Settled l c) (line : List Char) :
    Settled (l ++ [Stores.ofLine strtod line]) (c.handle strtod line) := by
  have hst := h.toStored.received strtod line
  cases hidle : (handleStratumLine strtod line c.session c.debug).2.2 with
  | true =>
    have he : c.handle strtod line =
        (c.received strtod line).attempt (tryDispatchPendingNotify (c.received strtod line).session) := by
      simp only [Connection.handle, hidle]
      rfl
    rw [he]
    exact hst.attempt
  | false =>
    have he : c.handle strtod line = c.received strtod line := by
      simp only [Connection.handle, hidle]
      rfl
    rw [he]
    refine ⟨hst, fun notify hn => ?_⟩
    rw [received_idle strtod hidle] at hn ⊢
    exact h.blocked notify hn

/-- More work for the current notify leaves the newest one alone. -/
theorem Settled.refill (h : Settled l c) : Settled l (c.attempt (refillIfIdle c.session)) := by
  cases hc : c.session.currentNotify with
  | none =>
    rw [refill_none hc]
    exact h
  | some current =>
    have hnew : ∀ {c' : Connection},
        c'.session = { c.session with state := (buildJob current c.session.state).2 } →
        (∀ notify, Dispatched notify c → LastFrom notify c'.requests) → Settled l c' := fun {c'} hs hr => by
      refine ⟨⟨?_, fun hl => ?_, fun notify hl => ?_⟩, fun notify hn => ?_⟩
      · rw [hs]
        exact h.knows.buildJob current
      · rw [hs]
        exact h.idle hl
      · obtain hp | hd := h.newest notify hl
        · exact .inl (by rw [hs]; exact hp)
        · exact .inr ⟨by rw [hs]; exact hd.pending, by rw [hs]; exact hd.current, hr notify hd⟩
      · rw [hs] at hn ⊢
        exact buildJob_none_again current (h.blocked notify hn)
    cases hb : (buildJob current c.session.state).1 with
    | none =>
      obtain ⟨hs, hr⟩ := refill_fails hc hb
      exact hnew hs fun notify hd => hr.symm ▸ hd.last
    | some job =>
      obtain ⟨hs, hr⟩ := refill_succeeds hc hb
      refine hnew hs fun notify hd => ?_
      obtain rfl : current = notify := Option.some.inj (hc.symm.trans hd.current)
      rw [hr]
      exact lastFrom_snoc hb

theorem settled_opened : Settled [] Connection.opened where
  knows := knows_fresh
  idle _ := ⟨rfl, rfl⟩
  newest _ h := by cases h
  blocked _ h := by cases h

/-- **After every event the newest notify has been dispatched, or it cannot be built.** -/
theorem settled_after (events : List SessionEvent) : Settled (seen strtod events) (Connection.after strtod events) := by
  induction events using List.reverseRecOn with
  | nil => exact settled_opened
  | append_singleton events event ih =>
    rw [Connection.after, List.foldl_append, List.foldl_cons, List.foldl_nil, seen, List.filterMap_append]
    cases event with
    | line line => exact ih.handle strtod line
    | refill =>
      rw [List.filterMap_cons_none rfl, List.filterMap_nil, List.append_nil]
      exact ih.refill

/-- A job for a session that is ready, with its newest extranonce1 and target. -/
def JobOf (l : List Stores) (request : JobRequest) : Prop :=
  ∃ sub target notify counter, Ready l sub target ∧
    (buildJob notify (readyState sub target counter)).1 = some request.job ∧ request.job.target = target

theorem Knows.jobOf {state : StratumState} {notify : StratumNotify} {job : MinerJob} (h : Knows l state)
    (hb : (Sw.buildJob notify state).1 = some job) (clean : Bool) : JobOf l ⟨job, clean⟩ := by
  obtain ⟨ht, hs, ha, -⟩ := buildJob_isSome_iff.1 (Option.isSome_of_mem hb)
  obtain ⟨sub, target, hr⟩ := h.ready ⟨ht, hs, ha⟩
  rw [h.eq_readyState hr] at hb
  obtain ⟨header, -, rfl⟩ := buildJob_some hb
  exact ⟨sub, target, notify, _, hr, hb, rfl⟩

/-- An event submits jobs of sessions that are ready. -/
theorem Knows.tryDispatch (h : Knows l c.session.state) :
    ∃ new, (c.attempt (tryDispatchPendingNotify c.session)).requests = c.requests ++ new ∧
      ∀ request ∈ new, JobOf l request := by
  cases hp : c.session.pendingNotify with
  | none =>
    rw [tryDispatch_none hp]
    exact ⟨[], by simp, by simp⟩
  | some notify =>
    cases hb : (Sw.buildJob notify c.session.state).1 with
    | none => exact ⟨[], by rw [(tryDispatch_fails hp hb).2, List.append_nil], by simp⟩
    | some job =>
      refine ⟨_, (tryDispatch_succeeds hp hb).2, fun request hr => ?_⟩
      rw [List.mem_singleton.1 hr]
      exact h.jobOf hb _

theorem Knows.refill (h : Knows l c.session.state) :
    ∃ new, (c.attempt (refillIfIdle c.session)).requests = c.requests ++ new ∧ ∀ request ∈ new, JobOf l request := by
  cases hc : c.session.currentNotify with
  | none =>
    rw [refill_none hc]
    exact ⟨[], by simp, by simp⟩
  | some notify =>
    cases hb : (Sw.buildJob notify c.session.state).1 with
    | none => exact ⟨[], by rw [(refill_fails hc hb).2, List.append_nil], by simp⟩
    | some job =>
      refine ⟨_, (refill_succeeds hc hb).2, fun request hr => ?_⟩
      rw [List.mem_singleton.1 hr]
      exact h.jobOf hb _

theorem after_snoc (events : List SessionEvent) (event : SessionEvent) :
    Connection.after strtod (events ++ [event]) = (Connection.after strtod events).next strtod event := by
  rw [Connection.after, List.foldl_append]
  rfl

theorem seen_snoc_line (events : List SessionEvent) (line : List Char) :
    seen strtod (events ++ [.line line]) = seen strtod events ++ [Stores.ofLine strtod line] := by
  rw [seen, List.filterMap_append]
  rfl

theorem seen_snoc_refill (events : List SessionEvent) : seen strtod (events ++ [.refill]) = seen strtod events := by
  rw [seen, List.filterMap_append, List.filterMap_cons_none rfl, List.filterMap_nil, List.append_nil]
  rfl

/-- **Every job that an event submits is one for what the lines have brought by then.** -/
theorem requests_after (events : List SessionEvent) (event : SessionEvent) : ∃ new,
    (Connection.after strtod (events ++ [event])).requests = (Connection.after strtod events).requests ++ new ∧
      ∀ request ∈ new, JobOf (seen strtod (events ++ [event])) request := by
  have h := settled_after strtod events
  rw [after_snoc]
  cases event with
  | line line =>
    rw [seen_snoc_line]
    have hst := h.toStored.received strtod line
    simp only [Connection.next, Connection.handle]
    split
    · exact hst.knows.tryDispatch
    · exact ⟨[], (List.append_nil _).symm, by simp⟩
  | refill =>
    rw [seen_snoc_refill]
    exact h.knows.refill

end Run

/-! ## The four messages in any order -/

section Order

variable {l l' : List Stores} {c : Connection} {session : StratumSession} (strtod : List Char → Rat)

/-- Something is missing for a dispatch. -/
def Blocked (session : StratumSession) : Prop :=
  session.pendingNotify = none ∨
    (session.state.haveTarget && session.state.subscribed && session.state.authorized) = false

/-- What has been brought stays. -/
theorem Blocked.of_store {m : Stores} (h : Blocked (session.store m)) : Blocked session := by
  obtain ⟨notify, target, subscription, authorizes⟩ := m
  obtain h | h := h
  · exact .inl (Option.or_eq_none_iff.1 h).2
  · refine .inr ?_
    revert h
    cases subscription <;> cases target <;>
      simp only [StratumSession.store, StratumState.subscribe, Option.elim, Bool.and_eq_false_imp] <;>
      simp <;> grind

/-- A dispatch that is blocked changes nothing and submits nothing. -/
theorem Blocked.attempt (h : Blocked c.session) : (c.attempt (tryDispatchPendingNotify c.session)).session = c.session ∧
    (c.attempt (tryDispatchPendingNotify c.session)).requests = c.requests := by
  cases hp : c.session.pendingNotify with
  | none =>
    rw [tryDispatch_none hp]
    exact ⟨rfl, rfl⟩
  | some notify =>
    obtain h | h := h
    · rw [hp] at h
      cases h
    · have hb := buildJob_blocked h notify
      obtain ⟨hs, hr⟩ := tryDispatch_fails hp (by rw [hb])
      refine ⟨hs.trans ?_, hr⟩
      rw [hb]

theorem Blocked.handle {line : List Char} (h : Blocked (c.session.store (Stores.ofLine strtod line))) :
    (c.handle strtod line).session = c.session.store (Stores.ofLine strtod line) ∧
      (c.handle strtod line).requests = c.requests := by
  rw [← session_received] at h ⊢
  rw [Connection.handle]
  split
  · exact h.attempt
  · exact ⟨rfl, rfl⟩

/-- The connection after the lines alone. -/
def afterLines (lines : List (List Char)) : Connection := Connection.after strtod (lines.map .line)

theorem afterLines_snoc (lines : List (List Char)) (line : List Char) :
    afterLines strtod (lines ++ [line]) = (afterLines strtod lines).handle strtod line := by
  rw [afterLines, List.map_append, List.map_singleton, after_snoc]
  rfl

/-- What the lines have brought, stored in order. -/
def stored (lines : List (List Char)) : StratumSession :=
  (lines.map (Stores.ofLine strtod)).foldl StratumSession.store .fresh

theorem stored_snoc (lines : List (List Char)) (line : List Char) :
    stored strtod (lines ++ [line]) = (stored strtod lines).store (Stores.ofLine strtod line) := by
  rw [stored, List.map_append, List.foldl_append]
  rfl

/-- As long as something is missing lines are stored and nothing is submitted. -/
theorem Blocked.afterLines (lines : List (List Char)) (h : Blocked (stored strtod lines)) :
    (Sw.afterLines strtod lines).session = stored strtod lines ∧ (Sw.afterLines strtod lines).requests = [] := by
  induction lines using List.reverseRecOn with
  | nil => exact ⟨rfl, rfl⟩
  | append_singleton lines line ih =>
    rw [stored_snoc] at h
    obtain ⟨hs, hr⟩ := ih h.of_store
    rw [← hs] at h
    rw [afterLines_snoc, stored_snoc, ← hs]
    exact ⟨(h.handle strtod).1, (h.handle strtod).2.trans hr⟩

/-- Lines that bring one thing each: a subscription, an authorization, a target and a notify. -/
structure FourLines (lines : Fin 4 → List Char) (sub : StratumState) (target : Words 8) (notify : StratumNotify) :
    Prop where
  subscribe : Stores.ofLine strtod (lines 0) = { Stores.empty with subscription := some sub }
  authorize : Stores.ofLine strtod (lines 1) = { Stores.empty with authorizes := true }
  target : Stores.ofLine strtod (lines 2) = { Stores.empty with target := some target }
  notify : Stores.ofLine strtod (lines 3) = { Stores.empty with notify := some notify }

variable {strtod} {lines : Fin 4 → List Char} {sub : StratumState} {target : Words 8} {notify : StratumNotify}

/-- What the four lines bring. -/
def fourStores (sub : StratumState) (target : Words 8) (notify : StratumNotify) : List Stores :=
  [{ Stores.empty with subscription := some sub }, { Stores.empty with authorizes := true },
    { Stores.empty with target := some target }, { Stores.empty with notify := some notify }]

theorem FourLines.map_ofLine (h : FourLines strtod lines sub target notify) :
    [lines 0, lines 1, lines 2, lines 3].map (Stores.ofLine strtod) = fourStores sub target notify := by
  simp only [List.map_cons, List.map_nil, h.subscribe, h.authorize, h.target, h.notify, fourStores]

/-- It can be stored in any order. -/
theorem stores_commute {x y : Stores} (session : StratumSession) (hx : x ∈ fourStores sub target notify)
    (hy : y ∈ fourStores sub target notify) : (session.store x).store y = (session.store y).store x := by
  simp only [fourStores, List.mem_cons, List.not_mem_nil, or_false] at hx hy
  rcases hx with rfl | rfl | rfl | rfl <;> rcases hy with rfl | rfl | rfl | rfl <;>
    simp [StratumSession.store, StratumState.subscribe, Stores.empty]

theorem foldl_store_perm (session : StratumSession) (hsub : l' ⊆ fourStores sub target notify) (h : l.Perm l') :
    l.foldl StratumSession.store session = l'.foldl StratumSession.store session :=
  h.foldl_eq' (fun _ hx _ hy session => stores_commute session (hsub (h.subset hx)) (hsub (h.subset hy))) session

/-- With one of the four missing the dispatch is blocked. -/
theorem blocked_of_perm {x : Stores} (h : (l ++ [x]).Perm (fourStores sub target notify)) :
    Blocked (l.foldl StratumSession.store .fresh) := by
  have hx : x ∈ fourStores sub target notify := h.subset (by simp)
  have herase : l.Perm ((fourStores sub target notify).erase x) := by
    have hcons : (x :: l).Perm (fourStores sub target notify) := (List.perm_append_singleton x l).symm.trans h
    exact List.cons_perm_iff_perm_erase.1 hcons |>.2
  rw [foldl_store_perm .fresh (List.erase_subset) herase]
  simp only [fourStores, List.mem_cons, List.not_mem_nil, or_false] at hx
  rcases hx with rfl | rfl | rfl | rfl <;>
    simp [Blocked, fourStores, Stores.empty, StratumSession.store, StratumState.subscribe,
      StratumSession.fresh]

/-- **The four lines lead to one job and to one session, in any order.** -/
theorem FourLines.any_order (h : FourLines strtod lines sub target notify) {order : List (List Char)}
    (ho : order.Perm [lines 0, lines 1, lines 2, lines 3]) {job : MinerJob}
    (hjob : (buildJob notify (readyState sub target 0)).1 = some job) :
    (Sw.afterLines strtod order).requests = [⟨job, notify.cleanJobs⟩] ∧
      (Sw.afterLines strtod order).session = ⟨readyState sub target 1, none, some notify⟩ := by
  have hperm := ho.map (Stores.ofLine strtod)
  rw [h.map_ofLine] at hperm
  obtain rfl | ⟨order, line, rfl⟩ := order.eq_nil_or_concat
  · exact absurd ho.length_eq (by simp)
  rw [List.concat_eq_append] at *
  have hblocked : Blocked (stored strtod order) := by
    rw [List.map_append] at hperm
    exact blocked_of_perm hperm
  obtain ⟨hs, hr⟩ := hblocked.afterLines strtod
  have hstored : (Sw.afterLines strtod order).session.store (Stores.ofLine strtod line) =
      ⟨readyState sub target 0, some notify, none⟩ := by
    rw [hs, ← stored_snoc, stored, foldl_store_perm .fresh (List.Subset.refl _) hperm]
    rfl
  have hattempt : (handleStratumLine strtod line (Sw.afterLines strtod order).session
      (Sw.afterLines strtod order).debug).2.2 = true := by
    refine eq_true_of_ne_false fun hidle => ?_
    have hx : Stores.ofLine strtod line ∈ fourStores sub target notify := hperm.subset (by simp)
    rw [handle_idle _ _ _ _ hidle] at hx
    simp [fourStores, Stores.empty] at hx
  rw [← session_received] at hstored
  have hhandle : (Sw.afterLines strtod order).handle strtod line = ((Sw.afterLines strtod order).received strtod line).attempt
      (tryDispatchPendingNotify ((Sw.afterLines strtod order).received strtod line).session) := by
    simp only [Connection.handle, hattempt]
    rfl
  obtain ⟨hs', hr'⟩ := @tryDispatch_succeeds ((Sw.afterLines strtod order).received strtod line) notify job
    (by rw [hstored]) (by rw [hstored]; exact hjob)
  rw [afterLines_snoc, hhandle]
  refine ⟨hr'.trans ?_, hs'.trans ?_⟩
  · show (Sw.afterLines strtod order).requests ++ _ = _
    rw [hr, List.nil_append]
  · rw [hstored]
    simp only [buildJob, readyState, makeExtranonce2_eq]
    rfl

end Order

/-- **Work dispatch over any sequence of lines.** Every job that an event submits has the newest target and extranonce1
of a session that has been subscribed, authorized and given a target. After every event the newest notify, if it can be
built, is not pending, and the last job comes from it. The four lines that start a session lead to the same job in any
order. -/
theorem dispatch_any_order (strtod : List Char → Rat) :
    (∀ (events : List SessionEvent) (event : SessionEvent), ∃ new,
      (Connection.after strtod (events ++ [event])).requests = (Connection.after strtod events).requests ++ new ∧
        ∀ request ∈ new, JobOf (seen strtod (events ++ [event])) request) ∧
    (∀ (events : List SessionEvent) (sub : StratumState) (target : Words 8) (notify : StratumNotify) (counter : Word),
      Ready (seen strtod events) sub target → latest (·.notify) (seen strtod events) = some notify →
      (buildJob notify (readyState sub target counter)).1.isSome →
      (Connection.after strtod events).session.pendingNotify = none ∧
        LastFrom notify (Connection.after strtod events).requests) ∧
    (∀ (lines : Fin 4 → List Char) (sub : StratumState) (target : Words 8) (notify : StratumNotify) (job : MinerJob)
      (order : List (List Char)), FourLines strtod lines sub target notify →
      (buildJob notify (readyState sub target 0)).1 = some job → order.Perm [lines 0, lines 1, lines 2, lines 3] →
      (afterLines strtod order).requests = [⟨job, notify.cleanJobs⟩] ∧
        (afterLines strtod order).session = ⟨readyState sub target 1, none, some notify⟩) := by
  refine ⟨requests_after strtod, fun events sub target notify counter hr hl hb => ?_,
    fun lines sub target notify job order h hjob ho => h.any_order ho hjob⟩
  have h := settled_after strtod events
  obtain hp | hd := h.newest notify hl
  · have hnone := h.blocked notify hp
    rw [h.knows.eq_readyState hr] at hnone
    have hsome := (buildJob_isSome_counter notify (readyState sub target counter)
      (Connection.after strtod events).session.state.extranonce2Counter).trans hb
    rw [show ({ readyState sub target counter with
        extranonce2Counter := (Connection.after strtod events).session.state.extranonce2Counter } : StratumState) =
      readyState sub target (Connection.after strtod events).session.state.extranonce2Counter from rfl, hnone] at hsome
    cases hsome
  · exact ⟨hd.pending, hd.last⟩

/-- The lines of the mock pool. -/
def poolLines : Fin 4 → List Char :=
  ![Client.subscribeResponse, Client.authorizeResponse, Client.setTarget, Client.notifyLine]

theorem poolLines_four :
    FourLines (fun _ => 1) poolLines Client.subscribed.state Client.targeted.state.target Client.poolNotify := by
  refine ⟨?_, ?_, ?_, ?_⟩
  · show Stores.ofLine _ Client.subscribeResponse = _
    unfold Client.subscribeResponse
    dsimp only [String.reduceToList]
    decide +kernel
  · show Stores.ofLine _ Client.authorizeResponse = _
    unfold Client.authorizeResponse
    dsimp only [String.reduceToList]
    decide +kernel
  · show Stores.ofLine _ Client.setTarget = _
    unfold Client.setTarget
    dsimp only [String.reduceToList]
    decide +kernel
  · show Stores.ofLine _ Client.notifyLine = _
    unfold Client.notifyLine
    dsimp only [String.reduceToList]
    decide +kernel

/-- The notify that comes first waits for the other three lines. -/
theorem poolLines_notify_first : ∃ job,
    (afterLines (fun _ => 1) [poolLines 3, poolLines 2, poolLines 1, poolLines 0]).requests = [⟨job, false⟩] := by
  obtain ⟨job, hjob⟩ := Client.first_job
  refine ⟨job, ((dispatch_any_order fun _ => 1).2.2 poolLines _ _ _ job _ poolLines_four hjob ?_).1⟩
  exact List.reverse_perm [poolLines 0, poolLines 1, poolLines 2, poolLines 3]

end Vek280Miner.Sw
