import Vek280Miner.Lib.Events
import Vek280Miner.Board.SessionInvariant

/-!
# The messages of the service

Jobs go from the client to the worker through a mailbox that is overwritten, and results come back through a queue of
eight. One action puts in or takes out at most one message of each kind (`Board.Moves`); from that, what both tasks have
seen after any run, whatever the interrupt handler, the console, the pool and the clock do meanwhile.
-/

namespace Vek280Miner

open Rtl Sw
open Clocked (run run_succ events events_succ)

variable {α : Type} {host : HostCfg} {cfg : MinerCfg}

/-! ## Messages -/

/-- Whether the worker has a result that it has acknowledged and not put on the queue. -/
def Pc.unsent {K : Nat} : Pc α K → Nat
  | .sendEvent _ _ => 1
  | _ => 0

/-- Whether the active job is that of the last request that the worker has taken. -/
def Pc.settled {K : Nat} : Pc α K → Bool
  | .requestStatus _ _ _ | .finishRequest _ _ | .takeJob _ => false
  | _ => true

namespace Board

/-- The request that an action puts into the mailbox. -/
def submitted (a : Action host.instances) (s : Board α host cfg) : Option JobRequest :=
  match a, s.isr with
  | .submitJob job cleanJob, none => some ⟨job, cleanJob⟩
  | _, _ => none

/-- The request that the worker takes out of it. -/
def received (a : Action host.instances) (s : Board α host cfg) : Option JobRequest :=
  match a, s.isr, s.pc with
  | .worker _, none, .receive => s.gJobQueue
  | _, _, _ => none

/-- The event that is taken from the queue. -/
def popped (a : Action host.instances) (s : Board α host cfg) : Option (ResultEvent α) :=
  match a, s.isr with
  | .takeResult, none => s.gResultQueue.head?
  | _, _ => none

/-- The result register that the worker acknowledges. -/
def acknowledged (a : Action host.instances) (s : Board α host cfg) : Option (Fin host.instances × MinerResult) :=
  match a, s.isr, s.pc with
  | .worker _, none, .resultClear inst result _ => some (inst, result)
  | _, _, _ => none

/-- What an action does to the requests. -/
structure MovesRequests (a : Action host.instances) (s s' : Board α host cfg) : Prop where
  mailbox : s'.gJobQueue = (s.submitted a).or (if (s.received a).isSome then none else s.gJobQueue)
  queued : s'.gStats.jobsQueued = s.gStats.jobsQueued + (s.submitted a).toList.length
  started : s'.gStats.jobsStarted + s'.pc.request.toList.length =
    s.gStats.jobsStarted + s.pc.request.toList.length + (s.received a).toList.length
  request : ∀ r, s'.pc.request = some r → s.received a = some r ∨ s.received a = none ∧ s.pc.request = some r
  active : s'.pc.settled = true → s.received a = none ∧
    (s'.gActiveJob = s.gActiveJob ∧ s'.gHaveActiveJob = s.gHaveActiveJob ∧ s.pc.settled = true ∨
      ∃ r, s.pc.request = some r ∧ s'.gActiveJob = r.job)

/-- What an action does to the results. -/
structure MovesResults (a : Action host.instances) (s s' : Board α host cfg) : Prop where
  queue : ∃ l, s'.sent = s.sent ++ l ∧ s.gResultQueue ++ l = (s.popped a).toList ++ s'.gResultQueue
  counted : s'.gStats.resultCount + s.gStats.resultQueueDrops + s.sent.length =
    s.gStats.resultCount + s'.gStats.resultQueueDrops + s'.sent.length
  acknowledged : s'.gStats.resultCount + s'.pc.unsent =
    s.gStats.resultCount + s.pc.unsent + (s.acknowledged a).toList.length
  room : s.gResultQueue.length ≤ 8 → s'.gResultQueue.length ≤ 8
  dropped : s'.gStats.resultQueueDrops = s.gStats.resultQueueDrops ∨ 8 ≤ s.gResultQueue.length

/-- What an action does to the messages. -/
structure Moves (a : Action host.instances) (s s' : Board α host cfg) : Prop extends
  MovesRequests a s s', MovesResults a s s'

section Moves

variable {s s' : Board α host cfg} {a : Action host.instances}

/-- No request moves. -/
theorem SameMessages.requests (h : SameMessages s s') (hsub : s.submitted a = none) (hrec : s.received a = none)
    (hreq : s'.pc.request = s.pc.request) (hset : s'.pc.settled = s.pc.settled) : MovesRequests a s s' := by
  have hcounters := h.counters
  simp only [Board.counters, Prod.mk.injEq] at hcounters
  obtain ⟨hqueued, hstarted, -⟩ := hcounters
  constructor
  case mailbox => rw [hsub, hrec, h.mailbox]; rfl
  case queued => rw [hsub, hqueued]; rfl
  case started => rw [hrec, hstarted, hreq]; rfl
  case request => exact fun r hr => .inr ⟨hrec, hreq.symm.trans hr⟩
  case active => exact fun hs => ⟨hrec, .inl ⟨h.active.1, h.active.2, hset.symm.trans hs⟩⟩

/-- No event moves. -/
theorem SameMessages.results (h : SameMessages s s') (hpop : s.popped a = none)
    (hack : s'.pc.unsent = s.pc.unsent + (s.acknowledged a).toList.length) : MovesResults a s s' := by
  have hcounters := h.counters
  simp only [Board.counters, Prod.mk.injEq] at hcounters
  obtain ⟨-, -, hcount, hdrops⟩ := hcounters
  constructor
  case queue => exact ⟨[], by rw [h.events.2, List.append_nil], by rw [hpop, h.events.1, List.append_nil]; rfl⟩
  case counted => rw [hcount, hdrops, h.events.2]
  case acknowledged => rw [hcount, hack, Nat.add_assoc]
  case room => rw [h.events.1]; exact id
  case dropped => exact .inl hdrops

/-- Nothing moves. -/
theorem SameMessages.moves (h : SameMessages s s') (hsub : s.submitted a = none) (hrec : s.received a = none)
    (hpop : s.popped a = none) (hack : s.acknowledged a = none)
    (hp : s'.pc.request = s.pc.request ∧ s'.pc.unsent = s.pc.unsent ∧ s'.pc.settled = s.pc.settled) : Moves a s s' where
  toMovesRequests := h.requests hsub hrec hp.1 hp.2.2
  toMovesResults := h.results hpop (by rw [hack]; exact hp.2.1)

/-- Where no request and no event moves, only an acknowledgement counts. -/
theorem Leads.still {view : α → Word} {p q : Pc α host.instances} (h : s.Leads view p q) (hm : p.movesMessage = false) :
    q.request = p.request ∧ q.settled = p.settled ∧ ((∀ inst result tag, p ≠ .resultClear inst result tag) →
      q.unsent = p.unsent) := by
  cases h with
  | preempt | ask | take | poll | wait | takeJob | programDone | sendEvent => cases hm
  | resultClear inst result tag => exact ⟨rfl, rfl, fun hno => absurd rfl (hno inst result tag)⟩
  | _ => exact ⟨rfl, rfl, fun _ => rfl⟩

/-- No access of the worker but those named moves a message. -/
theorem received_worker (hisr : s.isr = none) (now : Word) : s.received (.worker now) =
    match s.pc with
    | .receive => s.gJobQueue
    | _ => none := by
  simp only [received, hisr]
  cases s.pc <;> rfl

theorem acknowledged_worker (hisr : s.isr = none) (now : Word) : s.acknowledged (.worker now) =
    match s.pc with
    | .resultClear inst result _ => some (inst, result)
    | _ => none := by
  simp only [Board.acknowledged, hisr]
  cases s.pc <;> rfl

/-- An access of the worker, and the requests. -/
theorem movesRequests_advance (s : Board α host cfg) (view : α → Word) (now : Word) (hisr : s.isr = none) :
    MovesRequests (.worker now) s (s.advance view now) := by
  have hrec := received_worker (s := s) hisr now
  have hleads := leads_advance s view now
  have hstill : s.pc.movesMessage = false → s.received (.worker now) = none →
      MovesRequests (.worker now) s (s.advance view now) := fun hm hr =>
    have hpc := hleads.still hm
    (messages_advance s view now hm).requests rfl hr hpc.1 hpc.2.1
  cases hpc : s.pc with
  | receive =>
    rw [hpc] at hrec hleads
    have hserve : s.serve now = { s with gJobQueue := none } := by simp only [serve, hpc]
    rw [advance_eq, hserve]
    generalize (s.advance view now).pc = pc at hleads
    -- the request that is taken is the one that the worker is at from now on
    have htaken : pc.request = s.gJobQueue ∧ (s.gJobQueue ≠ none → pc.settled = false) := by
      cases hleads with
      | preempt request hq | ask request hq | take request hq => exact ⟨hq.symm, fun _ => rfl⟩
      | poll hq | wait hq => exact ⟨hq.symm, fun h => absurd hq h⟩
    constructor
    case mailbox =>
      rw [hrec]
      cases s.gJobQueue <;> rfl
    case queued => rfl
    case started =>
      have hat : s.pc.request = none := by rw [hpc]; rfl
      rw [htaken.1, hrec, hat]
      rfl
    case request => exact fun r hr => .inl (hrec.trans (htaken.1.symm.trans hr))
    case active =>
      intro hs
      have hq : s.gJobQueue = none := by
        by_contra hq
        exact absurd ((htaken.2 hq).symm.trans hs) Bool.false_ne_true
      exact ⟨hrec.trans hq, .inl ⟨rfl, rfl, by rw [hpc]; rfl⟩⟩
  | takeJob request =>
    rw [hpc] at hrec
    simp only [advance, hpc]
    constructor
    case mailbox => rw [hrec]; rfl
    case queued => rfl
    case started => rw [hrec, hpc]; rfl
    case request => exact fun r hr => .inr ⟨hrec, by rw [hpc]; exact hr⟩
    case active => exact fun _ => ⟨hrec, .inr ⟨request, by rw [hpc]; rfl, rfl⟩⟩
  | program request l =>
    rw [hpc] at hrec
    cases l with
    | nil =>
      simp only [advance, hpc]
      constructor
      case mailbox => rw [hrec]; rfl
      case queued => rfl
      case started => rw [hrec, hpc]; rfl
      case request => exact fun r hr => by cases hr
      case active => exact fun _ => ⟨hrec, .inl ⟨rfl, rfl, by rw [hpc]; rfl⟩⟩
    | cons w l => exact hstill (by rw [hpc]; rfl) hrec
  | sendEvent result tag =>
    rw [hpc] at hrec
    simp only [advance, hpc, sendResult]
    split
    all_goals
      constructor
      case mailbox => rw [hrec]; rfl
      case queued => rfl
      case started => rw [hrec, hpc]; rfl
      case request => exact fun r hr => by cases hr
      case active => exact fun _ => ⟨hrec, .inl ⟨rfl, rfl, by rw [hpc]; rfl⟩⟩
  | _ =>
    rw [hpc] at hrec
    exact hstill (by rw [hpc]; rfl) hrec

/-- An access of the worker, and the results. -/
theorem movesResults_advance (s : Board α host cfg) (view : α → Word) (now : Word) (hisr : s.isr = none) :
    MovesResults (.worker now) s (s.advance view now) := by
  have hack := acknowledged_worker (s := s) hisr now
  have hleads := leads_advance s view now
  have hstill : s.pc.movesMessage = false → (∀ inst result tag, s.pc ≠ .resultClear inst result tag) →
      s.acknowledged (.worker now) = none → MovesResults (.worker now) s (s.advance view now) := fun hm hno ha =>
    (messages_advance s view now hm).results rfl (by rw [ha]; exact (hleads.still hm).2.2 hno)
  cases hpc : s.pc with
  | receive =>
    rw [hpc] at hack hleads
    have hserve : s.serve now = { s with gJobQueue := none } := by simp only [serve, hpc]
    rw [advance_eq, hserve]
    have hunsent : (s.advance view now).pc.unsent = 0 := by
      generalize (s.advance view now).pc = pc at hleads
      cases hleads <;> rfl
    exact ⟨⟨[], by rw [List.append_nil], List.append_nil _⟩, rfl, by rw [hack, hpc]; exact congrArg _ hunsent, id, .inl rfl⟩
  | takeJob request =>
    rw [hpc] at hack
    simp only [advance, hpc]
    exact ⟨⟨[], by rw [List.append_nil], List.append_nil _⟩, rfl, by rw [hack, hpc]; rfl, id, .inl rfl⟩
  | program request l =>
    rw [hpc] at hack
    cases l with
    | nil =>
      simp only [advance, hpc]
      exact ⟨⟨[], by rw [List.append_nil]; rfl, List.append_nil _⟩, rfl, by rw [hack, hpc]; rfl, id, .inl rfl⟩
    | cons w l => exact hstill (by rw [hpc]; rfl) (by simp [hpc]) hack
  | resultClear inst result tag =>
    rw [hpc] at hack
    refine (messages_advance s view now (by rw [hpc]; rfl)).results rfl ?_
    rw [hack, hpc]
    simp only [advance, hpc]
    rfl
  | sendEvent result tag =>
    rw [hpc] at hack
    simp only [advance, hpc, sendResult]
    split
    · rename_i hroom
      constructor
      case queue => exact ⟨_, rfl, rfl⟩
      case counted =>
        simp only [List.length_append, List.length_singleton]
        omega
      case acknowledged => rw [hack, hpc]; rfl
      case room =>
        intro _
        simp only [List.length_append, List.length_singleton]
        omega
      case dropped => exact .inl rfl
    · rename_i hfull
      constructor
      case queue => exact ⟨[], by rw [List.append_nil], List.append_nil _⟩
      case counted => simp only; omega
      case acknowledged => rw [hack, hpc]; rfl
      case room => exact id
      case dropped => exact .inr (Nat.le_of_not_lt hfull)
  | _ =>
    rw [hpc] at hack
    exact hstill (by rw [hpc]; rfl) (by simp [hpc]) hack

/-- **One action** of the board. -/
theorem moves_step [Inhabited α] (s : Board α host cfg) (obs : Engine → α) (view : α → Word)
    (a : Action host.instances) : Moves a s (s.step obs view a) := by
  have h := acts_step s obs view a
  generalize s.step obs view a = s' at h ⊢
  cases h with
  | worker now hisr =>
    rw [apply_eq]
    exact ⟨{ movesRequests_advance s view now hisr with }, { movesResults_advance s view now hisr with }⟩
  | handler i hisr =>
    obtain ⟨-, hpc, hsame, -⟩ := frame_handle s view i
    rw [apply_eq]
    have hmoves : Moves .handler s (s.handle view i) := hsame.moves rfl rfl rfl rfl (by rw [hpc]; exact ⟨rfl, rfl, rfl⟩)
    exact { hmoves with }
  | submitJob job cleanJob hisr =>
    have hsub : s.submitted (.submitJob job cleanJob) = some ⟨job, cleanJob⟩ := by simp only [submitted, hisr]
    constructor
    case toMovesRequests =>
      constructor
      case mailbox => rw [hsub]; rfl
      case queued => rw [hsub]; rfl
      case started => rfl
      case request => exact fun r hr => .inr ⟨rfl, hr⟩
      case active => exact fun hs => ⟨rfl, .inl ⟨rfl, rfl, hs⟩⟩
    case toMovesResults => exact ⟨⟨[], by rw [List.append_nil], List.append_nil _⟩, rfl, rfl, id, .inl rfl⟩
  | takeResult hisr =>
    have hpop : s.popped .takeResult = s.gResultQueue.head? := by simp only [popped, hisr]
    constructor
    case toMovesRequests => exact { (SameMessages.refl s).requests rfl rfl rfl rfl with }
    case toMovesResults =>
      constructor
      case queue =>
        refine ⟨[], by rw [List.append_nil], ?_⟩
        rw [hpop]
        cases s.gResultQueue <;> simp
      case counted => rfl
      case acknowledged => rfl
      case room =>
        intro hroom
        simp only [List.length_tail]
        omega
      case dropped => exact .inl rfl
  | none a hnone =>
    obtain rfl | rfl | hisr := hnone
    · exact (SameMessages.refl s).moves rfl rfl rfl rfl ⟨rfl, rfl, rfl⟩
    · exact (SameMessages.refl s).moves rfl rfl rfl rfl ⟨rfl, rfl, rfl⟩
    · obtain ⟨i, hi⟩ := Option.ne_none_iff_exists'.1 hisr
      refine (SameMessages.refl s).moves ?_ ?_ ?_ ?_ ⟨rfl, rfl, rfl⟩
      all_goals cases a <;> simp only [submitted, received, popped, Board.acknowledged, hi]
  | _ => exact { (SameMessages.refl s).moves rfl rfl rfl rfl ⟨rfl, rfl, rfl⟩ with }

end Moves

end Board

/-! ## The client's part -/

namespace Client

/-- The action of the board that an action of the system makes. -/
def boardAction (a : ClientAction host.instances) (s : Client α host cfg) : Option (Action host.instances) :=
  match a with
  | .board (.submitJob _ _) | .board .takeResult => none
  | .board a => some a
  | .task _ =>
    if s.board.isr.isSome then none
    else
      match s.pc with
      | .clear ((inst, w) :: _) => some (.service inst w)
      | .dispatchPending => s.session.pendingNotify.bind fun notify =>
          (buildJob notify s.session.state).1.map fun job => .submitJob job notify.cleanJobs
      | .drain => s.board.gResultQueue.head?.map fun _ => .takeResult
      | .dispatchCurrent => s.session.currentNotify.bind fun notify =>
          (buildJob notify s.session.state).1.map fun job => .submitJob job false
      | _ => none
  | _ => none

/-- The request that `dispatch_notify_work` submits. -/
def submitted (a : ClientAction host.instances) (s : Client α host cfg) : Option JobRequest :=
  (s.boardAction a).bind fun b => s.board.submitted b

/-- The request that the worker takes. -/
def received (a : ClientAction host.instances) (s : Client α host cfg) : Option JobRequest :=
  (s.boardAction a).bind fun b => s.board.received b

/-- The result that the worker acknowledges. -/
def acknowledged (a : ClientAction host.instances) (s : Client α host cfg) : Option (Fin host.instances × MinerResult) :=
  (s.boardAction a).bind fun b => s.board.acknowledged b

/-- The event that `drain_share_results` takes, with the connection and the user that it is submitted for. -/
def popped (a : ClientAction host.instances) (s : Client α host cfg) : Option (Nat × CStr 128 × ResultEvent α) :=
  ((s.boardAction a).bind fun b => s.board.popped b).map fun event => (s.conn, s.config.user, event)

/-- The line that `submit_share` makes of it; an event without a job id makes none. -/
def shareLine (x : Nat × CStr 128 × ResultEvent α) : Option (Submit α) :=
  (submitShare x.2.1 x.2.2.result.nonce x.2.2.job).map fun line => ⟨x.1, x.2.2, line⟩

/-- What an action of the system does to the messages: an action of the board or none, with its records. -/
structure Records (a : ClientAction host.instances) (s s' : Client α host cfg) [Inhabited α] (obs : Engine → α)
    (view : α → Word) : Prop where
  board : s'.board = (s.boardAction a).elim s.board fun b => s.board.step obs view b
  built : s'.built.map Built.job = s.built.map Built.job ++ (s.submitted a).toList.map JobRequest.job
  submits : s'.submits = s.submits ++ (s.popped a).toList.filterMap shareLine

variable [Inhabited α] {obs : Engine → α} {view : α → Word} {strtod : List Char → Rat} {s s' : Client α host cfg}
  {a : ClientAction host.instances}

/-- The system does nothing to the messages. -/
theorem Records.rest (ha : s.boardAction a = none) (hb : s'.board = s.board) (hbuilt : s'.built = s.built)
    (hs : s'.submits = s.submits) : Records a s s' obs view := by
  constructor
  · rw [ha, hb]; rfl
  · rw [submitted, ha, hbuilt]; exact (List.append_nil _).symm
  · rw [popped, ha, hs]; exact (List.append_nil _).symm

/-- The board makes an action that is not one of the client's. -/
theorem Records.acts {b : Action host.instances} (ha : s.boardAction a = some b) (hb : s'.board = s.board.step obs view b)
    (hsub : s.board.submitted b = none) (hpop : s.board.popped b = none) (hbuilt : s'.built = s.built)
    (hs : s'.submits = s.submits) : Records a s s' obs view := by
  constructor
  · rw [ha, hb]; rfl
  · rw [submitted, ha, Option.bind_some, hsub, hbuilt]; exact (List.append_nil _).symm
  · rw [popped, ha, Option.bind_some, hpop, hs]; exact (List.append_nil _).symm

/-- `dispatch_notify_work`. -/
theorem records_dispatch (hisr : s.board.isr = none) {notify : StratumNotify} {cleanJob : Bool}
    (ha : s.boardAction a = (buildJob notify s.session.state).1.map fun job => .submitJob job cleanJob)
    (hb : s'.board = (s.dispatch obs view notify cleanJob).2.board)
    (hbuilt : s'.built = (s.dispatch obs view notify cleanJob).2.built)
    (hs : s'.submits = (s.dispatch obs view notify cleanJob).2.submits) : Records a s s' obs view := by
  unfold Client.dispatch dispatchNotifyWork at hb hbuilt hs
  cases hjob : (buildJob notify s.session.state).1 with
  | none =>
    rw [hjob] at ha hb hbuilt hs
    exact .rest ha hb hbuilt hs
  | some job =>
    rw [hjob] at ha hb hbuilt hs
    have ha : s.boardAction a = some (.submitJob job cleanJob) := ha
    have hsub : s.board.submitted (.submitJob job cleanJob) = some ⟨job, cleanJob⟩ := by
      simp only [Board.submitted, hisr]
    constructor
    · rw [ha, hb]; rfl
    · rw [submitted, ha, Option.bind_some, hsub, hbuilt, List.map_append]; rfl
    · rw [popped, ha, hs]; exact (List.append_nil _).symm

theorem records_task (hisr : s.board.isr = none) (net : NetEvent) :
    Records (.task net) s (s.task obs view strtod net) obs view := by
  have hact : s.boardAction (.task net) =
      match s.pc with
      | .clear ((inst, w) :: _) => some (.service inst w)
      | .dispatchPending => s.session.pendingNotify.bind fun notify =>
          (buildJob notify s.session.state).1.map fun job => .submitJob job notify.cleanJobs
      | .drain => s.board.gResultQueue.head?.map fun _ => .takeResult
      | .dispatchCurrent => s.session.currentNotify.bind fun notify =>
          (buildJob notify s.session.state).1.map fun job => .submitJob job false
      | _ => none := by
    simp only [boardAction, hisr]
    rfl
  unfold Client.task
  cases hpc : s.pc with
  | connect =>
    rw [hpc] at hact
    cases net with
    | accept mem => dsimp only; split <;> exact .rest hact rfl rfl rfl
    | recv event => exact .rest hact rfl rfl rfl
    | error => exact .rest hact rfl rfl rfl
  | recv =>
    rw [hpc] at hact
    dsimp only
    split
    · exact .rest hact rfl rfl rfl
    · cases net with
      | accept mem => exact .rest hact rfl rfl rfl
      | error => exact .rest hact rfl rfl rfl
      | recv event =>
        cases event with
        | timeout => exact .rest hact rfl rfl rfl
        | char ch =>
          dsimp only
          unfold Client.receive
          split <;> exact .rest hact rfl rfl rfl
  | clear l =>
    rw [hpc] at hact
    cases l with
    | nil => exact .rest hact rfl rfl rfl
    | cons x l => exact .acts hact rfl rfl rfl rfl rfl
  | dispatchPending =>
    rw [hpc] at hact
    dsimp only
    unfold Client.dispatchPending
    cases hn : s.session.pendingNotify with
    | none =>
      rw [hn] at hact
      exact .rest hact rfl rfl rfl
    | some notify =>
      rw [hn] at hact
      dsimp only
      cases hd : s.dispatch obs view notify notify.cleanJobs with
      | mk o s' =>
        cases o with
        | none => exact records_dispatch hisr hact (by rw [hd]) (by rw [hd]) (by rw [hd])
        | some job => exact records_dispatch hisr hact (by rw [hd]) (by rw [hd]) (by rw [hd])
  | drain =>
    rw [hpc] at hact
    dsimp only
    cases hq : s.board.gResultQueue with
    | nil =>
      rw [hq] at hact
      dsimp only
      split <;> exact .rest hact rfl rfl rfl
    | cons event rest =>
      rw [hq] at hact
      have hact : s.boardAction (.task net) = some .takeResult := hact
      have hpop : s.board.popped .takeResult = some event := by simp only [Board.popped, hisr, hq]; rfl
      constructor
      · rw [hact]; rfl
      · rw [submitted, hact, Option.bind_some]; exact (List.append_nil _).symm
      · rw [popped, hact, Option.bind_some, hpop]
        show s.submits ++ _ = _
        congr 1
        simp only [Option.map_some, Option.toList_some, List.filterMap_cons, List.filterMap_nil, shareLine]
        cases submitShare s.config.user event.result.nonce event.job <;> rfl
  | refill inst acc =>
    rw [hpc] at hact
    dsimp only
    split
    · exact .rest hact rfl rfl rfl
    · split <;> exact .rest hact rfl rfl rfl
  | dispatchCurrent =>
    rw [hpc] at hact
    dsimp only
    unfold Client.dispatchCurrent
    cases hn : s.session.currentNotify with
    | none =>
      rw [hn] at hact
      exact .rest hact rfl rfl rfl
    | some notify =>
      rw [hn] at hact
      exact records_dispatch hisr hact rfl rfl rfl

theorem records_step (a : ClientAction host.instances) : Records a s (s.step obs view strtod a) obs view := by
  cases a with
  | board b =>
    cases b with
    | submitJob | takeResult => exact .rest rfl rfl rfl rfl
    | _ => exact .acts rfl rfl rfl rfl rfl rfl
  | task net =>
    cases hisr : s.board.isr with
    | none =>
      have hstep : s.step obs view strtod (.task net) = s.task obs view strtod net := by simp [Client.step, hisr]
      rw [hstep]
      exact records_task hisr net
    | some i =>
      have hstep : s.step obs view strtod (.task net) = s := by simp [Client.step, hisr]
      rw [hstep]
      exact .rest (by simp [boardAction, hisr]) rfl rfl rfl
  | requestConnect | requestDisconnect | setConfig => exact .rest rfl rfl rfl rfl

omit [Inhabited α] in
/-- A request that the worker takes was in the mailbox. -/
theorem of_received {r : JobRequest} (h : s.received a = some r) :
    s.submitted a = none ∧ s.board.gJobQueue = some r := by
  rw [received] at h
  rw [submitted]
  cases hact : s.boardAction a with
  | none =>
    rw [hact] at h
    cases h
  | some b =>
    rw [hact, Option.bind_some] at h
    rw [Option.bind_some]
    unfold Board.received at h
    split at h
    · exact ⟨rfl, h⟩
    · cases h

/-- What an action of the system does to the messages of the board. -/
structure Messages (a : ClientAction host.instances) (s s' : Client α host cfg) : Prop where
  mailbox : s'.board.gJobQueue = (s.submitted a).or (if (s.received a).isSome then none else s.board.gJobQueue)
  queued : s'.board.gStats.jobsQueued = s.board.gStats.jobsQueued + (s.submitted a).toList.length
  started : s'.board.gStats.jobsStarted + s'.board.pc.request.toList.length =
    s.board.gStats.jobsStarted + s.board.pc.request.toList.length + (s.received a).toList.length
  request : ∀ r, s'.board.pc.request = some r →
    s.received a = some r ∨ s.received a = none ∧ s.board.pc.request = some r
  active : s'.board.pc.settled = true → s.received a = none ∧
    (s'.board.gActiveJob = s.board.gActiveJob ∧ s'.board.gHaveActiveJob = s.board.gHaveActiveJob ∧
      s.board.pc.settled = true ∨ ∃ r, s.board.pc.request = some r ∧ s'.board.gActiveJob = r.job)
  queue : ∃ l, s'.board.sent = s.board.sent ++ l ∧
    s.board.gResultQueue ++ l = ((s.popped a).map fun x => x.2.2).toList ++ s'.board.gResultQueue
  counted : s'.board.gStats.resultCount + s.board.gStats.resultQueueDrops + s.board.sent.length =
    s.board.gStats.resultCount + s'.board.gStats.resultQueueDrops + s'.board.sent.length
  acknowledged : s'.board.gStats.resultCount + s'.board.pc.unsent =
    s.board.gStats.resultCount + s.board.pc.unsent + (s.acknowledged a).toList.length
  room : s.board.gResultQueue.length ≤ 8 → s'.board.gResultQueue.length ≤ 8
  dropped : s'.board.gStats.resultQueueDrops = s.board.gStats.resultQueueDrops ∨ 8 ≤ s.board.gResultQueue.length

theorem messages_step (a : ClientAction host.instances) : Messages a s (s.step obs view strtod a) := by
  have hboard := (@records_step _ _ _ _ obs view strtod s a).board
  cases hact : s.boardAction a with
  | none =>
    rw [hact, Option.elim_none] at hboard
    have hsub : s.submitted a = none := by rw [submitted, hact]; rfl
    have hrec : s.received a = none := by rw [received, hact]; rfl
    have hpop : s.popped a = none := by rw [popped, hact]; rfl
    have hack : s.acknowledged a = none := by rw [Client.acknowledged, hact]; rfl
    constructor
    case mailbox => rw [hboard, hsub, hrec]; rfl
    case queued => rw [hboard, hsub]; rfl
    case started => rw [hboard, hrec]; rfl
    case request => exact fun r hr => .inr ⟨hrec, by rwa [hboard] at hr⟩
    case active => exact fun hs => ⟨hrec, .inl ⟨by rw [hboard], by rw [hboard], by rwa [hboard] at hs⟩⟩
    case queue => exact ⟨[], by rw [hboard, List.append_nil], by rw [hboard, hpop, List.append_nil]; rfl⟩
    case counted => rw [hboard]
    case acknowledged => rw [hboard, hack]; rfl
    case room => rw [hboard]; exact id
    case dropped => exact .inl (by rw [hboard])
  | some b =>
    rw [hact, Option.elim_some] at hboard
    have hsub : s.submitted a = s.board.submitted b := by rw [submitted, hact]; rfl
    have hrec : s.received a = s.board.received b := by rw [received, hact]; rfl
    have hpop : (s.popped a).map (fun x => x.2.2) = s.board.popped b := by
      rw [popped, hact, Option.bind_some]
      cases s.board.popped b <;> rfl
    have hack : s.acknowledged a = s.board.acknowledged b := by rw [Client.acknowledged, hact]; rfl
    have hmoves := Board.moves_step s.board obs view b
    rw [← hboard] at hmoves
    constructor
    case mailbox => rw [hsub, hrec]; exact hmoves.mailbox
    case queued => rw [hsub]; exact hmoves.queued
    case started => rw [hrec]; exact hmoves.started
    case request => rw [hrec]; exact hmoves.request
    case active => rw [hrec]; exact hmoves.active
    case queue => rw [hpop]; exact hmoves.queue
    case counted => exact hmoves.counted
    case acknowledged => rw [hack]; exact hmoves.acknowledged
    case room => exact hmoves.room
    case dropped => exact hmoves.dropped

theorem messages_run (obs : Engine → α) (view : α → Word) (strtod : List Char → Rat)
    (acts : Nat → ClientAction host.instances) (s : Client α host cfg) (n : Nat) :
    Messages (acts n) (run (step obs view strtod) acts s n) (run (step obs view strtod) acts s (n + 1)) :=
  messages_step (acts n)

/-! ## Whole runs -/

/-- How the requests reach the worker. The counters are taken as unbounded: in the source they wrap at 2^32. -/
structure JobsAccounted (obs : Engine → α) (view : α → Word) (strtod : List Char → Rat)
    (acts : Nat → ClientAction host.instances) (s : Client α host cfg) : Prop where
  /-- The jobs that are submitted are those that were built. -/
  built : ∀ n, (run (step obs view strtod) acts s n).built.map Built.job =
    (events (step obs view strtod) submitted acts s n).map JobRequest.job
  /-- The worker takes requests in the order in which they were submitted, none of them twice. -/
  mailbox : ∀ n, (events (step obs view strtod) received acts s n ++
    (run (step obs view strtod) acts s n).board.gJobQueue.toList).Sublist
      (events (step obs view strtod) submitted acts s n)
  /-- What it takes is the newest request. -/
  newest : ∀ n r, (run (step obs view strtod) acts s n).received (acts n) = some r →
    (events (step obs view strtod) submitted acts s n).getLast? = some r
  /-- It takes the next one when it has started the range of the last. -/
  started : ∀ n, (events (step obs view strtod) received acts s n).length =
    (run (step obs view strtod) acts s n).board.gStats.jobsStarted +
      (run (step obs view strtod) acts s n).board.pc.request.toList.length
  queued : ∀ n, (run (step obs view strtod) acts s n).board.gStats.jobsQueued =
    (events (step obs view strtod) submitted acts s n).length
  /-- Where it reads results, the active job is that of the last request that it has taken. -/
  active : ∀ n, (run (step obs view strtod) acts s n).board.pc.settled = true →
    (run (step obs view strtod) acts s n).board.gHaveActiveJob = true →
    ∃ r, (events (step obs view strtod) received acts s n).getLast? = some r ∧
      (run (step obs view strtod) acts s n).board.gActiveJob = r.job

section Run

variable (obs view strtod)
variable (engines : Fin host.instances → Fin cfg.numEngines → Engine) (config : StratumConfig) (mem : LineMem)
  (acts : Nat → ClientAction host.instances)

/-- **The mailbox.** In every run, whatever comes between the accesses of the two tasks, the worker serves requests of
the client, in order, the newest one each time. -/
theorem jobs_accounted :
    JobsAccounted obs view strtod acts (reset engines config mem : Client α host cfg) := by
  have hstep := messages_run obs view strtod acts (reset engines config mem : Client α host cfg)
  have hmail := @Clocked.events_mailbox _ _ _ (step obs view strtod) acts (reset engines config mem : Client α host cfg)
    submitted received (fun s => s.board.gJobQueue) (fun n => (hstep n).mailbox) (fun _ _ h => of_received h)
  have hrequest : ∀ n r, (run (step obs view strtod) acts (reset engines config mem) n).board.pc.request = some r →
      (events (step obs view strtod) received acts (reset engines config mem : Client α host cfg) n).getLast? = some r := by
    intro n
    induction n with
    | zero => exact fun r hr => by cases hr
    | succ n ih =>
      intro r hr
      rw [events_succ]
      rcases (hstep n).request r hr with hrec | ⟨hrec, hold⟩
      · rw [hrec]
        exact List.getLast?_concat
      · rw [hrec, Option.toList_none, List.append_nil]
        exact ih r hold
  constructor
  case built =>
    intro n
    induction n with
    | zero => rfl
    | succ n ih =>
      rw [run_succ, events_succ, List.map_append]
      exact (records_step _).built.trans (congrArg (· ++ _) ih)
  case mailbox => exact fun n => (hmail n).1
  case newest =>
    intro n r hr
    have hlast := (hmail n).2
    rw [(of_received hr).2] at hlast
    exact hlast.symm.trans List.getLast?_concat
  case started =>
    intro n
    induction n with
    | zero => rfl
    | succ n ih =>
      have hn := (hstep n).started
      rw [events_succ, List.length_append]
      omega
  case queued =>
    intro n
    induction n with
    | zero => rfl
    | succ n ih =>
      have hn := (hstep n).queued
      rw [events_succ, List.length_append]
      omega
  case active =>
    intro n
    induction n with
    | zero => exact fun _ hhave => by cases hhave
    | succ n ih =>
      intro hset hhave
      obtain ⟨hrec, hcases⟩ := (hstep n).active hset
      rw [events_succ, hrec, Option.toList_none, List.append_nil]
      rcases hcases with ⟨hjob, hhave', hset'⟩ | ⟨r, hr, hjob⟩
      · obtain ⟨r, hr, hact⟩ := ih hset' (hhave'.symm.trans hhave)
        exact ⟨r, hr, hjob.trans hact⟩
      · exact ⟨r, hrequest n r hr, hjob⟩

end Run

end Client

end Vek280Miner
