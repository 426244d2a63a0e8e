import Vek280Miner.Board.MinerTask
import Vek280Miner.Software.ReceiveLine
import Vek280Miner.Software.StratumSession

/-!
# The client task (`stratum_client.c`)

`stratum_task` together with the board: the task connects to the pool, receives lines, dispatches work to the miner
service and submits its results. As on the board, an action is one access to something that another party uses, here a
queue of the service, a register or the socket. Only this task submits jobs and takes results. The console starts and
ends connections and changes the configuration, which a connection reads when it is made.

The logs `notifies`, `subscriptions`, `targets`, `built` and `submits` record what has been received, built and submitted
on each connection, and `taken` that the worker has taken a job since the last connect; no step reads them. The lines that
`send_subscribe_authorize` sends change nothing here.
-/

namespace Vek280Miner

open Rtl Sw

/-! ## Data -/

/-- The part of `stratum_config_t` that a submission uses. -/
structure StratumConfig where
  user : CStr 128

deriving instance DecidableEq for ServiceWrite

/-- Where `stratum_task` stands. -/
inductive ClientPc (K : Nat) where
  | connect
  /-- The head of the receive loop. -/
  | recv
  /-- `miner_service_clear`. -/
  | clear (l : List (Fin K × ServiceWrite))
  | dispatchPending
  /-- `drain_share_results`. -/
  | drain
  /-- `miner_service_status` in `refill_if_idle`. -/
  | refill (inst : Nat) (acc : StatusAcc)
  | dispatchCurrent
deriving DecidableEq

/-- What the network does: a connection is made, with whatever is in the memory of the line buffer, a receive call ends,
or it fails. -/
inductive NetEvent where
  | accept (mem : LineMem)
  | recv (event : Recv)
  | error

/-- A job that `build_job` has produced on a connection. -/
structure Built where
  conn : Nat
  notify : StratumNotify
  state : StratumState
  job : MinerJob

/-- A line that `submit_share` has sent on a connection. -/
structure Submit (α : Type) where
  conn : Nat
  event : ResultEvent α
  line : List Char

/-- The board, the variables of the client, and the logs. -/
structure Client (α : Type) (host : HostCfg) (cfg : MinerCfg) where
  board : Board α host cfg
  pc : ClientPc host.instances
  gConfig : StratumConfig
  gConnectRequested : Bool
  gDisconnectRequested : Bool
  config : StratumConfig
  session : StratumSession
  buffer : LineBuffer
  debug : StratumDebug
  conn : Nat
  notifies : List (Nat × StratumNotify)
  subscriptions : List (Nat × CStr 65)
  targets : List (Nat × Words 8)
  built : List Built
  submits : List (Submit α)
  taken : Bool

/-- What can happen next: an action of the board, a step of the task, or one of the console. -/
inductive ClientAction (K : Nat) where
  | board (a : Action K)
  | task (net : NetEvent)
  | requestConnect
  | requestDisconnect
  | setConfig (config : StratumConfig)

/-- The worker takes a job. -/
def Board.takes {α : Type} {host : HostCfg} {cfg : MinerCfg} (a : Action host.instances) (s : Board α host cfg) : Bool :=
  match a, s.isr, s.pc with
  | .worker _, none, .takeJob _ => true
  | _, _, _ => false

namespace Client

variable {α : Type} [Inhabited α] {host : HostCfg} {cfg : MinerCfg}

/-- The writes of `miner_service_clear`. -/
def serviceClear (K : Nat) : List (Fin K × ServiceWrite) :=
  (List.finRange K).flatMap fun inst => [(inst, .clear), (inst, .clearStatus)]

/-! ## `stratum_task` -/

/-- The connection is made. -/
def accept (mem : LineMem) (s : Client α host cfg) : Client α host cfg :=
  { s with
    pc := .recv
    gDisconnectRequested := false
    config := s.gConfig
    session := .fresh
    buffer := .empty mem
    conn := s.conn + 1
    taken := false }

/-- Where the task goes in `try_dispatch_pending_notify`. -/
def tryDispatch (K : Nat) (session : StratumSession) : ClientPc K :=
  match session.pendingNotify with
  | none => .drain
  | some notify => if notify.cleanJobs then .clear (serviceClear K) else .dispatchPending

/-- A line has been received. -/
def handle (strtod : List Char → Rat) (line : List Char) (s : Client α host cfg) : Client α host cfg :=
  let handled := handleStratumLine strtod line s.session s.debug
  { s with
    pc := if handled.2.2 then tryDispatch host.instances handled.1 else .drain
    session := handled.1
    debug := handled.2.1
    notifies := s.notifies ++ (notifyOf line).toList.map fun notify => (s.conn, notify)
    subscriptions := s.subscriptions ++ (subscriptionOf line s.session).toList.map fun extranonce1 => (s.conn, extranonce1)
    targets := s.targets ++ (targetOf strtod line).toList.map fun target => (s.conn, target) }

/-- A character has been received. -/
def receive (strtod : List Char → Rat) (ch : Char) (s : Client α host cfg) : Client α host cfg :=
  match s.buffer.receive ch with
  | (buffer, none) => { s with buffer }
  | (buffer, some line) => ({ s with buffer }).handle strtod line

/-- `dispatch_notify_work`: the job, if it can be built, goes to the service. -/
def dispatch (obs : Engine → α) (view : α → Word) (notify : StratumNotify) (cleanJob : Bool) (s : Client α host cfg) :
    Option MinerJob × Client α host cfg :=
  match dispatchNotifyWork notify s.session with
  | (none, session) => (none, { s with session })
  | (some job, session) =>
    (some job, { s with
      board := s.board.step obs view (.submitJob job cleanJob)
      session
      built := s.built ++ [⟨s.conn, notify, s.session.state, job⟩] })

/-- The pending notify, which becomes the current one when its job has been built. -/
def dispatchPending (obs : Engine → α) (view : α → Word) (s : Client α host cfg) : Client α host cfg :=
  match s.session.pendingNotify with
  | none => s
  | some notify =>
    match s.dispatch obs view notify notify.cleanJobs with
    | (none, s) => s
    | (some _, s) => { s with session := { s.session with pendingNotify := none, currentNotify := some notify } }

/-- The current notify once more. -/
def dispatchCurrent (obs : Engine → α) (view : α → Word) (s : Client α host cfg) : Client α host cfg :=
  match s.session.currentNotify with
  | none => s
  | some notify => (s.dispatch obs view notify false).2

/-- A result is taken from the queue and submitted. -/
def submit (obs : Engine → α) (view : α → Word) (event : ResultEvent α) (s : Client α host cfg) : Client α host cfg :=
  { s with
    board := s.board.step obs view .takeResult
    submits := s.submits ++
      (submitShare s.config.user event.result.nonce event.job).toList.map fun line => ⟨s.conn, event, line⟩ }

/-- One step of the task. -/
def task (obs : Engine → α) (view : α → Word) (strtod : List Char → Rat) (net : NetEvent) (s : Client α host cfg) :
    Client α host cfg :=
  match s.pc with
  | .connect =>
    match net with
    | .accept mem => if s.gConnectRequested then s.accept mem else s
    | _ => s
  | .recv =>
    if s.gDisconnectRequested then { s with pc := .connect }
    else
      match net with
      | .recv .timeout => { s with pc := .drain }
      | .recv (.char ch) => s.receive strtod ch
      | .error => { s with pc := .connect }
      | .accept _ => s
  | .clear [] => { s with pc := .dispatchPending }
  | .clear ((inst, w) :: l) => { s with board := s.board.step obs view (.service inst w), pc := .clear l }
  | .dispatchPending => { s.dispatchPending obs view with pc := .drain }
  | .drain =>
    match s.board.gResultQueue with
    | event :: _ => s.submit obs view event
    | [] => if s.session.currentNotify.isSome then { s with pc := .refill 0 .init } else { s with pc := .recv }
  | .refill inst acc =>
    if h : inst < host.instances then
      { s with pc := .refill (inst + 1) (acc.next (s.board.read view ⟨inst, h⟩ minerRegStatus)) }
    else if acc.result &&& minerStatusRunning = 0 then { s with pc := .dispatchCurrent }
    else { s with pc := .recv }
  | .dispatchCurrent => { s.dispatchCurrent obs view with pc := .recv }

/-! ## The system -/

/-- One action; jobs are submitted and results taken by the task alone, which waits for the handler as the worker does.
-/
def step (obs : Engine → α) (view : α → Word) (strtod : List Char → Rat) (a : ClientAction host.instances)
    (s : Client α host cfg) : Client α host cfg :=
  match a with
  | .board (.submitJob _ _) | .board .takeResult => s
  | .board a => { s with board := s.board.step obs view a, taken := s.taken || s.board.takes a }
  | .task net => if s.board.isr.isSome then s else s.task obs view strtod net
  | .requestConnect => { s with gConnectRequested := true }
  | .requestDisconnect => { s with gDisconnectRequested := true, gConnectRequested := false }
  | .setConfig config => { s with gConfig := config }

/-- The board at reset, and the client before its first connection. -/
def reset (engines : Fin host.instances → Fin cfg.numEngines → Engine) (config : StratumConfig) (mem : LineMem) :
    Client α host cfg where
  board := Board.reset engines
  pc := .connect
  gConfig := config
  gConnectRequested := false
  gDisconnectRequested := false
  config := config
  session := .fresh
  buffer := .empty mem
  debug := .fresh
  conn := 0
  notifies := []
  subscriptions := []
  targets := []
  built := []
  submits := []
  taken := false

end Client

end Vek280Miner
