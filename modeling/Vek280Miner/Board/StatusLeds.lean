import Vek280Miner.Board.MessageAccounts
import Vek280Miner.Board.WorkDispatch
import Mathlib.Data.Nat.Bits

/-!
# The status LEDs (`status_leds.c`)

Both tasks make calls to the LEDs: the worker for an interrupt that it has processed, the client for its connection, for
the session and for a notify. The header says what each LED means; the calls are made only where something changes, so
that it holds between them is an invariant of the whole system (`Tells`).

A call is made under a critical section, in the access that it belongs to.
-/

namespace Vek280Miner

open Rtl Sw
open Clocked (run run_succ events events_succ)

/-! ## Calls -/

/-- `g_status_led_state` and the data register of the GPIO. -/
structure StatusLeds where
  gStatusLedState : Word
  data : Word
deriving DecidableEq

def statusLedPoolR5Connected : Nat := 0
def statusLedJobReceived : Nat := 1
def statusLedIrqProcessed : Nat := 2
def statusLedPoolAttached : Nat := 3

/-- `STATUS_LED_ALL_MASK`. -/
def statusLedAllMask : Word := (1 <<< 4) - 1

namespace StatusLeds

/-- `status_leds_write`. -/
def write (state : Word) : StatusLeds := ⟨state, state⟩

/-- `status_leds_init`. -/
def init : StatusLeds := write 0

/-- `status_leds_update`. -/
def update (setMask toggleMask : Word) (leds : StatusLeds) : StatusLeds :=
  write (((leds.gStatusLedState ^^^ toggleMask) ||| setMask) &&& statusLedAllMask)

/-- `status_leds_set_pool_r5_connected` and `status_leds_set_pool_attached`, which differ in the bit. -/
def set (led : Nat) (on : Bool) (leds : StatusLeds) : StatusLeds :=
  let mask : Word := 1 <<< led
  write (if on then leds.gStatusLedState ||| mask else leds.gStatusLedState &&& ~~~mask)

end StatusLeds

/-- A call of a task. -/
inductive LedCall where
  | setPoolR5Connected (connected : Bool)
  | setPoolAttached (attached : Bool)
  | toggleJobReceived
  | toggleIrqProcessed
deriving DecidableEq

def LedCall.apply : LedCall → StatusLeds → StatusLeds
  | .setPoolR5Connected connected => .set statusLedPoolR5Connected connected
  | .setPoolAttached attached => .set statusLedPoolAttached attached
  | .toggleJobReceived => .update 0 (1 <<< statusLedJobReceived)
  | .toggleIrqProcessed => .update 0 (1 <<< statusLedIrqProcessed)

/-- The LEDs after some calls. -/
def ledsAfter (calls : List LedCall) (leds : StatusLeds) : StatusLeds := calls.foldl (fun leds call => call.apply leds) leds

/-! ## Who calls -/

/-- `state->subscribed && state->authorized`. -/
def Sw.StratumState.usable (state : StratumState) : Bool := state.subscribed && state.authorized

/-- The calls of `handle_stratum_line`. -/
def lineCalls (line : List Char) (session : StratumSession) : List LedCall :=
  if jsonMethodIs line "mining.notify".toList then
    match parseNotify line with
    | some _ => [.toggleJobReceived]
    | none => []
  else if jsonMethodIs line "mining.set_difficulty".toList then []
  else if jsonMethodIs line "mining.set_target".toList then []
  else
    match parseSubscribeResponse line session.state with
    | some state =>
      .setPoolAttached state.usable :: (parseAuthorizeResponse line state).toList.map fun state => .setPoolAttached state.usable
    | none => (parseAuthorizeResponse line session.state).toList.map fun state => .setPoolAttached state.usable

variable {α : Type} {host : HostCfg} {cfg : MinerCfg}

/-- The worker takes the semaphore and goes on to the results. -/
def Board.processesIrq (a : Action host.instances) (s : Board α host cfg) : Option Unit :=
  match a, s.isr, s.pc with
  | .worker _, none, .takeSem => if s.gIrqSem then some () else none
  | _, _, _ => none

namespace Client

/-- The worker processes an interrupt. -/
def processesIrq (a : ClientAction host.instances) (s : Client α host cfg) : Option Unit :=
  match a with
  | .board b => s.board.processesIrq b
  | _ => none

/-- The calls of `stratum_task`. -/
def taskCalls (net : NetEvent) (s : Client α host cfg) : List LedCall :=
  match s.pc with
  | .connect =>
    match net with
    | .accept _ => if s.gConnectRequested then [.setPoolR5Connected true, .setPoolAttached false] else []
    | _ => []
  | .recv =>
    if s.gDisconnectRequested then [.setPoolR5Connected false, .setPoolAttached false]
    else
      match net with
      | .recv (.char ch) => (s.buffer.receive ch).2.elim [] fun line => lineCalls line s.session
      | .error => [.setPoolR5Connected false, .setPoolAttached false]
      | _ => []
  | _ => []

/-- The calls of an action. -/
def ledCalls (a : ClientAction host.instances) (s : Client α host cfg) : List LedCall :=
  match a with
  | .board b => (s.board.processesIrq b).toList.map fun _ => .toggleIrqProcessed
  | .task net => if s.board.isr.isSome then [] else s.taskCalls net
  | _ => []

variable [Inhabited α]

/-- The LEDs after the first actions of a run, from `status_leds_init` in `main`. -/
def leds (obs : Engine → α) (view : α → Word) (strtod : List Char → Rat) (acts : Nat → ClientAction host.instances)
    (s : Client α host cfg) : Nat → StatusLeds
  | 0 => .init
  | n + 1 => ledsAfter ((run (step obs view strtod) acts s n).ledCalls (acts n)) (leds obs view strtod acts s n)

end Client

/-! ## What the calls do -/

/-- The LEDs DS6, DS5, DS4 and DS3. -/
def showing (connected : Bool) (jobs irqs : Nat) (attached : Bool) : StatusLeds :=
  .write (flags [connected, jobs.bodd, irqs.bodd, attached])

section Calls

variable (connected attached : Bool) (jobs irqs : Nat)

@[simp] theorem apply_connected (on : Bool) : (LedCall.setPoolR5Connected on).apply (showing connected jobs irqs attached) =
    showing on jobs irqs attached := by
  unfold showing
  generalize jobs.bodd = job
  generalize irqs.bodd = irq
  revert on connected attached job irq
  decide

@[simp] theorem apply_attached (on : Bool) : (LedCall.setPoolAttached on).apply (showing connected jobs irqs attached) =
    showing connected jobs irqs on := by
  unfold showing
  generalize jobs.bodd = job
  generalize irqs.bodd = irq
  revert on connected attached job irq
  decide

@[simp] theorem apply_job : LedCall.toggleJobReceived.apply (showing connected jobs irqs attached) =
    showing connected (jobs + 1) irqs attached := by
  unfold showing
  rw [Nat.bodd_succ]
  generalize jobs.bodd = job
  generalize irqs.bodd = irq
  revert connected attached job irq
  decide

@[simp] theorem apply_irq : LedCall.toggleIrqProcessed.apply (showing connected jobs irqs attached) =
    showing connected jobs (irqs + 1) attached := by
  unfold showing
  rw [Nat.bodd_succ]
  generalize jobs.bodd = job
  generalize irqs.bodd = irq
  revert connected attached job irq
  decide

/-- **A line** toggles DS5 for a notify, and DS3 shows whether the session is usable behind it. -/
theorem leds_line (strtod : List Char → Rat) (line : List Char) (session : StratumSession) (debug : StratumDebug) :
    ledsAfter (lineCalls line session) (showing connected jobs irqs session.state.usable) =
      showing connected (jobs + (notifyOf line).toList.length) irqs
        (handleStratumLine strtod line session debug).1.state.usable := by
  unfold lineCalls notifyOf handleStratumLine
  split
  · cases parseNotify line with
    | none => rfl
    | some notify => exact apply_job ..
  · split
    · cases parseDifficulty strtod line <;> rfl
    · split
      · cases parseTarget line <;> rfl
      · rw [handleResponse_session]
        cases parseSubscribeResponse line session.state with
        | none =>
          dsimp only [Option.getD_none]
          cases parseAuthorizeResponse line session.state with
          | none => rfl
          | some state => exact apply_attached ..
        | some state =>
          have hsub : ∀ calls, ledsAfter (.setPoolAttached state.usable :: calls)
              (showing connected jobs irqs session.state.usable) =
                ledsAfter calls (showing connected jobs irqs state.usable) :=
            fun calls => congrArg (ledsAfter calls) (apply_attached ..)
          dsimp only
          rw [hsub, Option.getD_some]
          cases parseAuthorizeResponse line state with
          | none => rfl
          | some state' => exact apply_attached ..

end Calls

/-- The counter of notifies and the calls count the same lines. -/
theorem handle_notifyCount (strtod : List Char → Rat) (line : List Char) (session : StratumSession)
    (debug : StratumDebug) : (handleStratumLine strtod line session debug).2.1.notifyCount =
      debug.notifyCount + (notifyOf line).toList.length := by
  have hcount : ∀ debug : StratumDebug, (countShare line debug).notifyCount = debug.notifyCount := by
    intro debug
    unfold countShare
    split
    · split
      · rfl
      · split <;> rfl
    · rfl
  unfold handleStratumLine notifyOf
  split
  · cases parseNotify line <;> rfl
  · split
    · cases parseDifficulty strtod line <;> rfl
    · split
      · cases parseTarget line <;> rfl
      · unfold handleResponse
        cases parseSubscribeResponse line session.state with
        | none =>
          dsimp only
          cases parseAuthorizeResponse line session.state <;> exact hcount _
        | some state =>
          dsimp only
          cases parseAuthorizeResponse line state <;> exact hcount _

/-! ## Interrupts -/

namespace Board

variable (s : Board α host cfg) (view : α → Word) (now : Word)

/-- The semaphore and the count of interrupts. -/
def irqs (s : Board α host cfg) : Bool × Nat := (s.gIrqSem, s.gStats.irqCount)

/-- The worker touches the semaphore where it takes it, and the count of interrupts nowhere. -/
theorem irqs_advance (hpc : s.pc ≠ .takeSem) : (s.advance view now).irqs = s.irqs :=
  Prod.ext (sem_advance s view now hpc) (irqCount_advance s view now)

/-- An interrupt that is processed has been counted, and gives the semaphore once. -/
theorem irq_step [Inhabited α] (obs : Engine → α) (a : Action host.instances) :
    (s.processesIrq a).toList.length + (s.step obs view a).gIrqSem.toNat + s.gStats.irqCount ≤
      s.gIrqSem.toNat + (s.step obs view a).gStats.irqCount := by
  have hnone : ∀ s' : Board α host cfg, s.processesIrq a = none → s'.irqs = s.irqs →
      (s.processesIrq a).toList.length + s'.gIrqSem.toNat + s.gStats.irqCount ≤ s.gIrqSem.toNat + s'.gStats.irqCount := by
    intro s' hp hs
    have hsem : s'.gIrqSem = s.gIrqSem := congrArg Prod.fst hs
    have hcount : s'.gStats.irqCount = s.gStats.irqCount := congrArg Prod.snd hs
    rw [hp, hsem, hcount, Option.toList_none, List.length_nil, Nat.zero_add]
  have h := acts_step s obs view a
  generalize s.step obs view a = s' at h ⊢
  cases h with
  | worker now hisr =>
    by_cases hpc : s.pc = .takeSem
    · rw [hpc]
      cases hsem : s.gIrqSem <;> simp [processesIrq, advance, apply, Pc.write, hisr, hpc, hsem]
    · rw [apply_eq]
      refine hnone _ ?_ (irqs_advance s view now hpc)
      cases hat : s.pc with
      | takeSem => exact absurd hat hpc
      | _ => simp only [processesIrq, hisr, hat]
  | handler i hisr =>
    rw [apply_eq]
    cases i with
    | give => cases s.gIrqSem <;> simp [processesIrq, handle, Nat.add_comm]
    | enter => simp only [handle]; split <;> exact hnone _ rfl rfl
    | mask inst => simp only [handle]; split <;> exact hnone _ rfl rfl
    | maskWrite inst control => exact hnone _ rfl rfl
  | service inst w hisr => exact hnone _ rfl rfl
  | none a hno =>
    refine hnone s ?_ rfl
    unfold processesIrq
    split
    · obtain h | h | h := hno
      · cases h
      · cases h
      · exact absurd ‹_› h
    · rfl
  | _ => exact hnone _ rfl rfl

end Board

/-! ## Whole runs -/

namespace Client

/-- The session with the pool is usable for mining. -/
def attached (s : Client α host cfg) : Bool := decide (s.pc ≠ .connect) && s.session.state.usable

/-- What the LEDs show. -/
structure Tells (leds : StatusLeds) (irqs : Nat) (s : Client α host cfg) : Prop where
  shown : leds = showing (decide (s.pc ≠ .connect)) s.notifies.length irqs s.attached
  notifies : s.debug.notifyCount = s.notifies.length
  subscribed : s.session.state.subscribed = true → (s.conn, s.session.state.extranonce1) ∈ s.subscriptions

section Steps

variable {leds : StatusLeds} {irqs : Nat} {s s' : Client α host cfg}

/-- Where the connection stays and no line is handled, at most the counter of the session changes. -/
theorem Tells.keep (h : Tells leds irqs s) (hpc : s'.pc = .connect ↔ s.pc = .connect) (hconn : s'.conn = s.conn)
    (hlogs : s'.notifies = s.notifies ∧ s'.subscriptions = s.subscriptions) (hdebug : s'.debug = s.debug)
    (hstate : ∃ c, s'.session.state = { s.session.state with extranonce2Counter := c }) : Tells leds irqs s' := by
  obtain ⟨c, hc⟩ := hstate
  have hconnected : decide (s'.pc ≠ .connect) = decide (s.pc ≠ .connect) := by simp only [ne_eq, hpc]
  constructor
  case shown =>
    rw [h.shown, attached, attached, hconnected, hlogs.1, hc]
    rfl
  case notifies => rw [hdebug, hlogs.1, h.notifies]
  case subscribed =>
    rw [hc, hconn, hlogs.2]
    exact h.subscribed

/-- The connection ends. -/
theorem Tells.leave (h : Tells leds irqs s) :
    Tells (ledsAfter [.setPoolR5Connected false, .setPoolAttached false] leds) irqs { s with pc := .connect } := by
  constructor
  case shown =>
    rw [h.shown]
    simp [ledsAfter, attached]
  case notifies => exact h.notifies
  case subscribed => exact h.subscribed

/-- A connection is made. -/
theorem Tells.accept (h : Tells leds irqs s) (mem : LineMem) :
    Tells (ledsAfter [.setPoolR5Connected true, .setPoolAttached false] leds) irqs (s.accept mem) := by
  constructor
  case shown =>
    rw [h.shown]
    simp [ledsAfter, attached, Client.accept, StratumSession.fresh, StratumState.usable]
  case notifies => exact h.notifies
  case subscribed => exact fun hs => by cases hs

/-- A character, and the line that it ends. -/
theorem Tells.receive (h : Tells leds irqs s) (hpc : s.pc = .recv) (strtod : List Char → Rat) (ch : Char) :
    Tells (ledsAfter ((s.buffer.receive ch).2.elim [] fun line => lineCalls line s.session) leds) irqs
      (s.receive strtod ch) := by
  unfold Client.receive
  cases hr : s.buffer.receive ch with
  | mk buffer o =>
    cases o with
    | none => exact h.keep Iff.rfl rfl ⟨rfl, rfl⟩ rfl ⟨_, rfl⟩
    | some line =>
      have hconnected : decide (s.pc ≠ .connect) = true := by rw [hpc]; rfl
      have hattached : s.attached = s.session.state.usable := by rw [attached, hconnected, Bool.true_and]
      have hgoes : ∀ c : Bool, (if c then tryDispatch host.instances (handleStratumLine strtod line s.session s.debug).1
          else .drain) ≠ ClientPc.connect := by
        intro c
        unfold tryDispatch
        split <;> [split <;> [skip; split]; skip] <;> nofun
      constructor
      case shown =>
        rw [h.shown, hconnected, hattached]
        refine (leds_line _ _ _ strtod line s.session s.debug).trans ?_
        simp only [attached, Client.handle, List.length_append, List.length_map]
        rw [decide_eq_true (hgoes _), Bool.true_and]
      case notifies =>
        simp only [Client.handle, List.length_append, List.length_map]
        rw [handle_notifyCount, h.notifies]
      case subscribed =>
        intro hs
        rcases @handle_subscription line s.session s.debug strtod with hnew | ⟨hsame, hsub⟩
        · refine List.mem_append_right _ ?_
          rw [hnew]
          exact List.mem_singleton_self _
        · refine List.mem_append_left _ ?_
          have hold := h.subscribed (hsub.symm.trans hs)
          rw [← hsame] at hold
          exact hold

variable [Inhabited α] {obs : Engine → α} {view : α → Word} {strtod : List Char → Rat}

theorem dispatch_keeps (notify : StratumNotify) (cleanJob : Bool) :
    let s' := (s.dispatch obs view notify cleanJob).2
    s'.pc = s.pc ∧ s'.conn = s.conn ∧ (s'.notifies = s.notifies ∧ s'.subscriptions = s.subscriptions) ∧
      s'.debug = s.debug ∧ ∃ c, s'.session.state = { s.session.state with extranonce2Counter := c } := by
  have hstate := Sw.buildJob_state notify s.session.state
  unfold Client.dispatch dispatchNotifyWork
  cases (buildJob notify s.session.state).1 <;> exact ⟨rfl, rfl, ⟨rfl, rfl⟩, rfl, hstate⟩

/-- A step of the task. -/
theorem Tells.task (h : Tells leds irqs s) (net : NetEvent) :
    Tells (ledsAfter (s.taskCalls net) leds) irqs (s.task obs view strtod net) := by
  unfold Client.task taskCalls
  cases hpc : s.pc with
  | connect =>
    cases net with
    | accept mem =>
      dsimp only
      split
      · exact h.accept mem
      · exact h
    | recv event => exact h
    | error => exact h
  | recv =>
    dsimp only
    split
    · exact h.leave
    · cases net with
      | accept mem => exact h
      | error => exact h.leave
      | recv event =>
        cases event with
        | timeout => exact h.keep (by rw [hpc]; exact ⟨nofun, nofun⟩) rfl ⟨rfl, rfl⟩ rfl ⟨_, rfl⟩
        | char ch => exact h.receive hpc strtod ch
  | clear l =>
    cases l with
    | nil => exact h.keep (by rw [hpc]; exact ⟨nofun, nofun⟩) rfl ⟨rfl, rfl⟩ rfl ⟨_, rfl⟩
    | cons x l => exact h.keep (by rw [hpc]; exact ⟨nofun, nofun⟩) rfl ⟨rfl, rfl⟩ rfl ⟨_, rfl⟩
  | dispatchPending =>
    dsimp only
    unfold Client.dispatchPending
    split
    · exact h.keep (by rw [hpc]; exact ⟨nofun, nofun⟩) rfl ⟨rfl, rfl⟩ rfl ⟨_, rfl⟩
    · rename_i notify _
      obtain ⟨-, hconn, hlogs, hdebug, hstate⟩ := @dispatch_keeps _ _ _ s _ obs view notify notify.cleanJobs
      split
      · rename_i s' hs'
        rw [hs'] at hconn hlogs hdebug hstate
        exact h.keep (by rw [hpc]; exact ⟨nofun, nofun⟩) hconn hlogs hdebug hstate
      · rename_i job s' hs'
        rw [hs'] at hconn hlogs hdebug hstate
        exact h.keep (by rw [hpc]; exact ⟨nofun, nofun⟩) hconn hlogs hdebug hstate
  | drain =>
    dsimp only
    split
    · exact h.keep Iff.rfl rfl ⟨rfl, rfl⟩ rfl ⟨_, rfl⟩
    · split <;> exact h.keep (by rw [hpc]; exact ⟨nofun, nofun⟩) rfl ⟨rfl, rfl⟩ rfl ⟨_, rfl⟩
  | refill inst acc =>
    dsimp only
    split
    · exact h.keep (by rw [hpc]; exact ⟨nofun, nofun⟩) rfl ⟨rfl, rfl⟩ rfl ⟨_, rfl⟩
    · split <;> exact h.keep (by rw [hpc]; exact ⟨nofun, nofun⟩) rfl ⟨rfl, rfl⟩ rfl ⟨_, rfl⟩
  | dispatchCurrent =>
    dsimp only
    unfold Client.dispatchCurrent
    split
    · exact h.keep (by rw [hpc]; exact ⟨nofun, nofun⟩) rfl ⟨rfl, rfl⟩ rfl ⟨_, rfl⟩
    · rename_i notify _
      obtain ⟨-, hconn, hlogs, hdebug, hstate⟩ := @dispatch_keeps _ _ _ s _ obs view notify false
      exact h.keep (by rw [hpc]; exact ⟨nofun, nofun⟩) hconn hlogs hdebug hstate

/-- An action of the system. -/
theorem Tells.step (h : Tells leds irqs s) (a : ClientAction host.instances) :
    Tells (ledsAfter (s.ledCalls a) leds) (irqs + (s.processesIrq a).toList.length)
      (s.step obs view strtod a) := by
  have hboard : ∀ b : Action host.instances,
      Tells (ledsAfter ((s.board.processesIrq b).toList.map fun _ => .toggleIrqProcessed) leds)
      (irqs + (s.board.processesIrq b).toList.length)
      { s with board := s.board.step obs view b, taken := s.taken || s.board.takes b } := by
    intro b
    cases s.board.processesIrq b with
    | none => exact h.keep Iff.rfl rfl ⟨rfl, rfl⟩ rfl ⟨_, rfl⟩
    | some u =>
      refine ⟨?_, h.notifies, h.subscribed⟩
      rw [h.shown]
      exact apply_irq ..
  cases a with
  | board b =>
    cases b with
    | submitJob | takeResult => exact h
    | _ => exact hboard _
  | task net =>
    cases hisr : s.board.isr with
    | some i =>
      simp only [Client.step, ledCalls, hisr]
      exact h
    | none =>
      simp only [Client.step, ledCalls, hisr]
      exact h.task net
  | requestConnect | requestDisconnect | setConfig => exact h.keep Iff.rfl rfl ⟨rfl, rfl⟩ rfl ⟨_, rfl⟩

/-- An interrupt is counted before it is processed. -/
theorem processed_step (a : ClientAction host.instances) :
    (s.processesIrq a).toList.length + (s.step obs view strtod a).board.gIrqSem.toNat + s.board.gStats.irqCount ≤
      s.board.gIrqSem.toNat + (s.step obs view strtod a).board.gStats.irqCount := by
  have hboard := (@records_step _ _ _ _ obs view strtod s a).board
  cases hact : s.boardAction a with
  | none =>
    rw [hact, Option.elim_none] at hboard
    have hnone : s.processesIrq a = none := by
      cases a with
      | board b => cases b <;> first | rfl | cases hact
      | _ => rfl
    rw [hboard, hnone, Option.toList_none, List.length_nil, Nat.zero_add]
  | some b =>
    rw [hact, Option.elim_some] at hboard
    have hstep := s.board.irq_step view obs b
    rw [← hboard] at hstep
    cases a with
    | board b' =>
      have hb : b' = b := by
        unfold boardAction at hact
        split at hact <;> simp_all
      rw [← hb] at hstep
      exact hstep
    | _ =>
      simp only [processesIrq, Option.toList_none, List.length_nil]
      omega

end Steps

/-- How the LEDs keep up with a run. -/
structure LedsTruthful (obs : Engine → α) (view : α → Word) (strtod : List Char → Rat)
    (acts : Nat → ClientAction host.instances) (s : Client α host cfg) [Inhabited α] : Prop where
  /-- DS6 is lit while a connection is open, DS3 while its session is subscribed and authorized; DS5 and DS4 have
  toggled once for each notify that was stored and each interrupt that was processed. -/
  shown : ∀ n, s.leds obs view strtod acts n =
    let s' := run (step obs view strtod) acts s n
    .write (flags [decide (s'.pc ≠ .connect), s'.notifies.length.bodd,
      (events (step obs view strtod) processesIrq acts s n).length.bodd,
      decide (s'.pc ≠ .connect) && s'.session.state.subscribed && s'.session.state.authorized])
  /-- The notifies are those of the counter, taken as unbounded, whatever connection they came on. -/
  notifies : ∀ n, (run (step obs view strtod) acts s n).debug.notifyCount =
    (run (step obs view strtod) acts s n).notifies.length
  /-- No interrupt is processed that has not been counted (without end), and one that waits is not processed yet. -/
  processed : ∀ n, (events (step obs view strtod) processesIrq acts s n).length +
    (run (step obs view strtod) acts s n).board.gIrqSem.toNat ≤ (run (step obs view strtod) acts s n).board.gStats.irqCount
  /-- A subscription is one that the pool has sent on the present connection. -/
  subscribed : ∀ n, let s' := run (step obs view strtod) acts s n
    s'.session.state.subscribed = true → (s'.conn, s'.session.state.extranonce1) ∈ s'.subscriptions

/-- **The LEDs tell the truth** in every run. -/
theorem leds_truthful [Inhabited α] (obs : Engine → α) (view : α → Word) (strtod : List Char → Rat)
    (engines : Fin host.instances → Fin cfg.numEngines → Engine) (config : StratumConfig) (mem : LineMem)
    (acts : Nat → ClientAction host.instances) :
    LedsTruthful obs view strtod acts (reset engines config mem : Client α host cfg) := by
  have htells : ∀ n, Tells (leds obs view strtod acts (reset engines config mem : Client α host cfg) n)
      (events (step obs view strtod) processesIrq acts (reset engines config mem) n).length
      (run (step obs view strtod) acts (reset engines config mem) n) := by
    intro n
    induction n with
    | zero =>
      have hinit : StatusLeds.init = showing false 0 0 false := by decide
      exact ⟨by simpa [leds, attached, reset] using hinit, rfl, fun hs => by cases hs⟩
    | succ n ih =>
      rw [run_succ, events_succ, List.length_append]
      exact ih.step (acts n)
  constructor
  case shown =>
    intro n
    dsimp only
    rw [(htells n).shown, attached, StratumState.usable, ← Bool.and_assoc]
    rfl
  case notifies => exact fun n => (htells n).notifies
  case subscribed => exact fun n => (htells n).subscribed
  case processed =>
    intro n
    induction n with
    | zero => exact Nat.le_refl 0
    | succ n ih =>
      have hn := @processed_step _ _ _ (run (step obs view strtod) acts (reset engines config mem : Client α host cfg) n)
        _ obs view strtod (acts n)
      rw [run_succ, events_succ, List.length_append]
      omega

end Client

end Vek280Miner
