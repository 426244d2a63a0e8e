import Vek280Miner.Board.ClientRun
import Vek280Miner.Board.Instances
import Vek280Miner.Board.ResultEvents
import Vek280Miner.Board.SessionInvariant

/-!
# Sessions

A connection begins with a new session, but the queues of the miner service, the active job and the engines stay as they
are. A submission is for a job of its own connection in every run in which nothing of an earlier connection is waiting
in the service when a connection is made, and the worker reports no result before it has taken a job of the connection
(`sessions_isolated`). In general it is not: a result that is still in the queue is submitted on the next connection
(`old_result_submitted`).
-/

namespace Vek280Miner

open Rtl Sw Board

namespace Client

variable {host : HostCfg} {cfg : MinerCfg}

/-! ## The job of the nonce -/

section Names

variable {s : Client Traced host cfg} {strtod : List Char → Rat}

/-- Every event that is sent, waits or has been submitted names the job of its nonce. -/
structure Named (s : Client Traced host cfg) : Prop where
  attributed : s.board.Attributed
  events : ∀ event ∈ s.board.gResultQueue, event.NamesItsJob
  submits : ∀ submit ∈ s.submits, submit.event.NamesItsJob

/-- A start that the worker writes finds its instance at rest. -/
def Rests (a : ClientAction host.instances) (s : Client Traced host cfg) : Prop :=
  ∀ b, a = .board b → Board.StartsAtRest b s.board

/-- The events in the queue after an action have been there or have just been sent. -/
theorem events_step (s : Board Traced host cfg) (a : Action host.instances) {event : ResultEvent Traced}
    (h : event ∈ (s.step traced Prod.fst a).gResultQueue) :
    event ∈ s.gResultQueue ∨ event ∈ (s.step traced Prod.fst a).sent := by
  have hother : (∀ job cleanJob, a ≠ .submitJob job cleanJob) → a ≠ .takeResult →
      event ∈ s.gResultQueue ∨ event ∈ (s.step traced Prod.fst a).sent := by
    intro hs ht
    rcases (Board.follows_step s traced Prod.fst hs ht).events with ⟨hq, -⟩ | ⟨-, new, -, hq, hsent⟩
    · exact .inl (hq ▸ h)
    · rw [hq] at h
      rw [hsent]
      rcases List.mem_append.1 h with h | h
      · exact .inl h
      · exact .inr (List.mem_append_right _ h)
  cases a with
  | submitJob job cleanJob =>
    cases hisr : s.isr <;> simp only [Board.step, hisr] at h <;> exact .inl h
  | takeResult =>
    cases hisr : s.isr <;> simp only [Board.step, hisr] at h
    · exact .inl (List.mem_of_mem_tail h)
    · exact .inl h
  | _ => exact hother (fun _ _ h => by cases h) (fun h => by cases h)

theorem named_board (hb : s.board.Attributed) (he : ∀ event ∈ s.board.gResultQueue, event.NamesItsJob)
    {a : Action host.instances} (ha : Board.StartsAtRest a s.board) :
    (s.board.step traced Prod.fst a).Attributed ∧
      ∀ event ∈ (s.board.step traced Prod.fst a).gResultQueue, event.NamesItsJob := by
  have hstep := Board.attributed_step hb ha
  refine ⟨hstep, fun event h => ?_⟩
  rcases events_step s.board a h with h | h
  · exact he event h
  · exact hstep.sent event h

theorem named_step {a : ClientAction host.instances} (h : s.Named) (ha : s.Rests a) :
    (s.step traced Prod.fst strtod a).Named := by
  have hboard : ∀ b, Board.StartsAtRest b s.board → (s.board.step traced Prod.fst b).Attributed ∧
      ∀ event ∈ (s.board.step traced Prod.fst b).gResultQueue, event.NamesItsJob :=
    fun b hb => named_board h.attributed h.events hb
  cases a with
  | board b =>
    cases b with
    | submitJob => exact h
    | takeResult => exact h
    | _ => exact ⟨(hboard _ (ha _ rfl)).1, (hboard _ (ha _ rfl)).2, h.submits⟩
  | task net =>
    simp only [Client.step]
    split
    · exact h
    · have huses := @uses_task _ _ _ _ traced Prod.fst strtod s net
      have hsubmits : ∀ submit ∈ (s.task traced Prod.fst strtod net).submits, submit.event.NamesItsJob := by
        intro submit hs
        rcases huses.submits submit hs with hs | hs
        · exact h.submits submit hs
        · exact h.events _ hs
      rcases huses.board with hb | ⟨b, hb, hworker⟩
      · exact ⟨hb ▸ h.attributed, hb ▸ h.events, hsubmits⟩
      · have hrest : Board.StartsAtRest b s.board := by
          intro w hw
          cases b with
          | worker now => exact absurd rfl (hworker now)
          | _ => cases hw
        obtain ⟨hattr, hevents⟩ := hboard b hrest
        exact ⟨hb ▸ hattr, hb ▸ hevents, hsubmits⟩
  | requestConnect | requestDisconnect | setConfig => exact ⟨h.attributed, h.events, h.submits⟩

theorem named_reset (engines : Fin host.instances → Fin cfg.numEngines → Engine) (config : StratumConfig) (mem : LineMem) :
    Named (reset engines config mem : Client Traced host cfg) :=
  ⟨Board.attributed_reset engines, fun _ h => (by cases h), fun _ h => (by cases h)⟩

/-- **Sessions are isolated.** In every run whose steps keep the sessions apart, every submission is for a job that was
built on its connection, from a notify and with an extranonce1 received on it. If in addition every start that the
worker writes finds its instance at rest, the nonce was evaluated under that very job. -/
theorem sessions_isolated (engines : Fin host.instances → Fin cfg.numEngines → Engine) (config : StratumConfig) (mem : LineMem)
    (strtod : List Char → Rat) (acts : Nat → ClientAction host.instances) (n : Nat)
    (h : ∀ t < n, Isolates (acts t)
      (Clocked.run (step traced Prod.fst strtod) acts (reset engines config mem : Client Traced host cfg) t)) :
    let st := Clocked.run (step traced Prod.fst strtod) acts (reset engines config mem : Client Traced host cfg)
    (∀ submit ∈ (st n).submits, (st n).FromConnection submit) ∧
      ((∀ t < n, Rests (acts t) (st t)) → ∀ submit ∈ (st n).submits, submit.event.NamesItsJob) := by
  intro st
  have hiso := Clocked.run_guarded (G := Isolates) (isolated_reset engines config mem) (fun _ _ => isolated_step) h n le_rfl
  refine ⟨fun submit hs => hiso.fromConnection hs, fun hrest => ?_⟩
  have hnamed := Clocked.run_guarded (G := Rests) (named_reset engines config mem) (fun _ _ => named_step) hrest n le_rfl
  exact hnamed.submits

end Names

/-! ## The session of the mock pool -/

/-- The first connection is open, and the board has not been used. -/
structure Opened (pc : ClientPc oneInstance.instances) (session : StratumSession) (mem : List Char)
    (s : Client Traced oneInstance oneEngine) : Prop where
  board : s.board = Board.reset fun _ _ => default
  pc : s.pc = pc
  requested : s.gConnectRequested = true
  stays : s.gDisconnectRequested = false
  session : s.session = session
  used : s.buffer.used = 0
  line : s.buffer.line = mem
  conn : s.conn = 1
  built : s.built = []
  submits : s.submits = []

/-- A line that fits the buffer takes the session from one state to the next, and a dispatch follows. -/
def Leads (text mem : List Char) (session session' : StratumSession) : Prop :=
  (text.all (fun ch => ch != '\n' && ch != '\r') && text.length < stratumLineBufferBytes) = true ∧
    (handleStratumLine (fun _ => 1) (stored text mem) session .fresh).1 = session' ∧
    (handleStratumLine (fun _ => 1) (stored text mem) session .fresh).2.2 = true

instance Leads.decidable (text mem : List Char) (session session' : StratumSession) :
    Decidable (Leads text mem session session') := inferInstanceAs (Decidable (_ ∧ _ ∧ _))

/-- A text is received as a line. -/
def receiveLine (text : List Char) : List (ClientAction oneInstance.instances) := receiveText oneInstance (text ++ ['\n'])

section Opened

variable {session session' : StratumSession} {mem text : List Char} {s : Client Traced oneInstance oneEngine}

theorem Opened.receives (h : Opened .recv session mem s) (hleads : Leads text mem session session') :
    Opened (tryDispatch _ session') session' (stored text mem) (playClient (receiveLine text) s) := by
  obtain ⟨hfits, hsession, hdispatch⟩ := hleads
  obtain ⟨hall, hlen⟩ := Bool.and_eq_true_iff.1 hfits
  have htext : ∀ ch ∈ text, ch ≠ '\n' ∧ ch ≠ '\r' := by
    intro ch hch
    simpa using List.all_eq_true.1 hall ch hch
  obtain ⟨buffer, hused, hline, hplay⟩ :=
    receive_line h.pc h.stays (by rw [h.board]; rfl) h.used htext (of_decide_eq_true hlen)
  rw [h.line] at hline
  obtain ⟨hs, hd⟩ := @handle_debug (stored text mem) session (fun _ => 1) s.debug .fresh
  rw [hsession] at hs
  rw [hdispatch] at hd
  rw [receiveLine, hplay]
  refine ⟨h.board, ?_, h.requested, h.stays, ?_, hused, hline, h.conn, h.built, h.submits⟩
  · simp only [Client.handle, hline, h.session, hs, hd, if_true]
  · simp only [Client.handle, hline, h.session, hs]

theorem Opened.goes_on (h : Opened .drain session mem s) (hc : session.currentNotify = none) :
    Opened .recv session mem (playClient [goOn] s) := by
  rw [drain_empty h.pc (by rw [h.board]; rfl) (by rw [h.board]; rfl) (by rw [h.session]; exact hc)]
  exact ⟨h.board, rfl, h.requested, h.stays, h.session, h.used, h.line, h.conn, h.built, h.submits⟩

end Opened

def subscribeResponse : List Char :=
  "\x7b\"id\":1,\"result\":[[[\"mining.notify\",\"easy-test\"]],\"abcd1234\",8],\"error\":null\x7d".toList

def setTarget : List Char :=
  "\x7b\"id\":null,\"method\":\"mining.set_target\",\"params\":[\"".toList ++ List.replicate 64 'f' ++ "\"]\x7d".toList

def authorizeResponse : List Char := "\x7b\"id\":2,\"result\":true,\"error\":null\x7d".toList

def notifyLine : List Char :=
  "\x7b\"id\":null,\"method\":\"mining.notify\",\"params\":[\"easy0001\",\"".toList ++ List.replicate 64 '0' ++
    "\",\"01000000\",\"\",[],\"20000000\",\"207fffff\",\"65f0e100\",false]\x7d".toList

/-- The notify of that line. -/
def poolNotify : StratumNotify := { mockNotify zeroPrevhash with cleanJobs := false }

/-- The session after each of the lines. -/
def subscribed : StratumSession :=
  ⟨{ mockState with target := 0, authorized := false, haveTarget := false }, none, none⟩

def targeted : StratumSession :=
  ⟨{ subscribed.state with target := packWords (List.replicate 32 0xff), haveTarget := true }, none, none⟩

def authorized : StratumSession := ⟨{ targeted.state with authorized := true }, none, none⟩

def notified : StratumSession := { authorized with pendingNotify := some poolNotify }

def zeroMem : LineMem := ⟨List.replicate stratumLineBufferBytes '\x00', List.length_replicate⟩

theorem leads_subscribe : Leads subscribeResponse zeroMem .fresh subscribed := by
  unfold subscribeResponse
  dsimp only [String.reduceToList]
  decide +kernel

theorem leads_target : Leads setTarget (stored subscribeResponse zeroMem) subscribed targeted := by
  unfold setTarget
  dsimp only [String.reduceToList]
  decide +kernel

theorem leads_authorize :
    Leads authorizeResponse (stored setTarget (stored subscribeResponse zeroMem)) targeted authorized := by
  unfold authorizeResponse
  dsimp only [String.reduceToList]
  decide +kernel

theorem leads_notify :
    Leads notifyLine (stored authorizeResponse (stored setTarget (stored subscribeResponse zeroMem))) authorized notified := by
  unfold notifyLine
  dsimp only [String.reduceToList]
  decide +kernel

/-- The client before its first connection. -/
def beginning : Client Traced oneInstance oneEngine := reset (fun _ _ => default) ⟨⟨"user".toList, by decide⟩⟩ zeroMem

/-- The connection is made and the lines are received. -/
def openSession : List (ClientAction oneInstance.instances) :=
  [.requestConnect, .task (.accept zeroMem)] ++ (receiveLine subscribeResponse ++ [goOn]) ++ (receiveLine setTarget ++ [goOn]) ++
    (receiveLine authorizeResponse ++ [goOn]) ++ receiveLine notifyLine

theorem opened : ∃ mem, Opened .dispatchPending notified mem (playClient openSession beginning) := by
  have h0 : Opened .recv .fresh zeroMem (playClient [.requestConnect, .task (.accept zeroMem)] beginning) :=
    ⟨rfl, rfl, rfl, rfl, rfl, rfl, rfl, rfl, rfl, rfl⟩
  have h1 := (h0.receives leads_subscribe).goes_on rfl
  have h2 := (h1.receives leads_target).goes_on rfl
  have h3 := (h2.receives leads_authorize).goes_on rfl
  have h4 := h3.receives leads_notify
  simp only [openSession, playClient_append]
  exact ⟨_, h4⟩

/-! ## Its jobs -/

/-- The merkle root of the second job. -/
def poolRoot : List Byte :=
  [138, 128, 104, 27, 246, 154, 195, 65, 123, 84, 172, 172, 63, 190, 130, 35, 240, 204, 68, 87, 23, 73, 120, 154, 214, 194,
    232, 139, 19, 162, 219, 30]

/-- The header of the second job. -/
def poolHeader : List Byte :=
  assembleHeader [0, 0, 0, 0x20] (List.replicate 32 0) poolRoot [0x00, 0xe1, 0xf0, 0x65] [0xff, 0xff, 0x7f, 0x20]

/-- The second job. -/
def poolJob : MinerJob where
  midstate := ![1262946974, 3759294923, 1172248638, 1025240137, 2308988136, 3550703238, 2909404115, 2333569889]
  headerTail := ![329440030, 14807141, 4294934304, 0]
  target := fun _ => 0xffffffff
  nonceStart := 0
  nonceCount := 0xffffffff
  jobId := poolNotify.jobId
  extranonce2 := ⟨"0000000000000001".toList, by decide⟩
  ntime := poolNotify.ntime

theorem first_job : ∃ job, (buildJob poolNotify authorized.state).1 = some job := by
  have hs : (jobHeader poolNotify authorized.state).isSome := by
    have hc : jobCoinbase poolNotify authorized.state = some mockCoinbase := by decide +kernel
    rw [jobHeader, hc, Option.bind_some]
    exact headerBytes_isSome rfl (p := List.replicate 32 0) (by decide +kernel)
  exact Option.isSome_iff_exists.1 (buildJob_isSome_iff.2 ⟨rfl, rfl, rfl, hs⟩)

theorem midstate_poolHeader : bitcoinHeaderMidstate poolHeader = poolJob.midstate := by decide +kernel

theorem second_job : (buildJob poolNotify (buildJob poolNotify authorized.state).2).1 = some poolJob := by
  let state : StratumState := { authorized.state with extranonce2Counter := 1 }
  have hstate : (buildJob poolNotify authorized.state).2 = state := rfl
  have hh : jobHeader poolNotify state = some poolHeader := by decide +kernel
  obtain ⟨job, hj⟩ := Option.isSome_iff_exists.1
    (buildJob_isSome_iff.2 ⟨rfl, rfl, rfl, by rw [hh]; rfl⟩ : (buildJob poolNotify state).1.isSome)
  obtain ⟨header, hh', rfl⟩ := buildJob_some hj
  obtain rfl := Option.some.inj (hh.symm.trans hh')
  have htail : bitcoinHeaderTailWords poolHeader = poolJob.headerTail := by decide +kernel
  have htarget : state.target = poolJob.target := by decide +kernel
  have htext : jobExtranonce2 state = "0000000000000001".toList := by decide +kernel
  rw [hstate, hj, jobOfHeader, midstate_poolHeader, htail, htarget, htext]
  rfl

/-- The board with the second job in the queue. -/
def queued : Board Traced oneInstance oneEngine :=
  ((Board.reset fun _ _ => default).step traced Prod.fst (.submitJob zeroJob false)).step traced Prod.fst
    (.submitJob poolJob false)

/-- A job in the queue is overwritten by the next. -/
theorem submit_again {s : Board Traced host cfg} (h : s.isr = none) (job job' next : MinerJob) :
    (s.step traced Prod.fst (.submitJob job false)).step traced Prod.fst (.submitJob next false) =
      (s.step traced Prod.fst (.submitJob job' false)).step traced Prod.fst (.submitJob next false) := by
  simp only [Board.step, h]

/-- The first connection is open and has built jobs; nothing has been submitted. -/
structure Working (board : Board Traced oneInstance oneEngine) (s : Client Traced oneInstance oneEngine) : Prop where
  board : s.board = board
  pc : s.pc = .recv
  requested : s.gConnectRequested = true
  stays : s.gDisconnectRequested = false
  conn : s.conn = 1
  built : ∀ b ∈ s.built, b.conn = 1
  submits : s.submits = []

theorem Working.plays {board : Board Traced oneInstance oneEngine} {s : Client Traced oneInstance oneEngine}
    (h : Working board s) {acts : List (Action oneInstance.instances)} (ha : acts.all Action.ofBoard = true) :
    Working (play acts board) (playClient (acts.map .board) s) := by
  rw [playClient_board acts ha, ← h.board]
  exact ⟨rfl, h.pc, h.requested, h.stays, h.conn, h.built, h.submits⟩

theorem Opened.dispatches {mem : List Char} {s : Client Traced oneInstance oneEngine}
    (h : Opened .dispatchPending notified mem s) : Working queued (playClient dispatchTwice s) := by
  obtain ⟨job, hjob⟩ := first_job
  have hstate : notified.state = authorized.state := rfl
  have hisr : s.board.isr = none := by rw [h.board]; rfl
  have hidle : (StatusAcc.init.next (s.board.read Prod.fst instance0 minerRegStatus)).result &&& minerStatusRunning = 0 := by
    rw [h.board]
    decide +kernel
  have hpending : s.session.pendingNotify = some poolNotify := by rw [h.session]; rfl
  have hfirst : (buildJob poolNotify s.session.state).1 = some job := by rw [h.session, hstate]; exact hjob
  have hsecond : (buildJob poolNotify (buildJob poolNotify s.session.state).2).1 = some poolJob := by
    rw [h.session, hstate]
    exact second_job
  obtain ⟨session, hplay⟩ := dispatch_twice h.pc hisr (by rw [h.board]; rfl) hidle hpending hfirst hsecond
  rw [hplay]
  refine ⟨?_, rfl, h.requested, h.stays, h.conn, ?_, h.submits⟩
  · rw [queued, ← h.board]
    exact submit_again hisr job zeroJob poolJob
  · intro b hb
    simp only [h.built, h.conn, List.nil_append, List.cons_append, List.mem_cons, List.not_mem_nil, or_false] at hb
    rcases hb with rfl | rfl <;> rfl

theorem working_queued : Working queued (playClient (openSession ++ dispatchTwice) beginning) := by
  obtain ⟨mem, h⟩ := opened
  rw [playClient_append]
  exact h.dispatches

/-! ## The board finds a nonce -/

/-- The worker starts, takes the job, programs and starts it. -/
def launchJob : List (Action oneInstance.instances) := (List.replicate 32 access).flatten ++ [.edge]

/-- The engine evaluates the first nonce, and the worker reports it. -/
def findNonce : List (Action oneInstance.instances) := List.replicate (reportAge - 0) .edge ++ deliver

/-- The worker takes the job and starts it on an instance at rest, and reports nothing meanwhile. -/
theorem launchJob_run :
    Launched poolJob.latched 0 0xffffffff ⟨poolJob, false⟩ [] (play launchJob queued) ∧
    ((play launchJob queued).gJobQueue = none ∧ takesAlong launchJob queued = true) ∧
    Clocked.Along (Board.step traced Prod.fst) StartsAtRest launchJob queued ∧
    Clocked.Along (Board.step traced Prod.fst) (fun a b => b.reportsEvent a = false) launchJob queued := by
  decide +kernel

theorem overlap_launched : Overlap poolJob.latched 0 0xffffffff (pass1Digest poolJob.latched 0) ⟨poolJob, false⟩ [] 0
    (play launchJob queued) :=
  launchJob_run.1.overlap

theorem isr_worker {s : Board Traced host cfg} (h : s.isr = none) (n : Nat) :
    (play (List.replicate n (.worker 0)) s).isr = none := by
  induction n with
  | zero => exact h
  | succ n ih =>
    rw [List.replicate_succ', play_append]
    generalize play (List.replicate n (.worker 0)) s = s at ih
    show (s.step traced Prod.fst (.worker 0)).isr = none
    rw [step_worker ih, (frame_apply _ traced _).2, (frame_advance s Prod.fst 0).2, ih]

theorem isr_edges {s : Board Traced host cfg} (h : s.isr = none) (n : Nat) :
    (play (List.replicate n .edge) s).isr = none := by
  induction n with
  | zero => exact h
  | succ n ih =>
    rw [List.replicate_succ', play_append]
    exact ih

/-- The handler comes to its end. -/
theorem isr_wake {s : Board Traced oneInstance oneEngine} (h : s.isr = none) : (play wake s).isr = none := by
  cases henter : s.irqEnabled && s.irqLine with
  | false =>
    have hstep : s.step traced Prod.fst .interrupt = s := by simp [Board.step, h, henter]
    have hidle : s.step traced Prod.fst .handler = s := by simp [Board.step, h]
    have hwake : play wake s = s := by simp [wake, play, hstep, hidle]
    rw [hwake, h]
  | true =>
    obtain ⟨henabled, hline⟩ := Bool.and_eq_true_iff.1 henter
    cases hmasked : s.gIrqMasked with
    | false =>
      obtain ⟨k, hk⟩ := of_decide_eq_true hline
      obtain rfl : k = instance0 := Fin.ext (Nat.lt_one_iff.1 k.isLt)
      obtain ⟨control, hwake⟩ := handler_wakes h henabled hmasked hk
      rw [hwake]
      exact h
    | true =>
      -- the handler finds the flag set and only gives the semaphore
      let s2 : Board Traced oneInstance oneEngine :=
        { s with gIrqSem := true, gStats := { s.gStats with irqCount := s.gStats.irqCount + 1 } }
      have h1 : s.step traced Prod.fst .interrupt = { s with isr := some .enter } := by simp [Board.step, h, henter]
      have h2 : ({ s with isr := some .enter } : Board Traced oneInstance oneEngine).step traced Prod.fst .handler =
          { s with isr := some .give } := if_pos hmasked
      have h3 : ({ s with isr := some .give } : Board Traced oneInstance oneEngine).step traced Prod.fst .handler = s2 := by
        simp [Board.step, Board.handle, Board.apply, IsrPc.write, s2, h]
      have hidle : s2.step traced Prod.fst .handler = s2 := by simp [Board.step, s2, h]
      have hwake : play wake s = s2 := by
        simp only [wake, play, List.foldl_cons, List.foldl_nil, List.replicate, h1, h2, h3, hidle]
      rw [hwake]
      exact h

theorem isr_findNonce {s : Board Traced oneInstance oneEngine} (h : s.isr = none) : (play findNonce s).isr = none := by
  have hsplit : deliver = List.replicate 4 .edge ++ wake ++ List.replicate 7 (.worker 0) := rfl
  rw [findNonce, hsplit, play_append, play_append, play_append]
  exact isr_worker (isr_wake (isr_edges (isr_edges h _) _)) _

/-- As long as none is taken the queue holds all results. -/
theorem queue_play {s : Board Traced host cfg} {acts : List (Action host.instances)} (ha : acts.all Action.ofBoard = true)
    (h : s.gResultQueue = s.sent) : (play acts s).gResultQueue = (play acts s).sent := by
  induction acts generalizing s with
  | nil => exact h
  | cons a acts ih =>
    obtain ⟨ha, hacts⟩ := Bool.and_eq_true_iff.1 ha
    refine ih (s := s.step traced Prod.fst a) hacts ?_
    have hfollows := Board.follows_step s traced Prod.fst (a := a) (fun job cleanJob hj => by rw [hj] at ha; cases ha)
      (fun ht => by rw [ht] at ha; cases ha)
    rcases hfollows.events with ⟨hq, hs⟩ | ⟨-, event, -, hq, hs⟩
    · rw [hq, hs, h]
    · rw [hq, hs, h]

/-- The run up to the result. -/
def mineResult : List (ClientAction oneInstance.instances) :=
  openSession ++ dispatchTwice ++ (launchJob ++ findNonce).map .board

theorem ofBoard_launch : launchJob.all Action.ofBoard = true := by decide +kernel

theorem ofBoard_find : findNonce.all Action.ofBoard = true := by
  rw [findNonce, List.all_append, List.all_replicate]
  rfl

theorem ofBoard_mine : (launchJob ++ findNonce).all Action.ofBoard = true := by
  rw [List.all_append, ofBoard_launch, ofBoard_find]
  rfl

/-- A result for the second job is in the queue. -/
theorem result_waiting : ∃ board event, Working board (playClient mineResult beginning) ∧ board.isr = none ∧
    board.gResultQueue = [event] ∧ event.job = poolJob := by
  obtain ⟨result, -, hsent⟩ := overlap_launched.reports (by decide +kernel) (beValue_le_ones _)
  have hplay : play (launchJob ++ findNonce) queued = play findNonce (play launchJob queued) := play_append _ _ _
  have hqueue := queue_play (s := queued) ofBoard_mine rfl
  rw [hplay] at hqueue
  refine ⟨play (launchJob ++ findNonce) queued, ⟨result, poolJob, (0, poolJob.latched)⟩, ?_, ?_, ?_, rfl⟩
  · rw [mineResult, playClient_append]
    exact working_queued.plays ofBoard_mine
  · rw [hplay]
    exact isr_findNonce overlap_launched.worker.isr
  · rw [hplay, hqueue]
    exact hsent

/-- The result is submitted on the same connection. -/
def submitResult : List (ClientAction oneInstance.instances) := mineResult ++ [goOn, goOn]

/-- The action is a step of the task while the connection lasts. -/
def receives : ClientAction oneInstance.instances → Bool
  | .task (.recv _) => true
  | _ => false

/-- What holds of the two steps of the connect, of all that is received and of the actions of the board holds along the
run. -/
theorem along_submitResult {P : ClientAction oneInstance.instances → Client Traced oneInstance oneEngine → Prop}
    (hconnect : Clocked.Along (step traced Prod.fst fun _ => 1) P [.requestConnect, .task (.accept zeroMem)] beginning)
    (hrecv : ∀ event s, P (.task (.recv event)) s)
    (hboard : ∀ s : Client Traced oneInstance oneEngine, s.board = queued →
      Clocked.Along (step traced Prod.fst fun _ => 1) P ((launchJob ++ findNonce).map .board) s) :
    Clocked.Along (step traced Prod.fst fun _ => 1) P submitResult beginning := by
  have hall : ∀ {acts : List (ClientAction oneInstance.instances)}, acts.all receives = true →
      ∀ s, Clocked.Along (step traced Prod.fst fun _ => 1) P acts s := by
    intro acts h
    refine Clocked.along_of_forall fun a ha s => ?_
    have hreceives := List.all_eq_true.1 h a ha
    match a, hreceives with
    | .task (.recv event), _ => exact hrecv event s
  refine Clocked.along_append (Clocked.along_append (Clocked.along_append ?_ (hall rfl _))
    (hboard _ working_queued.board)) (hall rfl _)
  simp only [openSession, List.append_assoc]
  exact Clocked.along_append hconnect (hall (by decide +kernel) _)

/-- The board keeps the sessions apart once it has taken a job. -/
theorem isolates_taken {acts : List (Action host.instances)} (h : acts.all Action.ofBoard = true) {s : Client Traced host cfg}
    (ht : s.taken = true) : Clocked.Along (step traced Prod.fst fun _ => 1) Isolates (acts.map .board) s := by
  induction acts generalizing s with
  | nil => trivial
  | cons a acts ih =>
    obtain ⟨ha, hacts⟩ := Bool.and_eq_true_iff.1 h
    refine ⟨⟨nofun, fun _ _ _ _ => ht⟩, ih hacts ?_⟩
    rw [step_board ha]
    simp [ht]

theorem isolates_submitResult : Clocked.Along (step traced Prod.fst fun _ => 1) Isolates submitResult beginning := by
  refine along_submitResult ?_ (fun event s => ⟨nofun, nofun⟩) fun s hs => ?_
  · exact ⟨⟨nofun, nofun⟩, ⟨fun _ _ _ _ => ⟨rfl, rfl, rfl⟩, nofun⟩, trivial⟩
  · obtain ⟨-, ⟨-, htakes⟩, -, hreports⟩ := launchJob_run
    rw [List.map_append]
    refine Clocked.along_append ?_ (isolates_taken ofBoard_find ?_)
    · refine along_board (P := fun a b => b.reportsEvent a = false) (fun a s h => ⟨nofun, ?_⟩) ofBoard_launch ?_
      · rw [hs]
        exact hreports
      · intro b hb _ hr
        cases hb
        rw [h] at hr
        cases hr
    · show (playClient (launchJob.map .board) s).taken = true
      rw [playClient_board _ ofBoard_launch, hs, htakes, Bool.or_true]

theorem rests_submitResult : Clocked.Along (step traced Prod.fst fun _ => 1) Rests submitResult beginning := by
  refine along_submitResult ⟨nofun, nofun, trivial⟩ (fun event s => nofun) fun s hs => ?_
  refine along_board (P := StartsAtRest) (fun a s h b hb => by cases hb; exact h) ofBoard_mine ?_
  rw [hs]
  obtain ⟨-, ⟨hnone, -⟩, hlaunch, -⟩ := launchJob_run
  have hattr : queued.Attributed :=
    attributed_step (attributed_step (attributed_reset _) (by decide)) (by decide)
  refine Clocked.along_append hlaunch
    (NoRequest.along (noRequest_of_programmed hnone overlap_launched.worker.pc) ?_ ?_)
  · exact Clocked.along_guarded (fun _ _ => attributed_step) hattr hlaunch
  · intro a ha job cleanJob heq
    simp [heq, findNonce, deliver, wake] at ha

theorem Working.submits_result {board : Board Traced oneInstance oneEngine} {s : Client Traced oneInstance oneEngine}
    {event : ResultEvent Traced} {rest : List (ResultEvent Traced)} (hw : Working board s) (hisr : board.isr = none)
    (hqueue : board.gResultQueue = event :: rest) (hid : event.job.jobId.val ≠ []) :
    (playClient [goOn, goOn] s).submits ≠ [] := by
  have hisr' : s.board.isr = none := by rw [hw.board, hisr]
  have hdrain : playClient [goOn] s = { s with pc := .drain } := by
    rw [playClient_one, goOn, step_task hisr']
    simp only [Client.task, hw.pc, hw.stays]
    rfl
  have hsplit : playClient [goOn, goOn] s = playClient [goOn] (playClient [goOn] s) := rfl
  rw [hsplit, hdrain, drain_result (s := { s with pc := .drain }) rfl hisr' (by rw [hw.board]; exact hqueue)]
  simp [Client.submit, submitShare, hid]

theorem submits_submitResult : (playClient submitResult beginning).submits ≠ [] := by
  obtain ⟨board, event, hw, hisr, hqueue, hjob⟩ := result_waiting
  rw [submitResult, playClient_append]
  exact hw.submits_result hisr hqueue (by rw [hjob]; decide)

/-- The session of the mock pool, up to its first submission. -/
theorem mock_session_isolated :
    let s := Clocked.run (step traced Prod.fst fun _ => 1) (fun t => submitResult.getD t goOn)
      (reset (fun _ _ => default) ⟨⟨"user".toList, by decide⟩⟩ zeroMem : Client Traced oneInstance oneEngine)
      submitResult.length
    s.submits ≠ [] ∧ ∀ submit ∈ s.submits, s.FromConnection submit ∧ submit.event.NamesItsJob := by
  obtain ⟨hfrom, hnames⟩ := sessions_isolated _ _ _ _ _ _ (Clocked.along_run _ isolates_submitResult)
  refine ⟨?_, fun submit hs => ⟨hfrom submit hs, hnames (Clocked.along_run _ rests_submitResult) submit hs⟩⟩
  rw [Clocked.run_getD]
  exact submits_submitResult

/-- **Across connections.** The result of the first connection is submitted on the second. -/
theorem old_result_submitted : ¬ ∀ (host : HostCfg) (cfg : MinerCfg)
    (engines : Fin host.instances → Fin cfg.numEngines → Engine) (config : StratumConfig) (mem : LineMem)
    (strtod : List Char → Rat) (acts : Nat → ClientAction host.instances) (n : Nat),
    let s := Clocked.run (step traced Prod.fst strtod) acts (reset engines config mem : Client Traced host cfg) n
    ∀ submit ∈ s.submits, s.FromConnection submit := by
  intro h
  obtain ⟨board, event, hw, hisr, hqueue, hjob⟩ := result_waiting
  obtain ⟨line, hsubmits, hbuilt⟩ := submitted_after_reconnect hw.pc (by rw [hw.board]; exact hisr) hw.requested
    (by rw [hw.board]; exact hqueue) (by rw [hjob]; decide) zeroMem
  rw [← playClient_append] at hsubmits hbuilt
  have hrun := h oneInstance oneEngine (fun _ _ => default) ⟨⟨"user".toList, by decide⟩⟩ zeroMem (fun _ => 1)
    (fun t => (mineResult ++ (reconnect zeroMem ++ [goOn])).getD t goOn) (mineResult ++ (reconnect zeroMem ++ [goOn])).length
  rw [Clocked.run_getD] at hrun
  obtain ⟨b, hb, hconn, -⟩ := hrun ⟨2, event, line⟩ (by
    show _ ∈ (playClient (mineResult ++ (reconnect zeroMem ++ [goOn])) beginning).submits
    rw [hsubmits, hw.conn]
    exact List.mem_append_right _ (List.mem_singleton_self _))
  have hone : b.conn = 1 := hw.built b (hbuilt ▸ hb)
  have htwo : b.conn = 2 := hconn
  omega

end Client

end Vek280Miner
