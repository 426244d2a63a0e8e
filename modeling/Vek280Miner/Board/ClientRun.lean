import Vek280Miner.Board.Overlap
import Vek280Miner.Board.StratumTask

/-!
# Runs of the client

The client followed over a list of actions: a text that is received as a line (`receive_line`), actions of the board
alone (`playClient_board`), the way round the loop (`drain_empty`, `refill_idle`), the dispatch of a notify
(`dispatch_pending`, `dispatch_current`), and a connection that is lost and made again while a result is waiting
(`submitted_after_reconnect`). The number that `strtod` reads is one; no line with a
difficulty is received.
-/

namespace Vek280Miner

open Rtl Sw

/-- The action is not one of the client. -/
def Action.ofBoard {K : Nat} : Action K → Bool
  | .submitJob _ _ | .takeResult => false
  | _ => true

namespace Client

variable {host : HostCfg} {cfg : MinerCfg} {s : Client Traced host cfg}

/-- The client after a list of actions. -/
def playClient (acts : List (ClientAction host.instances)) (s : Client Traced host cfg) : Client Traced host cfg :=
  acts.foldl (fun s a => s.step traced Prod.fst (fun _ => 1) a) s

theorem playClient_append (acts acts' : List (ClientAction host.instances)) (s : Client Traced host cfg) :
    playClient (acts ++ acts') s = playClient acts' (playClient acts s) := List.foldl_append

theorem playClient_one (a : ClientAction host.instances) (s : Client Traced host cfg) :
    playClient [a] s = s.step traced Prod.fst (fun _ => 1) a := rfl

/-- The task makes a step when the handler does not run. -/
theorem step_task (hisr : s.board.isr = none) (net : NetEvent) :
    s.step traced Prod.fst (fun _ => 1) (.task net) = s.task traced Prod.fst (fun _ => 1) net := by
  simp [Client.step, hisr]

/-! ## A line -/

/-- The characters of a text are received. -/
def receiveText (host : HostCfg) (text : List Char) : List (ClientAction host.instances) :=
  text.map fun ch => .task (.recv (.char ch))

/-- A character goes to the buffer. -/
theorem receive_char (hpc : s.pc = .recv) (hd : s.gDisconnectRequested = false) (hisr : s.board.isr = none) (ch : Char) :
    playClient (receiveText host [ch]) s = s.receive (fun _ => 1) ch := by
  have hstep : playClient (receiveText host [ch]) s = s.task traced Prod.fst (fun _ => 1) (.recv (.char ch)) :=
    step_task hisr _
  rw [hstep]
  simp only [Client.task, hpc, hd]
  rfl

/-- The characters of a line are appended. -/
theorem receive_text (hpc : s.pc = .recv) (hd : s.gDisconnectRequested = false) (hisr : s.board.isr = none)
    (hused : s.buffer.used = 0) (text : List Char) :
    (∀ ch ∈ text, ch ≠ '\n' ∧ ch ≠ '\r') → text.length < stratumLineBufferBytes →
    ∃ buffer, playClient (receiveText host text) s = { s with buffer } ∧ buffer.used = text.length ∧
      buffer.line = text ++ s.buffer.line.drop text.length := by
  induction text using List.reverseRecOn with
  | nil => exact fun _ _ => ⟨s.buffer, rfl, hused, rfl⟩
  | append_singleton text ch ih =>
    intro htext hlen
    rw [List.length_append, List.length_singleton] at hlen
    obtain ⟨buffer, hplay, hlength, hline⟩ := ih (fun c hc => htext c (List.mem_append_left _ hc)) (by omega)
    obtain ⟨hn, hr⟩ := htext ch (List.mem_append_right _ (List.mem_singleton_self _))
    obtain ⟨hgiven, hused', hline'⟩ := LineBuffer.receive_room (b := buffer) hn hr (by omega)
    refine ⟨(buffer.receive ch).1, ?_, ?_, ?_⟩
    · have hrec : buffer.receive ch = ((buffer.receive ch).1, none) := Prod.ext rfl hgiven
      have hsplit : receiveText host (text ++ [ch]) = receiveText host text ++ receiveText host [ch] := List.map_append
      rw [hsplit, playClient_append, hplay, receive_char (s := { s with buffer }) hpc hd hisr, Client.receive, hrec]
    · rw [hused', hlength, List.length_append, List.length_singleton]
    · have hlt : text.length < s.buffer.line.length := by rw [s.buffer.length_line]; omega
      rw [hline', hline, hlength, List.set_append_right _ _ le_rfl, Nat.sub_self, List.drop_eq_getElem_cons hlt,
        List.set_cons_zero, List.length_append, List.length_singleton, List.append_assoc]
      rfl

/-- The memory of the buffer when a line has been received. -/
def stored (text mem : List Char) : List Char := text ++ '\x00' :: mem.drop (text.length + 1)

/-- A line is received and handled. -/
theorem receive_line (hpc : s.pc = .recv) (hd : s.gDisconnectRequested = false) (hisr : s.board.isr = none)
    (hused : s.buffer.used = 0) {text : List Char} (htext : ∀ ch ∈ text, ch ≠ '\n' ∧ ch ≠ '\r')
    (hlen : text.length < stratumLineBufferBytes) :
    ∃ buffer : LineBuffer, buffer.used = 0 ∧ buffer.line = stored text s.buffer.line ∧
      playClient (receiveText host (text ++ ['\n'])) s = ({ s with buffer }).handle (fun _ => 1) buffer.line := by
  obtain ⟨buffer, hplay, hlength, hline⟩ := receive_text hpc hd hisr hused text htext hlen
  refine ⟨(buffer.receive '\n').1, rfl, ?_, ?_⟩
  · have hlt : text.length < s.buffer.line.length := by rw [s.buffer.length_line]; omega
    have hset : (buffer.receive '\n').1.line = buffer.line.set buffer.used '\x00' := rfl
    rw [hset, hline, hlength, List.set_append_right _ _ le_rfl, Nat.sub_self, List.drop_eq_getElem_cons hlt,
      List.set_cons_zero, stored]
  · have hsplit : receiveText host (text ++ ['\n']) = receiveText host text ++ receiveText host ['\n'] := List.map_append
    rw [hsplit, playClient_append, hplay, receive_char (s := { s with buffer }) hpc hd hisr]
    rfl

/-! ## The board alone -/

/-- The worker takes a job in the run. -/
def takesAlong : List (Action host.instances) → Board Traced host cfg → Bool
  | [], _ => false
  | a :: acts, s => s.takes a || takesAlong acts (s.step traced Prod.fst a)

theorem step_board {a : Action host.instances} (ha : a.ofBoard = true) (s : Client Traced host cfg) :
    s.step traced Prod.fst (fun _ => 1) (.board a) =
      { s with board := s.board.step traced Prod.fst a, taken := s.taken || s.board.takes a } := by
  cases a <;> first | rfl | cases ha

/-- Meanwhile the client stands still. -/
theorem playClient_board (acts : List (Action host.instances)) (h : acts.all Action.ofBoard = true)
    (s : Client Traced host cfg) :
    playClient (acts.map .board) s =
      { s with board := play acts s.board, taken := s.taken || takesAlong acts s.board } := by
  induction acts generalizing s with
  | nil =>
    have htaken : (s.taken || takesAlong [] s.board) = s.taken := Bool.or_false _
    rw [htaken]
    rfl
  | cons a acts ih =>
    obtain ⟨ha, hacts⟩ := Bool.and_eq_true_iff.1 h
    have hcons : playClient ((a :: acts).map .board) s =
        playClient (acts.map .board) (s.step traced Prod.fst (fun _ => 1) (.board a)) := rfl
    rw [hcons, ih hacts, step_board ha]
    simp only [takesAlong, Bool.or_assoc]
    rfl

/-- What holds along a run of the board holds along the run of the client. -/
theorem along_board {P : Action host.instances → Board Traced host cfg → Prop}
    {Q : ClientAction host.instances → Client Traced host cfg → Prop} (hPQ : ∀ a s, P a s.board → Q (.board a) s)
    {acts : List (Action host.instances)} (h : acts.all Action.ofBoard = true)
    (hP : Clocked.Along (Board.step traced Prod.fst) P acts s.board) :
    Clocked.Along (step traced Prod.fst fun _ => 1) Q (acts.map .board) s := by
  induction acts generalizing s with
  | nil => trivial
  | cons a acts ih =>
    obtain ⟨ha, hacts⟩ := Bool.and_eq_true_iff.1 h
    refine ⟨hPQ a s hP.1, ?_⟩
    rw [step_board ha]
    exact ih hacts hP.2

/-! ## Around the loop -/

/-- The task goes on without a character. -/
def goOn : ClientAction host.instances := .task (.recv .timeout)

/-- With no result waiting and no current notify the task is back at the head of the loop. -/
theorem drain_empty (hpc : s.pc = .drain) (hisr : s.board.isr = none) (hq : s.board.gResultQueue = [])
    (hc : s.session.currentNotify = none) : playClient [goOn] s = { s with pc := .recv } := by
  rw [playClient_one, goOn, step_task hisr]
  simp only [Client.task, hpc, hq, hc]
  rfl

/-- A result that is waiting is submitted. -/
theorem drain_result {event : ResultEvent Traced} {rest : List (ResultEvent Traced)} (hpc : s.pc = .drain)
    (hisr : s.board.isr = none) (hq : s.board.gResultQueue = event :: rest) :
    playClient [goOn] s = s.submit traced Prod.fst event := by
  rw [playClient_one, goOn, step_task hisr]
  simp only [Client.task, hpc, hq]

/-- When no miner runs the current notify is to be dispatched once more. -/
theorem refill_idle {s : Client Traced oneInstance cfg} {notify : StratumNotify} (hpc : s.pc = .drain)
    (hisr : s.board.isr = none) (hq : s.board.gResultQueue = []) (hc : s.session.currentNotify = some notify)
    (hrun : (StatusAcc.init.next (s.board.read Prod.fst instance0 minerRegStatus)).result &&& minerStatusRunning = 0) :
    playClient [goOn, goOn, goOn] s = { s with pc := .dispatchCurrent } := by
  let acc := StatusAcc.init.next (s.board.read Prod.fst instance0 minerRegStatus)
  have h1 : s.step traced Prod.fst (fun _ => 1) goOn = { s with pc := .refill 0 .init } := by
    rw [goOn, step_task hisr]
    simp only [Client.task, hpc, hq, hc]
    rfl
  have h2 : ({ s with pc := .refill 0 .init } : Client Traced oneInstance cfg).step traced Prod.fst (fun _ => 1) goOn =
      { s with pc := .refill 1 acc } := by
    rw [goOn, step_task (s := { s with pc := .refill 0 .init }) hisr]
    rfl
  have h3 : ({ s with pc := .refill 1 acc } : Client Traced oneInstance cfg).step traced Prod.fst (fun _ => 1) goOn =
      { s with pc := .dispatchCurrent } := by
    rw [goOn, step_task (s := { s with pc := .refill 1 acc }) hisr]
    exact if_pos hrun
  show ((s.step traced Prod.fst (fun _ => 1) goOn).step traced Prod.fst (fun _ => 1) goOn).step traced Prod.fst
    (fun _ => 1) goOn = _
  rw [h1, h2, h3]

/-! ## Jobs -/

/-- The client when a job for the notify has been built and submitted to the service. -/
def dispatched (notify : StratumNotify) (job : MinerJob) (cleanJob : Bool) (s : Client Traced host cfg) :
    Client Traced host cfg :=
  { s with
    board := s.board.step traced Prod.fst (.submitJob job cleanJob)
    session := { s.session with state := (buildJob notify s.session.state).2 }
    built := s.built ++ [⟨s.conn, notify, s.session.state, job⟩] }

theorem dispatch_job {notify : StratumNotify} {job : MinerJob} (hj : (buildJob notify s.session.state).1 = some job)
    (cleanJob : Bool) : s.dispatch traced Prod.fst notify cleanJob = (some job, s.dispatched notify job cleanJob) := by
  simp only [Client.dispatch, dispatchNotifyWork, hj]
  rfl

/-- The pending notify becomes the current one. -/
theorem dispatch_pending {notify : StratumNotify} {job : MinerJob} (hpc : s.pc = .dispatchPending)
    (hisr : s.board.isr = none) (hp : s.session.pendingNotify = some notify)
    (hj : (buildJob notify s.session.state).1 = some job) :
    let s' := s.dispatched notify job notify.cleanJobs
    playClient [goOn] s =
      { s' with pc := .drain, session := { s'.session with pendingNotify := none, currentNotify := some notify } } := by
  rw [playClient_one, goOn, step_task hisr]
  simp only [Client.task, hpc, Client.dispatchPending, hp, dispatch_job hj]

/-- The current notify is dispatched once more. -/
theorem dispatch_current {notify : StratumNotify} {job : MinerJob} (hpc : s.pc = .dispatchCurrent)
    (hisr : s.board.isr = none) (hc : s.session.currentNotify = some notify)
    (hj : (buildJob notify s.session.state).1 = some job) :
    playClient [goOn] s = { s.dispatched notify job false with pc := .recv } := by
  rw [playClient_one, goOn, step_task hisr]
  simp only [Client.task, hpc, Client.dispatchCurrent, hc, dispatch_job hj]

/-- A job in the queue does nothing to the instances, the handler or the results. -/
theorem submitJob_frame {b : Board Traced host cfg} (h : b.isr = none) (job : MinerJob) (cleanJob : Bool) :
    let b' := b.step traced Prod.fst (.submitJob job cleanJob)
    b'.hw = b.hw ∧ b'.isr = none ∧ b'.gResultQueue = b.gResultQueue := by
  simp only [Board.step, h, and_self]

/-- A notify is dispatched, and once more as no miner runs yet. -/
def dispatchTwice : List (ClientAction host.instances) := [goOn] ++ [goOn, goOn, goOn] ++ [goOn]

theorem dispatch_twice {s : Client Traced oneInstance cfg} {notify : StratumNotify} {job next : MinerJob}
    (hpc : s.pc = .dispatchPending) (hisr : s.board.isr = none) (hq : s.board.gResultQueue = [])
    (hrun : (StatusAcc.init.next (s.board.read Prod.fst instance0 minerRegStatus)).result &&& minerStatusRunning = 0)
    (hp : s.session.pendingNotify = some notify) (hj : (buildJob notify s.session.state).1 = some job)
    (hn : (buildJob notify (buildJob notify s.session.state).2).1 = some next) :
    ∃ session, playClient dispatchTwice s =
      { s with
        board := (s.board.step traced Prod.fst (.submitJob job notify.cleanJobs)).step traced Prod.fst (.submitJob next false)
        pc := .recv
        session
        built := s.built ++ [⟨s.conn, notify, s.session.state, job⟩] ++
          [⟨s.conn, notify, (buildJob notify s.session.state).2, next⟩] } := by
  obtain ⟨hhw, hisr', hq'⟩ := submitJob_frame hisr job notify.cleanJobs
  let s1 : Client Traced oneInstance cfg :=
    { s.dispatched notify job notify.cleanJobs with
      pc := .drain
      session := ⟨(buildJob notify s.session.state).2, none, some notify⟩ }
  have h1 : playClient [goOn] s = s1 := dispatch_pending hpc hisr hp hj
  have hread : s1.board.read Prod.fst instance0 minerRegStatus = s.board.read Prod.fst instance0 minerRegStatus := by
    have hinst : s1.board.hw instance0 = s.board.hw instance0 := congrFun hhw instance0
    rw [Board.read, Board.read, hinst]
  have h2 : playClient [goOn, goOn, goOn] s1 = { s1 with pc := .dispatchCurrent } :=
    refill_idle rfl hisr' (hq'.trans hq) rfl (by rw [hread]; exact hrun)
  have h3 := dispatch_current (s := { s1 with pc := .dispatchCurrent }) rfl hisr' rfl hn
  rw [dispatchTwice, playClient_append, playClient_append, h1, h2, h3]
  exact ⟨_, rfl⟩

/-! ## Connections -/

/-- The connection is lost and made again. -/
def reconnect (mem : LineMem) : List (ClientAction host.instances) := [.task .error, .task (.accept mem), goOn]

/-- **Across connections.** A result that is waiting when the connection is lost is submitted on the next one. -/
theorem submitted_after_reconnect {event : ResultEvent Traced} {rest : List (ResultEvent Traced)} (hpc : s.pc = .recv)
    (hisr : s.board.isr = none) (hr : s.gConnectRequested = true) (hq : s.board.gResultQueue = event :: rest)
    (hid : event.job.jobId.val ≠ []) (mem : LineMem) :
    ∃ line, let s' := playClient (reconnect mem ++ [goOn]) s
      s'.submits = s.submits ++ [⟨s.conn + 1, event, line⟩] ∧ s'.built = s.built := by
  let s1 : Client Traced host cfg := { s with pc := .connect }
  let s3 : Client Traced host cfg := { s1.accept mem with pc := .drain }
  have h1 : s.step traced Prod.fst (fun _ => 1) (.task .error) = s1 := by
    rw [step_task hisr]
    simp only [Client.task, hpc]
    split <;> rfl
  have h2 : s1.step traced Prod.fst (fun _ => 1) (.task (.accept mem)) = s1.accept mem := by
    rw [step_task (s := s1) hisr]
    exact if_pos hr
  have h3 : (s1.accept mem).step traced Prod.fst (fun _ => 1) goOn = s3 := by
    rw [goOn, step_task (s := s1.accept mem) hisr]
    rfl
  have hplay : playClient (reconnect mem) s = s3 := by
    show ((s.step traced Prod.fst (fun _ => 1) (.task .error)).step traced Prod.fst (fun _ => 1)
      (.task (.accept mem))).step traced Prod.fst (fun _ => 1) goOn = _
    rw [h1, h2, h3]
  rw [playClient_append, hplay, drain_result (s := s3) rfl hisr hq]
  have hline : submitShare s3.config.user event.result.nonce event.job =
      some (snprintf 512 (submitHead s3.config.user event.job ++ formatHex8 event.result.nonce ++ submitTail)) := if_neg hid
  have hsubmits : (s3.submit traced Prod.fst event).submits = s.submits ++
      (submitShare s3.config.user event.result.nonce event.job).toList.map fun line => ⟨s.conn + 1, event, line⟩ := rfl
  rw [hline] at hsubmits
  exact ⟨_, hsubmits, rfl⟩

end Client

end Vek280Miner
