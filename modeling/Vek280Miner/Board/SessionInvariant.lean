import Vek280Miner.Board.Accesses
import Vek280Miner.Board.StratumTask
import Vek280Miner.Software.JobHeader

/-!
# What a session owns

How jobs and results move through the miner service: a request goes from the queue to the worker, becomes the active
job, and an event carries the active job (`Board.Follows`). From that, what holds in every run in which nothing of an
earlier connection is waiting in the service when a connection is made, and the worker reports no result before it has
taken a job of the connection (`Client.Isolated`): the jobs in the service have been built on the present connection.
-/

namespace Vek280Miner

open Rtl Sw

variable {α : Type} {host : HostCfg} {cfg : MinerCfg}

/-! ## The worker's side -/

/-- The request that the worker is about to serve or serves. -/
def Pc.request {K : Nat} : Pc α K → Option JobRequest
  | .requestStatus request _ _ | .finishRequest request _ | .takeJob request | .program request _ => some request
  | _ => none

namespace Board

variable {s s' : Board α host cfg} {a : Action host.instances}

/-- The worker is about to put an event on the queue. -/
def reportsEvent (a : Action host.instances) (s : Board α host cfg) : Bool :=
  match a, s.isr, s.pc with
  | .worker _, none, .sendEvent _ _ => true
  | _, _, _ => false

/-- How jobs and results move through the service with an action: a request goes from the queue to the worker, becomes
the active job, and an event carries the active job. -/
structure Follows (a : Action host.instances) (s s' : Board α host cfg) : Prop where
  jobs : ∀ request, s'.gJobQueue = some request → s.gJobQueue = some request
  request : ∀ request, s'.pc.request = some request → s.pc.request = some request ∨ s.gJobQueue = some request
  active : s'.gActiveJob = s.gActiveJob ∧ s'.gHaveActiveJob = s.gHaveActiveJob ∧ s.takes a = false ∨
    ∃ request, s.pc.request = some request ∧ s'.gActiveJob = request.job ∧ s'.gHaveActiveJob = true
  events : s'.gResultQueue = s.gResultQueue ∧ s'.sent = s.sent ∨
    s.reportsEvent a = true ∧ ∃ event, event.job = (if s.gHaveActiveJob then s.gActiveJob else zeroJob) ∧
      s'.gResultQueue = s.gResultQueue ++ [event] ∧ s'.sent = s.sent ++ [event]

/-- Nothing but the worker's place changes. -/
theorem Follows.move (hj : s'.gJobQueue = s.gJobQueue ∨ s'.gJobQueue = none)
    (hr : s'.pc.request = s.pc.request ∨ s'.pc.request = s.gJobQueue ∨ s'.pc.request = none)
    (ha : s'.gActiveJob = s.gActiveJob ∧ s'.gHaveActiveJob = s.gHaveActiveJob) (ht : s.takes a = false)
    (he : s'.gResultQueue = s.gResultQueue ∧ s'.sent = s.sent) : Follows a s s' := by
  refine ⟨fun request h => ?_, fun request h => ?_, .inl ⟨ha.1, ha.2, ht⟩, .inl he⟩
  · rcases hj with hj | hj
    · rwa [← hj]
    · rw [hj] at h
      cases h
  · rcases hr with hr | hr | hr
    · exact .inl (hr ▸ h)
    · exact .inr (hr ▸ h)
    · rw [hr] at h
      cases h

theorem Leads.request {view : α → Word} {p q : Pc α host.instances} (h : s.Leads view p q) :
    q.request = p.request ∨ q.request = s.gJobQueue ∨ q.request = none := by
  cases h with
  | preempt request hq | ask request hq | take request hq => exact .inr (.inl hq.symm)
  | programDone => exact .inr (.inr rfl)
  | _ => exact .inl rfl

theorem takes_of_still (h : s.pc.movesMessage = false) : s.takes a = false := by
  unfold takes
  split
  · rename_i hpc
    rw [hpc] at h
    cases h
  · rfl

/-- An access of the worker. -/
theorem follows_advance (s : Board α host cfg) (view : α → Word) (now : Word) (hisr : s.isr = none) :
    Follows (.worker now) s (s.advance view now) := by
  have hrequest := (leads_advance s view now).request
  have hstill : s.pc.movesMessage = false → Follows (.worker now) s (s.advance view now) := fun hm =>
    have hsame := messages_advance s view now hm
    .move (.inl hsame.mailbox) hrequest hsame.active (takes_of_still hm) hsame.events
  cases hpc : s.pc with
  | receive =>
    have hserve : s.serve now = { s with gJobQueue := none } := by simp only [serve, hpc]
    rw [advance_eq, hserve]
    exact .move (.inr rfl) hrequest ⟨rfl, rfl⟩ (by simp [takes, hisr, hpc]) ⟨rfl, rfl⟩
  | takeJob request =>
    simp only [advance, hpc]
    exact ⟨fun _ h => h, fun _ h => .inl (by rw [hpc]; exact h), .inr ⟨request, by rw [hpc]; rfl, rfl, rfl⟩, .inl ⟨rfl, rfl⟩⟩
  | program request l =>
    cases l with
    | nil =>
      simp only [advance, hpc]
      exact .move (.inl rfl) (.inr (.inr rfl)) ⟨rfl, rfl⟩ (by simp [takes, hisr, hpc]) ⟨rfl, rfl⟩
    | cons w l => exact hstill (by rw [hpc]; rfl)
  | sendEvent result tag =>
    simp only [advance, hpc, sendResult]
    split
    · refine ⟨fun _ h => h, fun _ h => (by cases h), .inl ⟨rfl, rfl, by simp [takes, hisr, hpc]⟩, .inr ⟨?_, _, ?_, rfl, rfl⟩⟩
      · simp [reportsEvent, hisr, hpc]
      · rfl
    · exact .move (.inl rfl) (.inr (.inr rfl)) ⟨rfl, rfl⟩ (by simp [takes, hisr, hpc]) ⟨rfl, rfl⟩
  | _ => exact hstill (by rw [hpc]; rfl)

/-- An action that neither submits a job nor takes a result. -/
theorem follows_step [Inhabited α] (s : Board α host cfg) (obs : Engine → α) (view : α → Word)
    (hs : ∀ job cleanJob, a ≠ .submitJob job cleanJob) (ht : a ≠ .takeResult) : Follows a s (s.step obs view a) := by
  have h := acts_step s obs view a
  generalize s.step obs view a = s' at h ⊢
  cases h with
  | worker now hisr =>
    rw [apply_eq]
    exact { follows_advance s view now hisr with }
  | handler i hisr =>
    obtain ⟨-, hpc, hsame, -⟩ := frame_handle s view i
    rw [apply_eq]
    exact .move (.inl hsame.mailbox) (.inl (congrArg _ hpc)) hsame.active rfl hsame.events
  | submitJob job cleanJob => exact absurd rfl (hs job cleanJob)
  | takeResult => exact absurd rfl ht
  | none a hnone =>
    refine .move (.inl rfl) (.inl rfl) ⟨rfl, rfl⟩ ?_ ⟨rfl, rfl⟩
    unfold takes
    split
    · obtain h | h | h := hnone
      · cases h
      · cases h
      · exact absurd ‹_› h
    · rfl
  | _ => exact .move (.inl rfl) (.inl rfl) ⟨rfl, rfl⟩ rfl ⟨rfl, rfl⟩

end Board

/-! ## The client's side -/

namespace Client

variable {s : Client α host cfg}

/-- The job has been built on the present connection. -/
def Own (s : Client α host cfg) (job : MinerJob) : Prop := ∃ b ∈ s.built, b.conn = s.conn ∧ b.job = job

/-- The jobs that have been built, and what they have been built from, have been received on their connection. -/
structure Recorded (s : Client α host cfg) : Prop where
  built : ∀ b ∈ s.built, (buildJob b.notify b.state).1 = some b.job ∧ (b.conn, b.notify) ∈ s.notifies ∧
    (b.conn, b.state.extranonce1) ∈ s.subscriptions ∧ (b.conn, b.state.target) ∈ s.targets
  pending : ∀ notify, s.session.pendingNotify = some notify → (s.conn, notify) ∈ s.notifies
  current : ∀ notify, s.session.currentNotify = some notify → (s.conn, notify) ∈ s.notifies
  subscribed : s.session.state.subscribed = true → (s.conn, s.session.state.extranonce1) ∈ s.subscriptions
  target : s.session.state.haveTarget = true → (s.conn, s.session.state.target) ∈ s.targets

/-- All jobs in the service are jobs of the present connection. -/
structure Owned (s : Client α host cfg) : Prop where
  events : ∀ event ∈ s.board.gResultQueue, s.Own event.job
  jobs : ∀ request, s.board.gJobQueue = some request → s.Own request.job
  request : ∀ request, s.board.pc.request = some request → s.Own request.job
  active : s.taken = true → s.board.gHaveActiveJob = true ∧ s.Own s.board.gActiveJob

/-- The submission is for a job that `build_job` has produced on its connection, from a notify and an extranonce1 that
were received on it. -/
def FromConnection (s : Client α host cfg) (submit : Submit α) : Prop :=
  ∃ b ∈ s.built, b.conn = submit.conn ∧ b.job = submit.event.job ∧ (buildJob b.notify b.state).1 = some b.job ∧
    (submit.conn, b.notify) ∈ s.notifies ∧ (submit.conn, b.state.extranonce1) ∈ s.subscriptions

/-- A step that keeps the sessions apart: a connection is made when no job or result is waiting in the service, and
while a connection is open the worker reports results only after it has taken a job of it. -/
structure Isolates (a : ClientAction host.instances) (s : Client α host cfg) : Prop where
  connect : ∀ mem, a = .task (.accept mem) → s.pc = .connect → s.gConnectRequested = true →
    s.board.gResultQueue = [] ∧ s.board.gJobQueue = none ∧ s.board.pc.request = none
  reports : ∀ b, a = .board b → s.pc ≠ .connect → s.board.reportsEvent b = true → s.taken = true

/-- What holds in every run of such steps. -/
structure Isolated (s : Client α host cfg) : Prop where
  recorded : s.Recorded
  owned : s.pc ≠ .connect → s.Owned
  submits : ∀ submit ∈ s.submits, ∃ b ∈ s.built, b.conn = submit.conn ∧ b.job = submit.event.job

theorem Isolated.fromConnection (h : s.Isolated) {submit : Submit α} (hs : submit ∈ s.submits) : s.FromConnection submit := by
  obtain ⟨b, hb, hconn, hjob⟩ := h.submits submit hs
  obtain ⟨hbuilt, hnotify, hsub, -⟩ := h.recorded.built b hb
  exact ⟨b, hb, hconn, hjob, hbuilt, hconn ▸ hnotify, hconn ▸ hsub⟩

/-! ## Steps of the board -/

section Steps

variable [Inhabited α] {obs : Engine → α} {view : α → Word} {strtod : List Char → Rat}

omit [Inhabited α] in
/-- An action of the board moves the jobs of the connection through the service. -/
theorem Owned.follows {a : Action host.instances} {board : Board α host cfg} (h : s.Owned) (hf : Board.Follows a s.board board)
    (hr : s.board.reportsEvent a = true → s.taken = true) :
    Owned { s with board := board, taken := s.taken || s.board.takes a } := by
  refine ⟨fun event he => ?_, fun request hq => h.jobs request (hf.jobs request hq), fun request hq => ?_, fun ht => ?_⟩
  · rcases hf.events with ⟨hq, -⟩ | ⟨hrep, new, hjob, hq, -⟩
    · exact h.events event (hq ▸ he)
    · rw [hq, List.mem_append, List.mem_singleton] at he
      rcases he with he | rfl
      · exact h.events event he
      · obtain ⟨hhave, hown⟩ := h.active (hr hrep)
        rw [hjob, hhave]
        exact hown
  · rcases hf.request request hq with hq | hq
    · exact h.request request hq
    · exact h.jobs request hq
  · rcases hf.active with ⟨hjob, hhave, htakes⟩ | ⟨request, hreq, hjob, hhave⟩
    · have ht' : s.taken = true := by simpa [htakes] using ht
      refine ⟨hhave.trans (h.active ht').1, ?_⟩
      rw [hjob]
      exact (h.active ht').2
    · refine ⟨hhave, ?_⟩
      rw [hjob]
      exact h.request request hreq

theorem Isolated.board {a : Action host.instances} (h : s.Isolated) (hg : Isolates (.board a) s)
    (hs : ∀ job cleanJob, a ≠ .submitJob job cleanJob) (ht : a ≠ .takeResult) :
    Isolated { s with board := s.board.step obs view a, taken := s.taken || s.board.takes a } :=
  ⟨{ h.recorded with },
    fun hpc => (h.owned hpc).follows (Board.follows_step s.board obs view hs ht) (hg.reports a rfl hpc), h.submits⟩

/-! ## Steps of the task -/

omit [Inhabited α] in
/-- The task goes on to another place on the same connection. -/
theorem Isolated.goto (h : s.Isolated) (hpc : s.pc ≠ .connect) (pc : ClientPc host.instances) : Isolated { s with pc } :=
  ⟨{ h.recorded with },
    fun _ => { h.owned hpc with }, h.submits⟩

omit [Inhabited α] in
/-- A new connection finds nothing in the service. -/
theorem Isolated.accept (h : s.Isolated) (mem : LineMem)
    (hg : s.board.gResultQueue = [] ∧ s.board.gJobQueue = none ∧ s.board.pc.request = none) : (s.accept mem).Isolated := by
  obtain ⟨hevents, hjobs, hreq⟩ := hg
  refine ⟨⟨h.recorded.built, fun _ hn => ?_, fun _ hn => ?_, fun hs => ?_, fun ht => ?_⟩, fun _ => ⟨fun event he => ?_, fun request hq => ?_,
    fun request hq => ?_, fun ht => ?_⟩, h.submits⟩
  · cases hn
  · cases hn
  · cases hs
  · cases ht
  · rw [show (s.accept mem).board.gResultQueue = [] from hevents] at he
    cases he
  · rw [show (s.accept mem).board.gJobQueue = none from hjobs] at hq
    cases hq
  · rw [show (s.accept mem).board.pc.request = none from hreq] at hq
    cases hq
  · cases ht

omit [Inhabited α] in
/-- A line. -/
theorem Recorded.handle (h : s.Recorded) (line : List Char) : (s.handle strtod line).Recorded := by
  have hnotifies : ∀ x ∈ s.notifies, x ∈ (s.handle strtod line).notifies := fun x hx => List.mem_append_left _ hx
  have hsubs : ∀ x ∈ s.subscriptions, x ∈ (s.handle strtod line).subscriptions := fun x hx => List.mem_append_left _ hx
  have htargets : ∀ x ∈ s.targets, x ∈ (s.handle strtod line).targets := fun x hx => List.mem_append_left _ hx
  refine ⟨fun b hb => ?_, fun notify hn => ?_, fun notify hn => ?_, fun hs => ?_, fun ht => ?_⟩
  · obtain ⟨hbuilt, hnotify, hsub, htarget⟩ := h.built b hb
    exact ⟨hbuilt, hnotifies _ hnotify, hsubs _ hsub, htargets _ htarget⟩
  · have hpending : (notifyOf line).orElse (fun _ => s.session.pendingNotify) = some notify := handle_pending.symm.trans hn
    cases hline : notifyOf line with
    | none =>
      rw [hline] at hpending
      exact hnotifies _ (h.pending notify hpending)
    | some new =>
      rw [hline] at hpending
      obtain rfl : new = notify := Option.some.inj hpending
      refine List.mem_append_right _ ?_
      rw [hline]
      exact List.mem_singleton_self _
  · exact hnotifies _ (h.current notify (handle_current.symm.trans hn))
  · rcases @handle_subscription line s.session s.debug strtod with
      hnew | ⟨hsame, hsubscribed⟩
    · refine List.mem_append_right _ ?_
      rw [hnew]
      exact List.mem_singleton_self _
    · have hold := h.subscribed (hsubscribed.symm.trans hs)
      rw [← hsame] at hold
      exact hsubs _ hold
  · rcases @handle_target line s.session s.debug strtod with hnew | ⟨hsame, hhave⟩
    · refine List.mem_append_right _ ?_
      rw [hnew]
      exact List.mem_singleton_self _
    · have hold := h.target (hhave.symm.trans ht)
      rw [← hsame] at hold
      exact htargets _ hold

omit [Inhabited α] in
/-- A character. -/
theorem Isolated.receive (h : s.Isolated) (hpc : s.pc ≠ .connect) (ch : Char) : (s.receive strtod ch).Isolated := by
  have howned := h.owned hpc
  unfold Client.receive
  split
  · exact ⟨{ h.recorded with },
      fun _ => { howned with }, h.submits⟩
  · rename_i buffer line _
    have hrec : Recorded { s with buffer } :=
      { h.recorded with }
    exact ⟨hrec.handle line, fun _ => { howned with }, h.submits⟩

theorem buildJob_state (notify : StratumNotify) (state : StratumState) : let state' := (buildJob notify state).2
    (state'.extranonce1 = state.extranonce1 ∧ state'.subscribed = state.subscribed) ∧
      state'.target = state.target ∧ state'.haveTarget = state.haveTarget := by
  unfold buildJob
  split
  · exact ⟨⟨rfl, rfl⟩, rfl, rfl⟩
  · rw [makeExtranonce2_eq]
    exact ⟨⟨rfl, rfl⟩, rfl, rfl⟩

/-- Work of the connection. -/
theorem Isolated.dispatch {notify : StratumNotify} (h : s.Isolated) (hpc : s.pc ≠ .connect) (hisr : s.board.isr = none)
    (hn : (s.conn, notify) ∈ s.notifies) (cleanJob : Bool) : (s.dispatch obs view notify cleanJob).2.Isolated ∧
      (s.dispatch obs view notify cleanJob).2.conn = s.conn ∧
        (s.dispatch obs view notify cleanJob).2.notifies = s.notifies := by
  have howned := h.owned hpc
  obtain ⟨hsub, hstate⟩ := buildJob_state notify s.session.state
  have hsubscribed : (buildJob notify s.session.state).2.subscribed = true →
      (s.conn, (buildJob notify s.session.state).2.extranonce1) ∈ s.subscriptions := by
    rw [hsub.1, hsub.2]
    exact h.recorded.subscribed
  have htarget : (buildJob notify s.session.state).2.haveTarget = true →
      (s.conn, (buildJob notify s.session.state).2.target) ∈ s.targets := by
    rw [hstate.1, hstate.2]
    exact h.recorded.target
  cases hjob : (buildJob notify s.session.state).1 with
  | none =>
    simp only [Client.dispatch, dispatchNotifyWork, hjob]
    exact ⟨⟨{ h.recorded with subscribed := hsubscribed, target := htarget },
      fun _ => { howned with }, h.submits⟩, trivial, trivial⟩
  | some job =>
    obtain ⟨hhave, hready, -⟩ := buildJob_isSome_iff.1 (by rw [hjob]; rfl)
    simp only [Client.dispatch, dispatchNotifyWork, hjob, Board.step, hisr]
    have hmono : ∀ {j : MinerJob}, s.Own j → ∃ b ∈ s.built ++ [⟨s.conn, notify, s.session.state, job⟩],
        b.conn = s.conn ∧ b.job = j := by
      rintro j ⟨b, hb, hconn⟩
      exact ⟨b, List.mem_append_left _ hb, hconn⟩
    have hnew : ∃ b ∈ s.built ++ [⟨s.conn, notify, s.session.state, job⟩], b.conn = s.conn ∧ b.job = job :=
      ⟨_, List.mem_append_right _ (List.mem_singleton_self _), rfl, rfl⟩
    refine ⟨⟨⟨fun b hb => ?_, h.recorded.pending, h.recorded.current, hsubscribed, htarget⟩,
      fun _ => ⟨fun event he => hmono (howned.events event he), fun request hq => ?_,
        fun request hq => hmono (howned.request request hq), fun ht => ?_⟩,
      fun submit hs => ?_⟩, trivial, trivial⟩
    · rcases List.mem_append.1 hb with hb | hb
      · exact h.recorded.built b hb
      · obtain rfl := List.mem_singleton.1 hb
        exact ⟨hjob, hn, h.recorded.subscribed hready, h.recorded.target hhave⟩
    · obtain rfl := Option.some.inj hq
      exact hnew
    · exact ⟨(howned.active ht).1, hmono (howned.active ht).2⟩
    · obtain ⟨b, hb, hconn⟩ := h.submits submit hs
      exact ⟨b, List.mem_append_left _ hb, hconn⟩

theorem Isolated.dispatchPending (h : s.Isolated) (hpc : s.pc ≠ .connect) (hisr : s.board.isr = none) :
    (s.dispatchPending obs view).Isolated := by
  unfold Client.dispatchPending
  split
  · exact h
  · rename_i notify hpending
    obtain ⟨hd, hconn, hnotifies⟩ := @Isolated.dispatch _ _ _ _ _ obs view _ h hpc hisr (h.recorded.pending notify hpending)
      notify.cleanJobs
    split
    · rename_i s' hs'
      rw [hs'] at hd
      exact hd
    · rename_i job s' hs'
      rw [hs'] at hd hconn hnotifies
      refine ⟨{ hd.recorded with pending := fun _ hn => (by cases hn), current := fun new hnew => ?_ },
        fun hpc => ?_, hd.submits⟩
      · obtain rfl := Option.some.inj hnew
        show (s'.conn, notify) ∈ s'.notifies
        rw [hconn, hnotifies]
        exact h.recorded.pending notify hpending
      · exact { hd.owned hpc with }

theorem Isolated.dispatchCurrent (h : s.Isolated) (hpc : s.pc ≠ .connect) (hisr : s.board.isr = none) :
    (s.dispatchCurrent obs view).Isolated := by
  unfold Client.dispatchCurrent
  split
  · exact h
  · rename_i notify hcurrent
    exact (h.dispatch hpc hisr (h.recorded.current notify hcurrent) false).1

/-- A result of the connection. -/
theorem Isolated.submit {event : ResultEvent α} {rest : List (ResultEvent α)} (h : s.Isolated) (hpc : s.pc ≠ .connect)
    (hisr : s.board.isr = none) (hq : s.board.gResultQueue = event :: rest) : (s.submit obs view event).Isolated := by
  have howned := h.owned hpc
  have hown : s.Own event.job := howned.events event (by rw [hq]; exact List.mem_cons_self)
  have hboard : (s.submit obs view event).board = { s.board with gResultQueue := s.board.gResultQueue.tail } := by
    simp only [Client.submit, Board.step, hisr]
  refine ⟨{ h.recorded with }, fun _ => ?_, fun submit hs => ?_⟩
  · refine ⟨fun e he => ?_, ?_, ?_, ?_⟩
    · rw [hboard] at he
      exact howned.events e (List.mem_of_mem_tail he)
    all_goals rw [hboard]
    · exact howned.jobs
    · exact howned.request
    · exact howned.active
  · rcases List.mem_append.1 hs with hs | hs
    · exact h.submits submit hs
    · obtain ⟨line, -, rfl⟩ := List.mem_map.1 hs
      exact hown

/-- A write of `miner_service_clear`. -/
theorem Isolated.service (h : s.Isolated) (hpc : s.pc ≠ .connect) (inst : Fin host.instances) (w : ServiceWrite) :
    Isolated { s with board := s.board.step obs view (.service inst w) } := by
  have howned := (h.owned hpc).follows (Board.follows_step s.board obs view (a := .service inst w) nofun nofun) nofun
  exact ⟨{ h.recorded with },
    fun _ => ⟨howned.events, howned.jobs, howned.request, fun ht => howned.active (by simp [show s.taken = true from ht])⟩,
    h.submits⟩

theorem pc_dispatch (s : Client α host cfg) (notify : StratumNotify) (cleanJob : Bool) :
    (s.dispatch obs view notify cleanJob).2.pc = s.pc := by
  unfold Client.dispatch
  split <;> rfl

theorem pc_dispatchPending (s : Client α host cfg) : (s.dispatchPending obs view).pc = s.pc := by
  unfold Client.dispatchPending
  split
  · rfl
  · rename_i notify _
    have hpc := @pc_dispatch _ _ _ _ obs view s notify notify.cleanJobs
    split <;> rename_i heq <;> rw [heq] at hpc <;> exact hpc

theorem pc_dispatchCurrent (s : Client α host cfg) : (s.dispatchCurrent obs view).pc = s.pc := by
  unfold Client.dispatchCurrent
  split
  · rfl
  · exact pc_dispatch s _ _

/-- One step of the task. -/
theorem Isolated.task (h : s.Isolated) {net : NetEvent} (hg : Isolates (.task net) s) (hisr : s.board.isr = none) :
    (s.task obs view strtod net).Isolated := by
  cases hpc : s.pc with
  | connect =>
    simp only [Client.task, hpc]
    cases net with
    | accept mem =>
      simp only
      split
      · rename_i hreq
        exact h.accept mem (hg.connect mem rfl hpc hreq)
      · exact h
    | _ => exact h
  | recv =>
    have hopen : s.pc ≠ .connect := by rw [hpc]; exact nofun
    simp only [Client.task, hpc]
    split
    · exact h.goto hopen _
    · cases net with
      | recv event =>
        cases event with
        | timeout => exact h.goto hopen _
        | char ch => exact h.receive hopen ch
      | error => exact h.goto hopen _
      | accept mem => exact h
  | clear l =>
    have hopen : s.pc ≠ .connect := by rw [hpc]; exact nofun
    cases l with
    | nil =>
      simp only [Client.task, hpc]
      exact h.goto hopen _
    | cons w l =>
      simp only [Client.task, hpc]
      exact (h.service hopen w.1 w.2).goto hopen _
  | dispatchPending =>
    have hopen : s.pc ≠ .connect := by rw [hpc]; exact nofun
    simp only [Client.task, hpc]
    refine (h.dispatchPending hopen hisr).goto ?_ _
    rw [pc_dispatchPending]
    exact hopen
  | drain =>
    have hopen : s.pc ≠ .connect := by rw [hpc]; exact nofun
    simp only [Client.task, hpc]
    split
    · rename_i event rest hq
      exact h.submit hopen hisr hq
    · split <;> exact h.goto hopen _
  | refill inst acc =>
    have hopen : s.pc ≠ .connect := by rw [hpc]; exact nofun
    simp only [Client.task, hpc]
    split
    · exact h.goto hopen _
    · split <;> exact h.goto hopen _
  | dispatchCurrent =>
    have hopen : s.pc ≠ .connect := by rw [hpc]; exact nofun
    simp only [Client.task, hpc]
    refine (h.dispatchCurrent hopen hisr).goto ?_ _
    rw [pc_dispatchCurrent]
    exact hopen

/-- One action. -/
theorem isolated_step {a : ClientAction host.instances} (h : s.Isolated) (hg : Isolates a s) :
    (s.step obs view strtod a).Isolated := by
  cases a with
  | board a =>
    cases a with
    | submitJob => exact h
    | takeResult => exact h
    | _ => exact h.board hg nofun nofun
  | task net =>
    simp only [Client.step]
    split
    · exact h
    · rename_i hisr
      exact h.task hg (by simpa using hisr)
  | requestConnect | requestDisconnect | setConfig =>
    exact ⟨{ h.recorded with },
      fun hpc => { h.owned hpc with }, h.submits⟩

theorem isolated_reset (engines : Fin host.instances → Fin cfg.numEngines → Engine) (config : StratumConfig) (mem : LineMem) :
    Isolated (reset engines config mem : Client α host cfg) := by
  refine ⟨⟨fun _ hb => ?_, fun _ hn => ?_, fun _ hn => ?_, fun hs => ?_, fun ht => ?_⟩, fun hpc => absurd rfl hpc,
    fun _ hs => ?_⟩
  · cases hb
  · cases hn
  · cases hn
  · cases hs
  · cases ht
  · cases hs

/-! ## What the task does to the board -/

/-- The task leaves the board alone or takes an action of it, never one of the worker, and what it submits comes from
the queue. -/
structure Uses (obs : Engine → α) (view : α → Word) (s s' : Client α host cfg) : Prop where
  board : s'.board = s.board ∨ ∃ b, s'.board = s.board.step obs view b ∧ ∀ now, b ≠ .worker now
  submits : ∀ submit ∈ s'.submits, submit ∈ s.submits ∨ submit.event ∈ s.board.gResultQueue

theorem Uses.rfl' {s' : Client α host cfg} (hb : s'.board = s.board) (hs : s'.submits = s.submits) : Uses obs view s s' :=
  ⟨.inl hb, fun _ h => .inl (hs ▸ h)⟩

theorem uses_dispatch (s : Client α host cfg) (notify : StratumNotify) (cleanJob : Bool) :
    Uses obs view s (s.dispatch obs view notify cleanJob).2 := by
  unfold Client.dispatch
  split
  · exact .rfl' rfl rfl
  · exact ⟨.inr ⟨_, rfl, nofun⟩, fun submit h => .inl h⟩

theorem uses_dispatchPending (s : Client α host cfg) : Uses obs view s (s.dispatchPending obs view) := by
  unfold Client.dispatchPending
  split
  · exact .rfl' rfl rfl
  · rename_i notify _
    have h := @uses_dispatch _ _ _ _ obs view s notify notify.cleanJobs
    split <;> rename_i heq <;> rw [heq] at h <;> exact ⟨h.board, h.submits⟩

theorem uses_dispatchCurrent (s : Client α host cfg) : Uses obs view s (s.dispatchCurrent obs view) := by
  unfold Client.dispatchCurrent
  split
  · exact .rfl' rfl rfl
  · exact uses_dispatch s _ _

theorem uses_submit {event : ResultEvent α} {rest : List (ResultEvent α)} (hq : s.board.gResultQueue = event :: rest) :
    Uses obs view s (s.submit obs view event) := by
  refine ⟨.inr ⟨_, rfl, nofun⟩, fun submit h => ?_⟩
  rcases List.mem_append.1 h with h | h
  · exact .inl h
  · obtain ⟨line, -, rfl⟩ := List.mem_map.1 h
    exact .inr (by rw [hq]; exact List.mem_cons_self)

theorem uses_task (s : Client α host cfg) (net : NetEvent) : Uses obs view s (s.task obs view strtod net) := by
  unfold Client.task
  split
  · split
    · split <;> exact .rfl' rfl rfl
    · exact .rfl' rfl rfl
  · split
    · exact .rfl' rfl rfl
    · split
      · exact .rfl' rfl rfl
      · unfold Client.receive
        split <;> exact .rfl' rfl rfl
      · exact .rfl' rfl rfl
      · exact .rfl' rfl rfl
  · exact .rfl' rfl rfl
  · exact ⟨.inr ⟨_, rfl, nofun⟩, fun submit h => .inl h⟩
  · exact ⟨(uses_dispatchPending s).board, (uses_dispatchPending s).submits⟩
  · split
    · rename_i event rest hq
      exact uses_submit hq
    · split <;> exact .rfl' rfl rfl
  · split
    · exact .rfl' rfl rfl
    · split <;> exact .rfl' rfl rfl
  · exact ⟨(uses_dispatchCurrent s).board, (uses_dispatchCurrent s).submits⟩

end Steps

end Client

end Vek280Miner
