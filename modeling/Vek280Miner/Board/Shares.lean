import Vek280Miner.Board.SessionIsolation
import Vek280Miner.Rtl.GenuineResults
import Vek280Miner.Rtl.ResultConservation
import Vek280Miner.Software.SubmittedNonce

/-!
# Shares

From the engine to the pool: what an engine reports goes through the result path, the result register, the worker's
variables, the queue and the client into a line. A property of what the engines report holds of all that is on the way
(`Board.Carries`), so in a run in which every start finds its instance at rest with idle cores, every event is a share
of the job it names (`events_are_shares`), and every line that is submitted on a connection is a proof of work for a
header that was built from what the pool has sent on it (`submissions_are_shares`).
-/

namespace Vek280Miner

open Rtl Sw

variable {α : Type} {host : HostCfg} {cfg : MinerCfg}

/-- What the worker holds of a result satisfies `P`, where `reg` are the result registers. -/
def Pc.Holds {K : Nat} (P : α → Prop) (reg : Fin K → α) : Pc α K → Prop
  | .resultNonce inst _ => P (reg inst)
  | .resultEngine _ _ _ tag | .resultClear _ _ tag | .sendEvent _ tag => P tag
  | _ => True

namespace Board

/-! ## On the way from the engines to the queue -/

/-- All results on the board satisfy `P`. -/
structure Carries (P : α → Prop) (s : Board α host cfg) : Prop where
  path : ∀ k, AllResults P (s.hw k)
  result : ∀ k, (s.hw k).resultValidQ = true → P (s.hw k).resultNonceQ
  pc : s.pc.Holds P fun k => (s.hw k).resultNonceQ
  sent : ∀ event ∈ s.sent, P event.tag

section Carries

variable {P : α → Prop} {s s' : Board α host cfg}

theorem Carries.move (h : s.Carries P) (hhw : s'.hw = s.hw) (hpc : s'.pc.Holds P fun k => (s.hw k).resultNonceQ)
    (hsent : s'.sent = s.sent) : s'.Carries P := by
  refine ⟨?_, ?_, ?_, ?_⟩
  · rw [hhw]
    exact h.path
  · rw [hhw]
    exact h.result
  · rw [hhw]
    exact hpc
  · rw [hsent]
    exact h.sent

theorem Carries.keep (h : s.Carries P) (hhw : s'.hw = s.hw) (hpc : s'.pc = s.pc) (hsent : s'.sent = s.sent) :
    s'.Carries P := h.move hhw (hpc ▸ h.pc) hsent

/-- The worker's variables hold what it has read from a result register. -/
theorem Carries.holds_advance (h : s.Carries P) (view : α → Word) (now : Word) :
    (s.advance view now).pc.Holds P fun k => (s.hw k).resultNonceQ := by
  have hpc := h.pc
  have hreads := reads_advance s view now
  cases heq : (s.advance view now).pc <;> rw [heq] at hreads
  case resultNonce inst status =>
    obtain ⟨-, rfl, hstatus⟩ := hreads
    exact h.result inst ((readReg_resultStatus view _).1 hstatus)
  case resultEngine inst status nonce tag =>
    obtain ⟨hprev, -, rfl⟩ := hreads
    rw [hprev] at hpc
    exact hpc
  case resultClear inst result tag =>
    rw [hreads.1] at hpc
    exact hpc
  case sendEvent result tag =>
    obtain ⟨inst, hprev⟩ := hreads
    rw [hprev] at hpc
    exact hpc
  all_goals trivial

/-- An access of the worker. -/
theorem Carries.advance (h : s.Carries P) (hisr : s.isr = none) (view : α → Word) (now : Word) :
    (s.advance view now).Carries P := by
  have hhw := (frame_advance s view now).1
  rcases (follows_advance s view now hisr).events with ⟨-, hsent⟩ | ⟨hreports, -⟩
  · exact h.move hhw (h.holds_advance view now) hsent
  · have hpc := h.pc
    cases heq : s.pc <;> simp only [reportsEvent, heq, hisr, Bool.false_eq_true] at hreports
    case sendEvent result tag =>
      rw [heq] at hpc
      simp only [Board.advance, heq, sendResult]
      split
      · refine ⟨h.path, h.result, trivial, fun event he => ?_⟩
        rcases List.mem_append.1 he with he | he
        · exact h.sent event he
        · obtain rfl := List.mem_singleton.1 he
          exact hpc
      · exact h.move rfl trivial rfl

/-- What the engines report is to satisfy `P`. -/
def Reports (P : α → Prop) (obs : Engine → α) (s : Board α host cfg) : Prop :=
  ∀ k e, ((s.hw k).engines e).resultValidO = true → P (obs ((s.hw k).engines e))

theorem Reports.congr {obs : Engine → α} (h : s.Reports P obs) (hhw : s'.hw = s.hw) : s'.Reports P obs := by
  unfold Reports
  rw [hhw]
  exact h

variable [Inhabited α] {obs : Engine → α} {view : α → Word}

/-- The result register keeps what it has, or captures what is on the way. -/
theorem resultNonce_step {m : MinerCore α cfg} {w : Option Write} (hpath : AllResults P m) (h : P m.resultNonceQ) :
    P (m.step obs w).resultNonceQ := by
  cases hc : m.capture with
  | none => simpa [MinerCore.step, hc] using h
  | some c => simpa [MinerCore.step, hc] using hpath.capture hc

/-- A clock edge. -/
theorem Carries.clockEdge (h : s.Carries P) (hr : s.Reports P obs) (w : Option (RegWrite host.instances)) :
    (s.clockEdge obs w).Carries P where
  path k := allResults_step (hr k) (h.path k)
  result k hv := by
    cases hc : (s.hw k).capture with
    | some c =>
      simp only [Board.clockEdge, MinerCore.step, hc]
      exact (h.path k).capture hc
    | none =>
      refine resultNonce_step (h.path k) (h.result k ?_)
      simp only [Board.clockEdge, MinerCore.step, hc] at hv
      by_contra hn
      simp [hn] at hv
  pc := by
    have hpc := h.pc
    show s.pc.Holds P fun k => ((s.clockEdge obs w).hw k).resultNonceQ
    cases heq : s.pc <;> rw [heq] at hpc
    case resultNonce inst status => exact resultNonce_step (h.path inst) hpc
    all_goals exact hpc
  sent := h.sent

theorem Carries.apply (h : s.Carries P) (hr : s.Reports P obs) (w : Option (RegWrite host.instances)) :
    (s.apply obs w).Carries P := by
  cases w with
  | none => exact h
  | some w => exact h.clockEdge hr _

/-- **Nothing on the way is made up.** -/
theorem carries_step (h : s.Carries P) (hr : s.Reports P obs) (a : Action host.instances) :
    (s.step obs view a).Carries P := by
  unfold Board.step
  split
  · exact h.clockEdge hr _
  · split
    · exact h.keep rfl rfl rfl
    · exact h
  · rename_i i _
    obtain ⟨hhw, hpc, hsame, -⟩ := frame_handle s view i
    exact (h.keep hhw hpc hsame.events.2).apply (hr.congr hhw) _
  · rename_i now _
    exact (h.advance ‹_› view now).apply (hr.congr (frame_advance s view now).1) _
  · exact h.keep rfl rfl rfl
  · exact h.keep rfl rfl rfl
  · exact h.keep rfl rfl rfl
  · exact h.apply hr _
  · exact h

theorem carries_reset (engines : Fin host.instances → Fin cfg.numEngines → Engine) :
    (reset engines : Board α host cfg).Carries P where
  path _ _ := ClusterFifo.all_reset _
  result _ h := by simp [reset, MinerCore.reset] at h
  pc := trivial
  sent _ h := by simp [reset] at h

end Carries

/-! ## Shares -/

section Shares

variable {s : Board Traced host cfg} {a : Action host.instances}

/-- Every start that the worker writes finds its instance at rest and its cores idle. -/
def StartsClear (a : Action host.instances) (s : Board Traced host cfg) : Prop :=
  ∀ w ∈ s.issued a, w.write.start = true → AtRest (s.hw w.inst) ∧ ∀ e, ((s.hw w.inst).engines e).busyO = false

instance (a : Action host.instances) (s : Board Traced host cfg) : Decidable (StartsClear a s) :=
  inferInstanceAs (Decidable (∀ w ∈ s.issued a, _))

theorem StartsClear.atRest (h : StartsClear a s) : StartsAtRest a s := fun w hw hstart => (h w hw hstart).1

/-- A write that starts an instance is one of the worker's. -/
theorem issued_of_start {r : RegWrite host.instances} (he : s.edgeOf a = some (some r)) (hstart : r.write.start = true) :
    r ∈ s.issued a := by
  cases hisr : s.isr with
  | none =>
    cases a with
    | worker now => simpa [edgeOf, issued, hisr] using he
    | service inst w =>
      simp only [edgeOf, hisr, Option.some.injEq] at he
      rw [← he, (passive_service inst w).start] at hstart
      cases hstart
    | _ => simp [edgeOf, hisr] at he
  | some i =>
    cases a with
    | handler =>
      cases i with
      | maskWrite inst control =>
        simp only [edgeOf, hisr, IsrPc.write, Option.map_some, Option.some.injEq] at he
        rw [← he, (passive_irqControl inst _).start] at hstart
        cases hstart
      | _ => simp [edgeOf, hisr, IsrPc.write] at he
    | _ => simp [edgeOf, hisr] at he

/-- What holds in every run of such steps. -/
structure Shares (s : Board Traced host cfg) : Prop where
  attributed : s.Attributed
  orderly : ∀ k, Orderly (s.hw k)
  carries : s.Carries fun x => IsShare x.2 x.1

theorem Shares.reports (h : s.Shares) : s.Reports (fun x => IsShare x.2 x.1) traced := fun k e => (h.orderly k).share e

theorem shares_step (h : s.Shares) (ha : StartsClear a s) : (s.step traced Prod.fst a).Shares where
  attributed := attributed_step h.attributed ha.atRest
  orderly k := by
    rcases inst_step s traced Prod.fst a k with hhw | ⟨w, hhw, hwrite⟩
    · rw [hhw]
      exact h.orderly k
    · rw [hhw]
      refine orderly_step (h.orderly k) fun hstarts => ?_
      cases w with
      | none => simp [MinerCore.startsLoad] at hstarts
      | some v =>
        simp only [MinerCore.startsLoad, Option.any_some, Bool.and_eq_true] at hstarts
        obtain ⟨r, hr, rfl, rfl⟩ := hwrite v rfl
        obtain ⟨hrest, hbusy⟩ := ha r (issued_of_start hr hstarts.1) hstarts.1
        exact ⟨hrest.quiet, hbusy⟩
  carries := carries_step h.carries h.reports a

theorem shares_reset (engines : Fin host.instances → Fin cfg.numEngines → Engine) :
    (reset engines : Board Traced host cfg).Shares :=
  ⟨attributed_reset engines, fun _ => orderly_reset _, carries_reset engines⟩

/-- The nonce of an event that has been sent is a share of its job. -/
theorem Shares.sent (h : s.Shares) {event : ResultEvent Traced} (he : event ∈ s.sent) :
    IsShare event.job.latched event.result.nonce := by
  have hshare := h.carries.sent event he
  rwa [h.attributed.sent event he] at hshare

/-- Until the next job is submitted the worker starts nothing. -/
theorem NoRequest.along_clear (h : NoRequest s) (hs : s.Attributed) {acts : List (Action host.instances)}
    (ha : ∀ a ∈ acts, ∀ job cleanJob, a ≠ .submitJob job cleanJob) :
    Clocked.Along (Board.step traced Prod.fst) StartsClear acts s := by
  induction acts generalizing s with
  | nil => trivial
  | cons a acts ih =>
    have hnone : ∀ w ∈ s.issued a, w.write.start = false := fun w hw =>
      (hs.passive_write h.not_program (write_of_issued hw)).start
    refine ⟨fun w hw hstart => ?_, ih (h.step (ha a (by simp))) (attributed_step hs fun w hw hstart => ?_)
      fun b hb => ha b (by simp [hb])⟩
    all_goals
      rw [hnone w hw] at hstart
      cases hstart

end Shares

end Board

/-! ### A single job -/

namespace Client

section Lines

variable [Inhabited α] {obs : Engine → α} {view : α → Word} {strtod : List Char → Rat} {s : Client α host cfg}

/-- A step of the task submits the first result of the queue, or nothing. -/
theorem submits_task (net : NetEvent) : (s.task obs view strtod net).submits = s.submits ∨
    ∃ event rest, s.board.gResultQueue = event :: rest ∧ s.task obs view strtod net = s.submit obs view event := by
  have hdispatch : ∀ notify cleanJob, (s.dispatch obs view notify cleanJob).2.submits = s.submits := by
    intro notify cleanJob
    unfold Client.dispatch
    split <;> rfl
  unfold Client.task
  split
  · split
    · split <;> exact .inl rfl
    · exact .inl rfl
  · split
    · exact .inl rfl
    · split
      · exact .inl rfl
      · unfold Client.receive
        split <;> exact .inl rfl
      · exact .inl rfl
      · exact .inl rfl
  · exact .inl rfl
  · exact .inl rfl
  · refine .inl ?_
    show (s.dispatchPending obs view).submits = _
    unfold Client.dispatchPending
    split
    · rfl
    · rename_i notify _
      have h := hdispatch notify notify.cleanJobs
      split <;> rename_i heq <;> rw [heq] at h <;> exact h
  · split
    · exact .inr ⟨_, _, ‹_›, rfl⟩
    · split <;> exact .inl rfl
  · split
    · exact .inl rfl
    · split <;> exact .inl rfl
  · refine .inl ?_
    show (s.dispatchCurrent obs view).submits = _
    unfold Client.dispatchCurrent
    split
    · rfl
    · exact hdispatch _ _

end Lines

section Proven

variable {s : Client Traced host cfg} {strtod : List Char → Rat}

/-- A line that `submit_share` has made of an event whose nonce is a share of its job. -/
def ProvesWork (submit : Submit Traced) : Prop :=
  IsShare submit.event.job.latched submit.event.result.nonce ∧
    ∃ user, submitShare user submit.event.result.nonce submit.event.job = some submit.line

/-- Every event that waits is a share, and so is every one that has been submitted. -/
structure Proven (s : Client Traced host cfg) : Prop where
  shares : s.board.Shares
  events : ∀ event ∈ s.board.gResultQueue, IsShare event.job.latched event.result.nonce
  submits : ∀ submit ∈ s.submits, ProvesWork submit

/-- A start that the worker writes finds its instance at rest and the cores idle. -/
def Clears (a : ClientAction host.instances) (s : Client Traced host cfg) : Prop :=
  ∀ b, a = .board b → Board.StartsClear b s.board

theorem proven_board (hb : s.board.Shares) (he : ∀ event ∈ s.board.gResultQueue, IsShare event.job.latched event.result.nonce)
    {a : Action host.instances} (ha : Board.StartsClear a s.board) :
    (s.board.step traced Prod.fst a).Shares ∧
      ∀ event ∈ (s.board.step traced Prod.fst a).gResultQueue, IsShare event.job.latched event.result.nonce := by
  have hstep := Board.shares_step hb ha
  refine ⟨hstep, fun event h => ?_⟩
  rcases events_step s.board a h with h | h
  · exact he event h
  · exact hstep.sent h

theorem proven_step {a : ClientAction host.instances} (h : s.Proven) (ha : s.Clears a) :
    (s.step traced Prod.fst strtod a).Proven := by
  cases a with
  | board b =>
    have hboard := proven_board h.shares h.events (ha b rfl)
    cases b with
    | submitJob => exact h
    | takeResult => exact h
    | _ => exact ⟨hboard.1, hboard.2, h.submits⟩
  | task net =>
    simp only [Client.step]
    split
    · exact h
    · have hsubmits : ∀ submit ∈ (s.task traced Prod.fst strtod net).submits, ProvesWork submit := by
        intro submit hs
        rcases @submits_task _ _ _ _ traced Prod.fst strtod s net with hsame | ⟨event, rest, hq, hsub⟩
        · exact h.submits submit (hsame ▸ hs)
        · rw [hsub] at hs
          rcases List.mem_append.1 hs with hs | hs
          · exact h.submits submit hs
          · obtain ⟨line, hline, rfl⟩ := List.mem_map.1 hs
            exact ⟨h.events event (by rw [hq]; exact List.mem_cons_self), _, Option.mem_toList.1 hline⟩
      rcases (@uses_task _ _ _ _ traced Prod.fst strtod s net).board with hb | ⟨b, hb, hworker⟩
      · exact ⟨hb ▸ h.shares, hb ▸ h.events, hsubmits⟩
      · have hclear : Board.StartsClear b s.board := by
          intro w hw
          cases b with
          | worker now => exact absurd rfl (hworker now)
          | _ => cases hw
        obtain ⟨hshares, hevents⟩ := proven_board h.shares h.events hclear
        exact ⟨hb ▸ hshares, hb ▸ hevents, hsubmits⟩
  | requestConnect | requestDisconnect | setConfig => exact ⟨h.shares, h.events, h.submits⟩

theorem proven_reset (engines : Fin host.instances → Fin cfg.numEngines → Engine) (config : StratumConfig) (mem : LineMem) :
    Proven (reset engines config mem : Client Traced host cfg) :=
  ⟨Board.shares_reset engines, fun _ h => (by cases h), fun _ h => (by cases h)⟩

/-- The line proves work for a header that was built from what the pool has sent on the connection: its double hash,
with the nonce that the line names, is at most a target that the pool has set on it, and the line names the extranonce2 and the
time of that header. -/
def ProvesHeader (s : Client Traced host cfg) (submit : Submit Traced) : Prop :=
  ∃ b ∈ s.built, ∃ (header : List Byte) (digest : Words 8) (user : CStr 128),
    b.conn = submit.conn ∧ (submit.conn, b.notify) ∈ s.notifies ∧
    (submit.conn, b.state.extranonce1) ∈ s.subscriptions ∧ (submit.conn, b.state.target) ∈ s.targets ∧
    jobHeader b.notify b.state = some header ∧
    wordsBytes digest = doubleSha256 (hashedHeader header submit.event.result.nonce) ∧
    beValue digest ≤ beValue b.state.target ∧
    submit.line =
      submitHead user (jobOfHeader b.notify b.state.target (jobExtranonce2 b.state) header) ++
        formatHex8 submit.event.result.nonce ++ submitTail

/-- **Submissions are shares.** In every run whose steps keep the sessions apart, and whose starts find their instances
at rest with idle cores, every line that the client submits proves work for a header built from a notify, an extranonce1
and a target of its connection. -/
theorem submissions_are_shares (engines : Fin host.instances → Fin cfg.numEngines → Engine) (config : StratumConfig)
    (mem : LineMem) (strtod : List Char → Rat) (acts : Nat → ClientAction host.instances) (n : Nat)
    (hiso : ∀ t < n, Isolates (acts t)
      (Clocked.run (step traced Prod.fst strtod) acts (reset engines config mem : Client Traced host cfg) t))
    (hclear : ∀ t < n, Clears (acts t)
      (Clocked.run (step traced Prod.fst strtod) acts (reset engines config mem : Client Traced host cfg) t)) :
    let s := Clocked.run (step traced Prod.fst strtod) acts (reset engines config mem : Client Traced host cfg) n
    ∀ submit ∈ s.submits, s.ProvesHeader submit := by
  intro s submit hs
  have hisolated := Clocked.run_guarded (G := Isolates) (isolated_reset engines config mem) (fun _ _ => isolated_step)
    hiso n le_rfl
  have hproven := Clocked.run_guarded (G := Clears) (proven_reset engines config mem) (fun _ _ => proven_step)
    hclear n le_rfl
  obtain ⟨b, hb, hconn, hjob⟩ := hisolated.submits submit hs
  obtain ⟨hbuilt, hnotify, hsub, hset⟩ := hisolated.recorded.built b hb
  obtain ⟨hshare, user, hline⟩ := hproven.submits submit hs
  obtain ⟨header, hheader, hof⟩ := buildJob_some hbuilt
  obtain ⟨hmid, htail, htarget⟩ := buildJob_header hbuilt hheader
  rw [← hjob] at hshare hline
  refine ⟨b, hb, header, engineDigest b.job.latched submit.event.result.nonce, user, hconn, hconn ▸ hnotify, hconn ▸ hsub,
    hconn ▸ hset, hheader, ?_, ?_, ?_⟩
  · rw [Sw.MinerJob.latched, hmid, htail]
    exact engineDigest_header (length_jobHeader hheader) _ _
  · rw [← htarget]
    exact hshare
  · rw [← hof]
    exact submitShare_eq hline

end Proven

/-! ### The session of the mock pool -/

theorem clears_submitResult : Clocked.Along (step traced Prod.fst fun _ => 1) Clears submitResult beginning := by
  refine along_submitResult ⟨nofun, nofun, trivial⟩ (fun event s => nofun) fun s hs => ?_
  refine along_board (P := Board.StartsClear) (fun a s h b hb => by cases hb; exact h) ofBoard_mine ?_
  rw [hs]
  have hlaunch : Clocked.Along (Board.step traced Prod.fst) Board.StartsClear launchJob queued := by decide +kernel
  have hshares : queued.Shares :=
    Board.shares_step (Board.shares_step (Board.shares_reset _) (by decide)) (by decide)
  refine Clocked.along_append hlaunch
    (Board.NoRequest.along_clear (Board.noRequest_of_programmed launchJob_run.2.1.1 overlap_launched.worker.pc) ?_ ?_)
  · exact (Clocked.along_guarded (fun _ _ => Board.shares_step) hshares hlaunch).attributed
  · intro a ha job cleanJob heq
    simp [heq, findNonce, deliver, wake] at ha

/-- The line of the mock session proves work. -/
theorem mock_submission_share :
    let s := Clocked.run (step traced Prod.fst fun _ => 1) (fun t => submitResult.getD t goOn)
      (reset (fun _ _ => default) ⟨⟨"user".toList, by decide⟩⟩ zeroMem : Client Traced oneInstance oneEngine)
      submitResult.length
    s.submits ≠ [] ∧ ∀ submit ∈ s.submits, s.ProvesHeader submit := by
  refine ⟨?_, submissions_are_shares _ _ _ _ _ _ (Clocked.along_run _ isolates_submitResult)
    (Clocked.along_run _ clears_submitResult)⟩
  rw [Clocked.run_getD]
  exact submits_submitResult

end Client

end Vek280Miner
