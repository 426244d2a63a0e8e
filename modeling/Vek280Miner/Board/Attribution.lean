import Vek280Miner.Board.Accesses
import Vek280Miner.Rtl.ResultOrigin
import Vek280Miner.Software.ProgramJob

/-!
# Events and their jobs

The worker labels a result with the job it programmed last. The label is right when the result was evaluated under that
job. The invariant (`Attributed`) says that every instance serves the active job, except while the worker programs a new
one: then the instances that are still to be started have pending writes that end in a start, with the new job in the
registers by then. Every action keeps it when a start finds its instance at rest (`attributed_step`); a busy engine does
not take a start, and a result that is on its way is captured behind it.
-/

namespace Vek280Miner

open Rtl Sw

/-- The part of a job that the engines latch. -/
def Sw.MinerJob.latched (job : MinerJob) : Latched := ⟨job.midstate, job.headerTail, job.target⟩

/-- The event's nonce was evaluated under the event's job. -/
def ResultEvent.NamesItsJob (event : ResultEvent Traced) : Prop := event.tag = (event.result.nonce, event.job.latched)

namespace Board

variable {host : HostCfg} {cfg : MinerCfg} {s s' : Board Traced host cfg}

/-- The register write that the worker makes with an action. -/
def issued (a : Action host.instances) (s : Board Traced host cfg) : Option (RegWrite host.instances) :=
  match a, s.isr with
  | .worker _, none => s.pc.write
  | _, _ => none

/-- A start that the worker writes finds its instance at rest. -/
def StartsAtRest (a : Action host.instances) (s : Board Traced host cfg) : Prop :=
  ∀ w ∈ s.issued a, w.write.start = true → AtRest (s.hw w.inst)

theorem write_of_issued {a : Action host.instances} {w : RegWrite host.instances} (h : w ∈ s.issued a) :
    s.pc.write = some w := by
  unfold issued at h
  split at h
  · exact h
  · simp at h

instance (a : Action host.instances) (s : Board Traced host cfg) : Decidable (StartsAtRest a s) :=
  inferInstanceAs (Decidable (∀ w ∈ s.issued a, w.write.start = true → AtRest (s.hw w.inst)))

/-! ## The invariant -/

/-- The job that results are labelled with. -/
def active (s : Board Traced host cfg) : Option Latched := if s.gHaveActiveJob then some s.gActiveJob.latched else none

/-- An instance serves the active job, or waits for writes that program and start it. -/
def InstanceOk (s : Board Traced host cfg) (k : Fin host.instances) : Prop :=
  match s.pc with
  | .program _ l =>
    (writesTo k l = [] ∧ Serves s.active (s.hw k)) ∨
      ∃ J, s.active = some J ∧ Programs J (writesTo k l) (s.hw k).job
  | _ => Serves s.active (s.hw k)

theorem instanceOk_program {k : Fin host.instances} {request : JobRequest} {l : List (RegWrite host.instances)}
    (hpc : s.pc = .program request l) : s.InstanceOk k ↔ (writesTo k l = [] ∧ Serves s.active (s.hw k)) ∨
      ∃ J, s.active = some J ∧ Programs J (writesTo k l) (s.hw k).job := by
  unfold InstanceOk
  rw [hpc]

/-- What the worker carries from one access to the next. -/
def PcOk (s : Board Traced host cfg) : Prop :=
  match s.pc with
  | .init l | .clear l => ∀ w ∈ l, w.write.Passive
  | .resultNonce inst _ => s.active = some (s.hw inst).resultNonceQ.2
  | .resultEngine _ _ nonce tag => nonce = tag.1 ∧ s.active = some tag.2
  | .resultClear _ result tag | .sendEvent result tag => result.nonce = tag.1 ∧ s.active = some tag.2
  | _ => True

structure Attributed (s : Board Traced host cfg) : Prop where
  busy : ∀ k, ReportsBusy (s.hw k)
  insts : ∀ k, s.InstanceOk k
  pc : s.PcOk
  sent : ∀ event ∈ s.sent, event.NamesItsJob

/-- Only the instances, the worker's place, the active job and the events count. -/
theorem Attributed.congr (h : Attributed s) (hhw : s'.hw = s.hw) (hpc : s'.pc = s.pc) (hact : s'.active = s.active)
    (hsent : s'.sent = s.sent) : Attributed s' := by
  refine ⟨by rw [hhw]; exact h.busy, fun k => ?_, ?_, by rw [hsent]; exact h.sent⟩
  · have := h.insts k
    unfold InstanceOk at this ⊢
    rwa [hhw, hpc, hact]
  · have := h.pc
    unfold PcOk at this ⊢
    rwa [hhw, hpc, hact]

/-- The worker moves on while all instances serve the active job. -/
theorem Attributed.move (h : Attributed s) (hserves : ∀ k, Serves s.active (s.hw k)) (hhw : s'.hw = s.hw)
    (hact : s'.active = s.active) (hpc : s'.PcOk) (hprog : ∀ request l, s'.pc ≠ .program request l)
    (hsent : s'.sent = s.sent) : Attributed s' := by
  refine ⟨by rw [hhw]; exact h.busy, fun k => ?_, hpc, by rw [hsent]; exact h.sent⟩
  have := hserves k
  unfold InstanceOk
  split
  · exact absurd ‹_› (hprog _ _)
  · rwa [hhw, hact]

/-! ## Edges -/

theorem passive_of_regWrite {w : Option (RegWrite host.instances)} (hw : ∀ v, w = some v → v.write.Passive)
    (k : Fin host.instances) : ∀ v, ((w.filter (·.inst = k)).map RegWrite.write) = some v → v.Passive := by
  intro v hv
  obtain ⟨u, hu, rfl⟩ := Option.map_eq_some_iff.1 hv
  exact hw u (Option.filter_eq_some_iff.1 hu).1

theorem InstanceOk.clockEdge {k : Fin host.instances} (h : s.InstanceOk k) (hb : ReportsBusy (s.hw k))
    {w : Option (RegWrite host.instances)} (hw : ∀ v, w = some v → v.write.Passive) :
    (s.clockEdge traced w).InstanceOk k := by
  have hk := passive_of_regWrite hw k
  unfold InstanceOk at h ⊢
  show match s.pc with
    | .program _ l => (writesTo k l = [] ∧ Serves s.active ((s.clockEdge traced w).hw k)) ∨
        ∃ J, s.active = some J ∧ Programs J (writesTo k l) ((s.clockEdge traced w).hw k).job
    | _ => Serves s.active ((s.clockEdge traced w).hw k)
  split at h
  · refine h.imp (fun h => ⟨h.1, serves_step h.2 hb hk⟩) (fun ⟨J, hJ, h⟩ => ⟨J, hJ, ?_⟩)
    exact (step_job (s := s.hw k) hk).symm ▸ h
  · exact serves_step h hb hk

theorem PcOk.clockEdge (h : s.PcOk) (hi : ∀ k, s.InstanceOk k) (w : Option (RegWrite host.instances)) :
    (s.clockEdge traced w).PcOk := by
  unfold PcOk at h ⊢
  show match s.pc with
    | .init l | .clear l => ∀ w ∈ l, w.write.Passive
    | .resultNonce inst _ => s.active = some ((s.clockEdge traced w).hw inst).resultNonceQ.2
    | .resultEngine _ _ nonce tag => nonce = tag.1 ∧ s.active = some tag.2
    | .resultClear _ result tag | .sendEvent result tag => result.nonce = tag.1 ∧ s.active = some tag.2
    | _ => True
  cases hpc : s.pc <;> simp only [hpc] at h ⊢ <;> try exact h
  case resultNonce inst status =>
    have := hi inst
    unfold InstanceOk at this
    rw [hpc] at this
    exact this.resultNonce_step h

/-- An edge without a start and without writes to job registers. -/
theorem Attributed.clockEdge (h : Attributed s) {w : Option (RegWrite host.instances)}
    (hw : ∀ v, w = some v → v.write.Passive) : Attributed (s.clockEdge traced w) :=
  ⟨fun k => reportsBusy_step (s.hw k), fun k => (h.insts k).clockEdge (h.busy k) hw, h.pc.clockEdge h.insts w, h.sent⟩

/-! ## The worker -/

theorem Attributed.serves (h : Attributed s) (hprog : ∀ request l, s.pc ≠ .program request l) (k : Fin host.instances) :
    Serves s.active (s.hw k) := by
  have := h.insts k
  unfold InstanceOk at this
  split at this
  · exact absurd ‹_› (hprog _ _)
  · exact this

/-- `RESULT_STATUS` shows a result only when there is one. -/
theorem resultValid_of_status {m : MinerCore Traced cfg} {view : Traced → Word}
    (h : readReg view m minerRegResultStatus &&& minerResultStatusResult ≠ 0) : m.resultValidQ = true := by
  by_contra hn
  apply h
  have hread : readReg view m minerRegResultStatus = flags [m.resultValidQ, m.overflowQ] := rfl
  rw [hread, Bool.eq_false_iff.2 hn]
  cases m.overflowQ <;> decide

theorem passive_control {inst : Fin host.instances} {value : Word} (h : value.getLsbD 0 = false) :
    (RegWrite.write ⟨inst, minerRegControl, value⟩).Passive := ⟨h, fun _ => rfl⟩

theorem passive_resultStatus (inst : Fin host.instances) (value : Word) :
    (RegWrite.write ⟨inst, minerRegResultStatus, value⟩).Passive := ⟨rfl, fun _ => rfl⟩

theorem passive_irqControl (inst : Fin host.instances) (value : Word) :
    (RegWrite.write ⟨inst, minerRegIrqControl, value⟩).Passive := ⟨rfl, fun _ => rfl⟩

theorem passive_minerClear {w : RegWrite host.instances} (h : w ∈ minerClear) : w.write.Passive := by
  simp only [minerClear, List.mem_flatMap, List.mem_cons, List.not_mem_nil, or_false] at h
  obtain ⟨inst, -, rfl | rfl⟩ := h
  · exact passive_control (by decide)
  · exact passive_resultStatus _ _

theorem passive_minerInit {w : RegWrite host.instances} (h : w ∈ minerInit) : w.write.Passive := by
  rcases List.mem_append.1 h with h | h
  · obtain ⟨inst, -, rfl⟩ := List.mem_map.1 h
    exact passive_control (by decide)
  · exact passive_minerClear h

theorem active_congr (h : s'.gActiveJob = s.gActiveJob ∧ s'.gHaveActiveJob = s.gHaveActiveJob) : s'.active = s.active := by
  unfold active
  rw [h.1, h.2]

/-- The worker comes to program a job only when it has taken one. -/
theorem Leads.not_program {view : Traced → Word} {p q : Pc Traced host.instances} (h : s.Leads view p q)
    (hprog : ∀ request w l, p ≠ .program request (w :: l)) (htake : ∀ request, p ≠ .takeJob request)
    (request : JobRequest) (l : List (RegWrite host.instances)) : q ≠ .program request l := by
  cases h with
  | takeJob request => exact absurd rfl (htake request)
  | programWrite request w l => exact absurd rfl (hprog request w l)
  | _ => exact fun hq => by cases hq

/-- While all instances serve the active job, what the worker finds is evaluated under it. -/
theorem Attributed.pcOk (h : Attributed s) (hl : s.Leads Prod.fst s.pc s'.pc) (hs : ∀ k, Serves s.active (s.hw k))
    (hhw : s'.hw = s.hw) (hact : s'.active = s.active) : s'.PcOk := by
  have hp := h.pc
  unfold PcOk at hp ⊢
  rw [hhw, hact]
  generalize s.pc = p at hl hp
  generalize s'.pc = q at hl ⊢
  cases hl with
  | initWrite w l | clearWrite w l => exact fun v hv => hp v (List.mem_cons_of_mem _ hv)
  | result inst hbit => exact (hs inst).result (resultValid_of_status hbit)
  | resultNonce inst status => exact ⟨rfl, hp⟩
  | resultEngine | resultClear => exact hp
  | masked => exact fun w hw => passive_minerClear hw
  | _ => trivial

/-- An event is sent or dropped. -/
theorem sendResult_frame (now : Word) (result : MinerResult) (tag : Traced) (s : Board Traced host cfg) :
    (s.sendResult now result tag).hw = s.hw ∧ (s.sendResult now result tag).active = s.active ∧
      ∀ event ∈ (s.sendResult now result tag).sent,
        event ∈ s.sent ∨ event = ⟨result, if s.gHaveActiveJob then s.gActiveJob else zeroJob, tag⟩ := by
  simp only [sendResult]
  split
  · exact ⟨rfl, rfl, fun event he => by simpa using he⟩
  · exact ⟨rfl, rfl, fun event he => .inl he⟩

/-- An access of the worker, apart from the writes that program a job. -/
theorem Attributed.advance {now : Word} (h : Attributed s) (hprog : ∀ request w l, s.pc ≠ .program request (w :: l)) :
    Attributed (s.advance Prod.fst now) := by
  have hleads := leads_advance s Prod.fst now
  have hhw := (frame_advance s Prod.fst now).1
  have hmove : (∀ request, s.pc ≠ .takeJob request) → (∀ k, Serves s.active (s.hw k)) →
      (s.advance Prod.fst now).active = s.active → (s.advance Prod.fst now).sent = s.sent →
        Attributed (s.advance Prod.fst now) := fun htake hs hact hsent =>
    h.move hs hhw hact (h.pcOk hleads hs hhw hact) (hleads.not_program hprog htake) hsent
  cases hpc : s.pc with
  | program request l =>
    cases l with
    | cons w l => exact absurd hpc (hprog _ _ _)
    | nil =>
      -- every instance has been started by now
      have hs : ∀ k, Serves s.active (s.hw k) := by
        intro k
        rcases (instanceOk_program hpc).1 (h.insts k) with hk | ⟨J, -, hJ⟩
        · exact hk.2
        · obtain ⟨pre, v, hl, -⟩ := hJ.split
          simp at hl
      have hserve : s.serve now = s.rangeStarted now request.job := by simp only [serve, hpc]
      exact hmove (by simp [hpc]) hs (by rw [advance_eq, hserve]; rfl) (by rw [advance_eq, hserve, rangeStarted])
  | takeJob request =>
    simp only [Board.advance, hpc]
    refine ⟨h.busy, fun k => .inr ⟨request.job.latched, rfl, programs_writesTo _ _ _ _ _ k _⟩, trivial, h.sent⟩
  | receive =>
    have hserve : s.serve now = { s with gJobQueue := none } := by simp only [serve, hpc]
    exact hmove (by simp [hpc]) (h.serves (by simp [hpc])) (by rw [advance_eq, hserve]; rfl) (by rw [advance_eq, hserve])
  | sendEvent result tag =>
    have hpcOk := h.pc
    unfold PcOk at hpcOk
    simp only [hpc] at hpcOk
    have hevent : ResultEvent.NamesItsJob ⟨result, if s.gHaveActiveJob then s.gActiveJob else zeroJob, tag⟩ := by
      obtain ⟨hnonce, hact⟩ := hpcOk
      unfold active at hact
      split at hact
      · rw [if_pos ‹_›]
        exact Prod.ext hnonce.symm (Option.some.inj hact).symm
      · simp at hact
    obtain ⟨hhw, hact, hsent⟩ := sendResult_frame now result tag s
    have hs := h.serves (by simp [hpc])
    simp only [Board.advance, hpc]
    refine ⟨fun k => ?_, fun k => ?_, trivial, fun event he => ?_⟩
    · simp only [hhw]
      exact h.busy k
    · show Serves (s.sendResult now result tag).active ((s.sendResult now result tag).hw k)
      rw [hhw, hact]
      exact hs k
    · rcases hsent event he with he | rfl
      · exact h.sent event he
      · exact hevent
  | _ =>
    have hsame := messages_advance s Prod.fst now (by rw [hpc]; rfl)
    exact hmove (by simp [hpc]) (h.serves (by simp [hpc])) (active_congr hsame.active) hsame.events.2

/-- The write at the head of a program reaches its instance, the others see an edge without a write. -/
theorem Attributed.program {request : JobRequest} {w : RegWrite host.instances} {l : List (RegWrite host.instances)}
    (h : Attributed s) (hpc : s.pc = .program request (w :: l)) (hrest : w.write.start = true → AtRest (s.hw w.inst)) :
    Attributed (({ s with pc := .program request l } : Board Traced host cfg).clockEdge traced (some w)) := by
  refine ⟨fun k => reportsBusy_step (s.hw k), fun k => ?_, trivial, h.sent⟩
  have hk := (instanceOk_program hpc).1 (h.insts k)
  show (writesTo k l = [] ∧ Serves s.active ((s.clockEdge traced (some w)).hw k)) ∨
    ∃ J, s.active = some J ∧ Programs J (writesTo k l) ((s.clockEdge traced (some w)).hw k).job
  by_cases hwk : w.inst = k
  · subst hwk
    have hhw : (s.clockEdge traced (some w)).hw w.inst = (s.hw w.inst).step traced (some w.write) := by
      simp [Board.clockEdge, Option.filter]
    rw [writesTo_cons_self] at hk
    rw [hhw]
    rcases hk with ⟨hnil, -⟩ | ⟨J, hJ, hprog⟩
    · simp at hnil
    · rcases hprog.cons with ⟨hnil, hstart, hjob⟩ | ⟨-, hprog⟩
      · refine .inl ⟨hnil, ?_⟩
        rw [hJ, ← hjob]
        exact (hrest hstart).serves_start (h.busy _) hstart
      · exact .inr ⟨J, hJ, hprog⟩
  · have hhw : (s.clockEdge traced (some w)).hw k = (s.hw k).step traced none := by
      simp [Board.clockEdge, Option.filter, hwk]
    rw [writesTo_cons_of_ne hwk] at hk
    rw [hhw]
    exact hk.imp (fun ⟨hnil, hs⟩ => ⟨hnil, serves_step hs (h.busy k) (by simp)⟩) id

/-- The writes of the worker, apart from those that program a job, start nothing. -/
theorem Attributed.passive_write (h : Attributed s) (hprog : ∀ request w l, s.pc ≠ .program request (w :: l))
    {w : RegWrite host.instances} (hw : s.pc.write = some w) : w.write.Passive := by
  have hpcOk := h.pc
  unfold PcOk at hpcOk
  cases hpc : s.pc <;> simp only [hpc, Pc.write, reduceCtorEq] at hw hpcOk
  case init l => exact hpcOk w (List.mem_of_mem_head? hw)
  case clear l => exact hpcOk w (List.mem_of_mem_head? hw)
  case program request l =>
    cases l with
    | nil => simp at hw
    | cons v l => exact absurd hpc (hprog _ _ _)
  case unmaskWrite boot inst control => exact Option.some.inj hw ▸ passive_irqControl _ _
  case resultClear inst result tag => exact Option.some.inj hw ▸ passive_resultStatus _ _

theorem Attributed.apply (h : Attributed s) {w : Option (RegWrite host.instances)}
    (hw : ∀ v, w = some v → v.write.Passive) : Attributed (s.apply traced w) := by
  cases w with
  | none => exact h
  | some v => exact h.clockEdge hw

theorem Attributed.worker {now : Word} (h : Attributed s)
    (hrest : ∀ w, s.pc.write = some w → w.write.start = true → AtRest (s.hw w.inst)) :
    Attributed ((s.advance Prod.fst now).apply traced s.pc.write) := by
  by_cases hprog : ∃ request w l, s.pc = .program request (w :: l)
  · obtain ⟨request, w, l, hpc⟩ := hprog
    have hw : s.pc.write = some w := by rw [hpc]; rfl
    rw [hw]
    simp only [Board.advance, hpc]
    exact h.program hpc (hrest w hw)
  · have hpc : ∀ request w l, s.pc ≠ .program request (w :: l) := fun request w l hpc => hprog ⟨request, w, l, hpc⟩
    exact (h.advance hpc).apply fun v hv => h.passive_write hpc hv

/-! ## The handler and the other tasks -/

theorem Attributed.handle (h : Attributed s) (i : IsrPc host.instances) :
    Attributed ((s.handle Prod.fst i).apply traced i.write) := by
  obtain ⟨hhw, hpc, hsame, -⟩ := frame_handle s Prod.fst i
  refine (h.congr hhw hpc (active_congr hsame.active) hsame.events.2).apply fun v hv => ?_
  cases i with
  | maskWrite inst control => exact Option.some.inj hv ▸ passive_irqControl _ _
  | _ => cases hv

theorem passive_service (inst : Fin host.instances) (w : ServiceWrite) : (w.regWrite inst).write.Passive := by
  cases w with
  | stop => exact passive_control (by decide)
  | clear => exact passive_control (by decide)
  | clearStatus => exact passive_resultStatus _ _

/-- One action of the board. -/
theorem attributed_step {a : Action host.instances} (h : Attributed s) (ha : StartsAtRest a s) :
    Attributed (s.step traced Prod.fst a) := by
  unfold Board.step
  split
  · exact h.clockEdge (by simp)
  · split
    · exact h.congr rfl rfl rfl rfl
    · exact h
  · exact h.handle _
  · rename_i now hisr
    refine h.worker fun w hw => ha w ?_
    simp only [issued, hisr]
    exact hw
  · exact h.congr rfl rfl rfl rfl
  · exact h.congr rfl rfl rfl rfl
  · exact h.congr rfl rfl rfl rfl
  · exact h.apply fun v hv => Option.some.inj hv ▸ passive_service _ _
  · exact h

theorem attributed_reset (engines : Fin host.instances → Fin cfg.numEngines → Engine) :
    Attributed (reset engines : Board Traced host cfg) :=
  ⟨fun _ => reportsBusy_reset _, fun _ => serves_reset _ _, fun _ hw => passive_minerInit hw, fun _ he => by
    simp [reset] at he⟩

/-! ## Without requests -/

/-- No request waits or is being served. -/
def NoRequest (s : Board Traced host cfg) : Prop :=
  s.gJobQueue = none ∧
    match s.pc with
    | .requestStatus .. | .finishRequest .. | .takeJob .. => False
    | .program _ l => l = []
    | _ => True

/-- The worker has served its last request. -/
theorem noRequest_of_programmed {request : JobRequest} (hq : s.gJobQueue = none) (hpc : s.pc = .program request []) :
    NoRequest s := by
  refine ⟨hq, ?_⟩
  rw [hpc]

theorem NoRequest.advance {now : Word} (h : NoRequest s) : NoRequest (s.advance Prod.fst now) := by
  obtain ⟨hq, hp⟩ := h
  refine ⟨?_, ?_⟩
  · cases hm : s.pc.movesMessage with
    | false => exact (messages_advance s Prod.fst now hm).mailbox.trans hq
    | true =>
      rw [advance_eq]
      unfold serve sendResult finishRange countCleanJob
      dsimp only
      repeat' split
      all_goals first
        | exact hq
        | rfl
  · have hleads := leads_advance s Prod.fst now
    generalize s.pc = p at hleads hp
    generalize (s.advance Prod.fst now).pc = q at hleads ⊢
    cases hleads with
    | preempt request hq' | ask request hq' | take request hq' =>
      rw [hq] at hq'
      cases hq'
    | requestRead | requestRuns | requestIdle | finishRequest => exact hp
    | takeJob => exact hp.elim
    | programWrite => cases hp
    | _ => trivial

theorem NoRequest.not_program (h : NoRequest s) (request : JobRequest) (w : RegWrite host.instances)
    (l : List (RegWrite host.instances)) : s.pc ≠ .program request (w :: l) := by
  intro hpc
  have hp := h.2
  simp [hpc] at hp

theorem NoRequest.apply (h : NoRequest s) (w : Option (RegWrite host.instances)) : NoRequest (s.apply traced w) := by
  cases w <;> exact h

theorem NoRequest.step {a : Action host.instances} (h : NoRequest s) (ha : ∀ job cleanJob, a ≠ .submitJob job cleanJob) :
    NoRequest (s.step traced Prod.fst a) := by
  unfold Board.step
  split
  · exact h
  · split <;> exact h
  · rename_i i _
    refine NoRequest.apply ?_ _
    cases i <;> simp only [Board.handle] <;> repeat' split
    all_goals exact h
  · exact h.advance.apply _
  · exact absurd rfl (ha _ _)
  · exact h
  · exact h
  · exact h.apply _
  · exact h

/-- **No request, no start.** Until the next job is submitted the worker starts nothing. -/
theorem NoRequest.along (h : NoRequest s) (hs : Attributed s) : ∀ {acts : List (Action host.instances)},
    (∀ a ∈ acts, ∀ job cleanJob, a ≠ .submitJob job cleanJob) →
      Clocked.Along (Board.step traced Prod.fst) StartsAtRest acts s := by
  intro acts
  induction acts generalizing s with
  | nil => exact fun _ => trivial
  | cons a acts ih =>
    intro ha
    have hrest : StartsAtRest a s := by
      intro w hw hstart
      have hpassive := hs.passive_write h.not_program (write_of_issued hw)
      rw [hpassive.start] at hstart
      exact absurd hstart Bool.false_ne_true
    exact ⟨hrest, ih (h.step (ha a (by simp))) (attributed_step hs hrest) fun b hb => ha b (by simp [hb])⟩

end Board

end Vek280Miner
