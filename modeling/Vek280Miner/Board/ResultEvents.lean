import Vek280Miner.Board.Overlap

/-!
# Events name their jobs

Every event names the job under which its nonce was evaluated, in every run in which each start that the worker writes
finds its instance at rest (`events_name_their_job`). In general it does not: the worker programs a new job while an
engine still scans the previous one; the engine does not take the start, reports a nonce of the previous job, and the
worker labels it with the new one (`preempted_result_mislabelled`). The runs are given action by action, with an access
of the worker every four edges.
-/

namespace Vek280Miner

open Rtl Sw Board

variable {host : HostCfg} {cfg : MinerCfg}

/-- **Attribution.** In every run in which each start that the worker writes finds its instance at rest, every event
names the job under which its nonce was evaluated. -/
theorem events_name_their_job (engines : Fin host.instances → Fin cfg.numEngines → Engine)
    (acts : Nat → Action host.instances) (n : Nat)
    (h : ∀ t < n, StartsAtRest (acts t)
      (Clocked.run (step traced Prod.fst) acts (reset engines : Board Traced host cfg) t)) :
    ∀ event ∈ (Clocked.run (step traced Prod.fst) acts (reset engines : Board Traced host cfg) n).sent,
      event.NamesItsJob := by
  have hinv := Clocked.run_guarded (G := StartsAtRest) (attributed_reset engines) (fun _ _ => attributed_step) h
  exact (hinv n le_rfl).sent

/-! ## Following a run -/

/-- The engine has just accepted a start, the worker is at `l`, and nothing has been reported. -/
def Launched (L : Latched) (n r : Word) (request : JobRequest) (l : List (RegWrite oneInstance.instances))
    (s : Board Traced oneInstance oneEngine) : Prop :=
  let m := s.hw instance0
  let e := m.engines engine0
  (e.latchedQ.midstate = L.midstate ∧ e.latchedQ.headerTail = L.headerTail ∧ e.latchedQ.target = L.target) ∧
  (e.nonceQ = n ∧ e.remainingQ = r ∧ e.stateQ = .launch ∧ e.launchStateQ = .pass1 ∧ e.coreFirstPassQ = true) ∧
  (e.coreStartQ = false ∧ e.resultValidO = false ∧ e.doneO = false ∧ e.core.busyQ = false) ∧
  (m.engineStopQ engine0 = false ∧ (∀ c, (m.fifos c).All fun _ => False) ∧ m.resultValidQ = false ∧ m.irqMaskQ = false) ∧
  (s.pc = .program request l ∧ s.isr = none ∧ s.irqEnabled = true ∧ s.gIrqMasked = false) ∧
  s.gHaveActiveJob = true ∧ s.gActiveJob = request.job ∧ s.gResultQueue.length = 0 ∧ s.sent.length = 0

instance (L : Latched) (n r : Word) (request : JobRequest) (l : List (RegWrite oneInstance.instances))
    (s : Board Traced oneInstance oneEngine) : Decidable (Launched L n r request l s) := by
  unfold Launched
  infer_instance

theorem Launched.overlap {L : Latched} {n r : Word} {request : JobRequest} {l : List (RegWrite oneInstance.instances)}
    {s : Board Traced oneInstance oneEngine} (h : Launched L n r request l s) :
    Overlap L n r (pass1Digest L n) request l 0 s := by
  obtain ⟨⟨hm, ht, hg⟩, ⟨hn, hr, hst, hl, hf⟩, ⟨hc, hv, hd, hb⟩, ⟨hstop, hp, hrv, hmask⟩, ⟨hpc, hisr, hen, hma⟩, hj⟩ := h
  exact ⟨⟨.launch1 ⟨Latched.ext hm ht hg, hn, hr⟩ hst hl hf hc hv hd hb rfl, hstop, hp, hrv, hmask⟩,
    ⟨hpc, hisr, hen, hma, hj.1, hj.2.1, List.eq_nil_of_length_eq_zero hj.2.2.1, List.eq_nil_of_length_eq_zero hj.2.2.2⟩⟩

/-! ## A single job -/

/-- A job that every digest solves. -/
def firstJob : MinerJob := { zeroJob with target := fun _ => 0xffffffff, nonceCount := 0xffffffff }

/-- The worker starts, and programs and starts the first job. -/
def startFirst : List (Action oneInstance.instances) :=
  (List.replicate 7 access).flatten ++ .submitJob firstJob false :: (List.replicate 25 access).flatten

/-- The board when the engine has begun to scan for the only job. -/
def single : Board Traced oneInstance oneEngine := play (startFirst ++ [.edge]) (reset fun _ _ => default)

theorem overlap_single : Overlap firstJob.latched 0 0xffffffff (pass1Digest firstJob.latched 0) ⟨firstJob, false⟩ [] 0
    single :=
  Launched.overlap (by decide +kernel)

/-- The run without the second job. -/
def singleRun : List (Action oneInstance.instances) :=
  startFirst ++ [.edge] ++ (List.replicate (reportAge - 0) .edge ++ deliver)

theorem sent_singleRun : ∃ result : MinerResult, result.nonce = 0 ∧
    (play singleRun (reset fun _ _ => default : Board Traced oneInstance oneEngine)).sent =
      [⟨result, firstJob, (0, firstJob.latched)⟩] := by
  obtain ⟨result, hnonce, hsent⟩ := overlap_single.reports (by decide +kernel) (beValue_le_ones _)
  refine ⟨result, hnonce, ?_⟩
  rw [singleRun, play_append, show play (startFirst ++ [.edge]) (reset _) = single from rfl]
  exact hsent

/-- The only start finds the instance at rest. -/
theorem along_singleRun : Clocked.Along (step traced Prod.fst) StartsAtRest singleRun
    (reset fun _ _ => default : Board Traced oneInstance oneEngine) := by
  have hstart : Clocked.Along (step traced Prod.fst) StartsAtRest (startFirst ++ [.edge])
      (reset fun _ _ => default : Board Traced oneInstance oneEngine) := by
    decide +kernel
  have hq : single.gJobQueue = none := by decide +kernel
  refine Clocked.along_append hstart (NoRequest.along (noRequest_of_programmed hq overlap_single.worker.pc) ?_ ?_)
  · exact Clocked.along_guarded (fun _ _ => attributed_step) (attributed_reset _) hstart
  · intro a ha job cleanJob heq
    simp [heq, deliver, wake] at ha

/-- The worker reports a nonce of the only job under that job. -/
theorem single_job_event_named :
    let s := Clocked.run (step traced Prod.fst) (fun t => singleRun.getD t .edge)
      (reset fun _ _ => default : Board Traced oneInstance oneEngine) singleRun.length
    s.sent ≠ [] ∧ ∀ event ∈ s.sent, event.NamesItsJob := by
  refine ⟨?_, events_name_their_job _ _ _ (Clocked.along_run _ along_singleRun)⟩
  obtain ⟨result, -, hsent⟩ := sent_singleRun
  rw [Clocked.run_getD]
  show (play singleRun _).sent ≠ []
  rw [hsent]
  exact List.cons_ne_nil _ _

/-! ## A preempted job -/

/-- The same job with another midstate. -/
def secondJob : MinerJob := { firstJob with midstate := fun _ => 1 }

/-- Meanwhile the second job arrives; the engine takes the start of the first one. -/
def receiveSecond : List (Action oneInstance.instances) :=
  [.worker 0, .worker 0, .submitJob secondJob true, .worker 0, .worker 0, .worker 0, .edge]

/-- The writes that program and start the second job. -/
def programSecond : List (RegWrite oneInstance.instances) :=
  minerProgramJob secondJob.midstate secondJob.headerTail secondJob.target ++
    minerStartRange secondJob.nonceStart secondJob.nonceCount

/-- The board when the engine has begun to scan for the first job and the worker is about to program the second. -/
def preempting : Board Traced oneInstance oneEngine := play (startFirst ++ receiveSecond) (reset fun _ _ => default)

theorem overlap_preempting : Overlap firstJob.latched 0 0xffffffff (pass1Digest firstJob.latched 0) ⟨secondJob, true⟩
    programSecond 0 preempting :=
  Launched.overlap (by decide +kernel)

theorem quiet_programSecond : ∀ w ∈ programSecond, w.write.stop = false ∧ w.write.sel ≠ .irqControl := by
  decide +kernel

/-- The whole run: the second job is programmed and started, and the nonce of the first one is reported. -/
def preemptedRun : List (Action oneInstance.instances) :=
  startFirst ++ receiveSecond ++ (programSecond.flatMap fun _ => access) ++
    (List.replicate (reportAge - 4 * programSecond.length) .edge ++ deliver)

theorem sent_preemptedRun : ∃ result : MinerResult, result.nonce = 0 ∧
    (play preemptedRun (reset fun _ _ => default : Board Traced oneInstance oneEngine)).sent =
      [⟨result, secondJob, (0, firstJob.latched)⟩] := by
  have hage : 4 * programSecond.length + 2 ≤ reportAge := by decide +kernel
  have hover := overlap_preempting.writes quiet_programSecond (by omega)
  rw [Nat.zero_add] at hover
  obtain ⟨result, hnonce, hsent⟩ := hover.reports hage (beValue_le_ones _)
  refine ⟨result, hnonce, ?_⟩
  rw [preemptedRun, play_append, play_append (startFirst ++ receiveSecond), show play _ (reset _) = preempting from rfl]
  exact hsent

/-- **Preemption.** The nonce was evaluated under the first job and is reported under the second. -/
theorem preempted_result_mislabelled : ¬ ∀ (host : HostCfg) (cfg : MinerCfg)
    (engines : Fin host.instances → Fin cfg.numEngines → Engine) (acts : Nat → Action host.instances) (n : Nat),
    ∀ event ∈ (Clocked.run (step traced Prod.fst) acts (reset engines : Board Traced host cfg) n).sent,
      event.NamesItsJob := by
  intro h
  obtain ⟨result, -, hsent⟩ := sent_preemptedRun
  have hrun := h oneInstance oneEngine (fun _ _ => default) (fun t => preemptedRun.getD t .edge) preemptedRun.length
  rw [Clocked.run_getD] at hrun
  have hevent := hrun ⟨result, secondJob, (0, firstJob.latched)⟩ (by
    show _ ∈ (play preemptedRun _).sent
    rw [hsent]
    exact List.mem_singleton_self _)
  have hlatched : firstJob.latched = secondJob.latched := congrArg Prod.snd hevent
  have hword : firstJob.latched.midstate 0 = secondJob.latched.midstate 0 := by rw [hlatched]
  exact absurd hword (by decide)

end Vek280Miner
