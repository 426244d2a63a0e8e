import Vek280Miner.Board.Attribution
import Vek280Miner.Rtl.EngineEval

/-!
# An evaluation while the worker programs

One instance with one engine, followed from the edge at which the engine has begun to evaluate a nonce: `Evaluating`
says where the instance is, `Programmed` where the worker is. Whatever job the worker programs meanwhile, a nonce that
meets the target of the job that the engine has latched becomes an event under the job that the worker has programmed by
then (`Overlap.reports`).
-/

namespace Vek280Miner

open Rtl Sw Board

/-! ## One instance with one engine -/

def oneInstance : HostCfg := ⟨1, 1, 250000000 / 512, 1000, Nat.one_pos, by decide, appConfig.tickRateHz_pos⟩

def oneEngine : MinerCfg := ⟨1, 1, 2, true, Nat.one_pos, by decide, Nat.one_pos, Nat.two_pos⟩

def instance0 : Fin oneInstance.instances := ⟨0, by decide⟩

def engine0 : Fin oneEngine.numEngines := ⟨0, by decide⟩

def cluster0 : Fin oneEngine.numClusters := ⟨0, by decide⟩

theorem eq_engine0 (e : Fin oneEngine.numEngines) : e = engine0 := Fin.ext (Nat.lt_one_iff.1 e.isLt)

theorem eq_cluster0 (c : Fin oneEngine.numClusters) : c = cluster0 := Fin.ext (Nat.lt_one_iff.1 c.isLt)

/-- The age at which a nonce is reported. -/
def reportAge : Nat := 14 + 2 * coreCycles oneEngine.engine.core

section Instance

variable {L : Latched} {n r : Word} {d : Words 8} {a : Nat} {m : MinerCore Traced oneEngine}

/-- The engine is `a` edges into the evaluation of a nonce, and no result is on its way. -/
structure Evaluating (L : Latched) (n r : Word) (d : Words 8) (a : Nat) (m : MinerCore Traced oneEngine) : Prop where
  eval : EvalAt oneEngine.engine L n r d a (m.engines engine0)
  stop : m.engineStopQ engine0 = false
  path : AllResults (fun _ => False) m
  valid : m.resultValidQ = false
  mask : m.irqMaskQ = false

theorem Evaluating.step (h : Evaluating L n r d a m) (ha : a < reportAge) {w : Option Write}
    (hw : ∀ v, w = some v → v.stop = false ∧ v.sel ≠ .irqControl) : Evaluating L n r d (a + 1) (m.step traced w) where
  eval := evalAt_step h.eval h.stop ha
  stop := by
    cases w with
    | none => rfl
    | some v => exact (hw v rfl).1
  path := by
    refine allResults_step (fun e he => ?_) h.path
    rw [eq_engine0 e] at he
    exact absurd (h.eval.valid_iff.1 he).1 ha.ne
  valid := by simp [MinerCore.step, capture_of_empty h.path, h.valid]
  mask := by
    cases w with
    | none => exact h.mask
    | some v =>
      obtain ⟨sel, data, strb⟩ := v
      cases sel <;> first | exact h.mask | exact absurd rfl (hw _ rfl).2

/-- Without writes the pulses of an edge end at the next one. -/
theorem pulses_step {α : Type} [Inhabited α] {cfg : MinerCfg} {obs : Engine → α} (m : MinerCore α cfg)
    (c : Fin cfg.numClusters) : ((m.step obs none).fifoIn obs c).clear = false := rfl

theorem clusterHit_cluster0 {x : Word × Traced} (h : (m.fifos cluster0).ring.toList = [x]) :
    m.clusterHit = some cluster0 := by
  have hv : (m.fifos cluster0).validO = true := by
    have hc : (m.fifos cluster0).ring.count = 1 := by rw [← Ring.length_toList, h]; rfl
    simp [ClusterFifo.validO, hc]
  have hfind : (List.finRange 1).find? (fun c : Fin oneEngine.numClusters => (m.fifos c).validO) = some cluster0 :=
    List.find?_cons_of_pos hv
  exact hfind

/-- **Delivery.** A nonce at its report, two edges after the last write, is in the result register four edges later. -/
theorem Evaluating.delivered (m0 : MinerCore Traced oneEngine) (hm : m = (m0.step traced none).step traced none)
    (h : Evaluating L n r d reportAge m) (hL : beValue (pass2Digest d) ≤ beValue L.target) :
    let m4 := (((m.step traced none).step traced none).step traced none).step traced none
    m4.resultValidQ = true ∧ m4.resultNonceQ = (n, L) ∧ m4.irqMaskQ = false := by
  have hv : (m.engines engine0).resultValidO = true := h.eval.valid_iff.2 ⟨rfl, hL⟩
  have hobs : traced (m.engines engine0) = (n, L) := Prod.ext (h.eval.nonce_of_valid hv) h.eval.frame.latched
  have hhit : hitIdx (m.fifoIn traced cluster0).engineValid = some (⟨0, by decide⟩ : Fin 1) := by
    have h0 : (m.fifoIn traced cluster0).engineValid (⟨0, by decide⟩ : Fin 1) = true := hv
    exact List.find?_cons_of_pos h0
  have hpass : ∀ c, ((m.step traced none).fifos c).ring.toList = [] ∧
      (((m.step traced none).step traced none).fifos c).ring.toList = [] ∧
      ((((m.step traced none).step traced none).step traced none).fifos c).ring.toList =
        [(ClusterFifo.engineId (oneEngine.fifo cluster0) (⟨0, by decide⟩ : Fin 1), (n, L))] := by
    intro c
    rw [eq_cluster0 c, ← hobs]
    refine ClusterFifo.pass (h.path cluster0) ?_ ?_ (pulses_step m cluster0) hhit
    · rw [hm]
      exact (ClusterFifo.clearQ_step _).trans (pulses_step m0 cluster0)
    · rw [hm]
      exact pulses_step _ cluster0
  have hv1 : (m.step traced none).resultValidQ = false :=
    (resultValid_step_of_capture traced (capture_of_empty h.path)).trans h.valid
  have hv2 := (resultValid_step_of_capture traced (capture_of_rings fun c => (hpass c).1)).trans hv1
  have hv3 := (resultValid_step_of_capture traced (capture_of_rings fun c => (hpass c).2.1)).trans hv2
  have hring := (hpass cluster0).2.2
  obtain ⟨hvalid, hnonce⟩ := step_of_capture traced none (capture_of_ring hv3 (clusterHit_cluster0 hring))
  exact ⟨hvalid, hnonce.trans (ClusterFifo.nonceO_of_ring hring), h.mask⟩

end Instance

/-! ## The board -/

/-- The board after a list of actions. -/
def play {host : HostCfg} {cfg : MinerCfg} (acts : List (Action host.instances)) (s : Board Traced host cfg) :
    Board Traced host cfg := acts.foldl (fun s a => s.step traced Prod.fst a) s

theorem play_append {host : HostCfg} {cfg : MinerCfg} (acts acts' : List (Action host.instances))
    (s : Board Traced host cfg) : play (acts ++ acts') s = play acts' (play acts s) := List.foldl_append

/-- The worker has `l` left to write of the program of `request`, and nothing has been reported. -/
structure Programmed (request : JobRequest) (l : List (RegWrite oneInstance.instances))
    (s : Board Traced oneInstance oneEngine) : Prop where
  pc : s.pc = .program request l
  isr : s.isr = none
  enabled : s.irqEnabled = true
  masked : s.gIrqMasked = false
  haveJob : s.gHaveActiveJob = true
  job : s.gActiveJob = request.job
  queue : s.gResultQueue = []
  sent : s.sent = []

/-- The engine evaluates nonce `n` of the job `L` while the worker programs `request`. -/
structure Overlap (L : Latched) (n r : Word) (d : Words 8) (request : JobRequest)
    (l : List (RegWrite oneInstance.instances)) (a : Nat) (s : Board Traced oneInstance oneEngine) : Prop where
  engine : Evaluating L n r d a (s.hw instance0)
  worker : Programmed request l s

section Board

variable {L : Latched} {n r : Word} {d : Words 8} {request : JobRequest} {l : List (RegWrite oneInstance.instances)}
  {a : Nat} {s : Board Traced oneInstance oneEngine}

theorem Programmed.edge (h : Programmed request l s) : Programmed request l (s.step traced Prod.fst .edge) :=
  ⟨h.pc, h.isr, h.enabled, h.masked, h.haveJob, h.job, h.queue, h.sent⟩

theorem Overlap.edge (h : Overlap L n r d request l a s) (ha : a < reportAge) :
    Overlap L n r d request l (a + 1) (s.step traced Prod.fst .edge) :=
  ⟨h.engine.step ha (by simp), h.worker.edge⟩

theorem Overlap.write {w : RegWrite oneInstance.instances} {now : Word} (h : Overlap L n r d request (w :: l) a s)
    (ha : a < reportAge) (hw : w.write.stop = false ∧ w.write.sel ≠ .irqControl) :
    Overlap L n r d request l (a + 1) (s.step traced Prod.fst (.worker now)) := by
  have hstep : s.step traced Prod.fst (.worker now) =
      ({ s with pc := .program request l } : Board Traced oneInstance oneEngine).clockEdge traced (some w) := by
    simp [Board.step, h.worker.isr, Board.advance, h.worker.pc, Pc.write, Board.apply]
  rw [hstep]
  refine ⟨h.engine.step ha fun v hv => ?_, ⟨rfl, h.worker.isr, h.worker.enabled, h.worker.masked, h.worker.haveJob,
    h.worker.job, h.worker.queue, h.worker.sent⟩⟩
  obtain ⟨u, hu, rfl⟩ := Option.map_eq_some_iff.1 hv
  obtain rfl := Option.some.inj (Option.filter_eq_some_iff.1 hu).1
  exact hw

theorem Overlap.edges (h : Overlap L n r d request l a s) : ∀ k, a + k ≤ reportAge →
    Overlap L n r d request l (a + k) (play (List.replicate k .edge) s)
  | 0, _ => h
  | k + 1, hk => by
    rw [List.replicate_succ', play_append]
    exact (h.edges k (by omega)).edge (by omega)

/-- An access of the worker and the edges until the bus is ready for the next. -/
def access : List (Action oneInstance.instances) := [.worker 0, .edge, .edge, .edge]

theorem Overlap.writes : ∀ {l : List (RegWrite oneInstance.instances)} {a : Nat} {s : Board Traced oneInstance oneEngine},
    Overlap L n r d request l a s → (∀ w ∈ l, w.write.stop = false ∧ w.write.sel ≠ .irqControl) →
      a + 4 * l.length ≤ reportAge →
      Overlap L n r d request [] (a + 4 * l.length) (play (l.flatMap fun _ => access) s)
  | [], _, _, h, _, _ => h
  | w :: l, a, s, h, hl, ha => by
    rw [List.length_cons] at ha ⊢
    rw [List.flatMap_cons, play_append, show a + 4 * (l.length + 1) = a + 1 + 3 + 4 * l.length by omega]
    exact Overlap.writes ((h.write (by omega) (hl w (by simp))).edges 3 (by omega))
      (fun v hv => hl v (by simp [hv])) (by omega)

end Board

/-! ## The report -/

/-- The first instance. -/
def firstInstance (host : HostCfg) : Fin host.instances := ⟨0, host.instances_pos⟩

theorem step_worker {host : HostCfg} {cfg : MinerCfg} {s : Board Traced host cfg} (hisr : s.isr = none) (now : Word) :
    s.step traced Prod.fst (.worker now) = (s.advance Prod.fst now).apply traced s.pc.write := by
  simp [Board.step, hisr]

/-- **Report.** Woken while the first instance shows a result, the worker puts it on the queue under the active job. -/
theorem worker_reports {host : HostCfg} {cfg : MinerCfg} {s : Board Traced host cfg} (hisr : s.isr = none)
    (hpc : s.pc = .takeSem) (hsem : s.gIrqSem = true) (hvalid : (s.hw (firstInstance host)).resultValidQ = true)
    (hq : s.gResultQueue.length < 8) :
    ∃ result : MinerResult, result.nonce = (s.hw (firstInstance host)).resultNonceQ.1 ∧
      (play (List.replicate 6 (.worker 0)) s).sent = s.sent ++
        [⟨result, if s.gHaveActiveJob then s.gActiveJob else zeroJob, (s.hw (firstInstance host)).resultNonceQ⟩] := by
  let status := s.read Prod.fst (firstInstance host) minerRegResultStatus
  have hstatus : status &&& minerResultStatusResult ≠ 0 := by
    have hread : status =
        flags [(s.hw (firstInstance host)).resultValidQ, (s.hw (firstInstance host)).overflowQ] := rfl
    rw [hread, hvalid]
    cases (s.hw (firstInstance host)).overflowQ <;> decide
  let tag := (s.hw (firstInstance host)).resultNonceQ
  let engine := s.read Prod.fst (firstInstance host) minerRegResultEngine + 0 * host.enginesPerInstance
  let result : MinerResult := ⟨tag.1, engine, status⟩
  -- the state after each access
  let s1 : Board Traced host cfg := { s with gIrqSem := false, pc := .resultStatus 0 }
  let s2 : Board Traced host cfg := { s1 with pc := .resultNonce (firstInstance host) status }
  let s3 : Board Traced host cfg := { s1 with pc := .resultEngine (firstInstance host) status tag.1 tag }
  let s4 : Board Traced host cfg := { s1 with pc := .resultClear (firstInstance host) result tag }
  let s5 : Board Traced host cfg := ({ s1 with pc := .sendEvent result tag } : Board Traced host cfg).clockEdge traced
    (some ⟨firstInstance host, minerRegResultStatus, minerResultStatusResult⟩)
  have h1 : s.step traced Prod.fst (.worker 0) = s1 := by
    rw [step_worker hisr]
    simp [Board.advance, hpc, hsem, Pc.write, Board.apply, s1]
  have h2 : s1.step traced Prod.fst (.worker 0) = s2 := by
    rw [step_worker (s := s1) hisr]
    show dite _ _ _ = s2
    rw [dif_pos host.instances_pos]
    exact if_neg hstatus
  have h3 : s2.step traced Prod.fst (.worker 0) = s3 := step_worker (s := s2) hisr 0
  have h4 : s3.step traced Prod.fst (.worker 0) = s4 := step_worker (s := s3) hisr 0
  have h5 : s4.step traced Prod.fst (.worker 0) = s5 := step_worker (s := s4) hisr 0
  have h6 : (s5.step traced Prod.fst (.worker 0)).sent = s.sent ++
      [⟨result, if s.gHaveActiveJob then s.gActiveJob else zeroJob, tag⟩] := by
    rw [step_worker (s := s5) hisr]
    show (s5.sendResult 0 result tag).sent = _
    exact congrArg Board.sent (if_pos hq)
  refine ⟨result, rfl, ?_⟩
  show ((((((s.step traced Prod.fst (.worker 0)).step traced Prod.fst (.worker 0)).step traced Prod.fst
    (.worker 0)).step traced Prod.fst (.worker 0)).step traced Prod.fst (.worker 0)).step traced Prod.fst
    (.worker 0)).sent = _
  rw [h1, h2, h3, h4, h5, h6]

/-- The interrupt and the accesses of its handler. -/
def wake : List (Action oneInstance.instances) := .interrupt :: List.replicate 5 .handler

/-- The handler masks the instance and wakes the worker. -/
theorem handler_wakes {s : Board Traced oneInstance oneEngine} (hisr : s.isr = none) (henabled : s.irqEnabled = true)
    (hmasked : s.gIrqMasked = false) (hirq : (s.hw instance0).irqO = true) :
    ∃ control, play wake s =
      ({ s with gIrqMasked := true, gIrqSem := true
                gStats := { s.gStats with irqCount := s.gStats.irqCount + 1 } } : Board Traced oneInstance oneEngine).clockEdge
        traced (some ⟨instance0, minerRegIrqControl, control⟩) := by
  have hline : s.irqLine = true := decide_eq_true ⟨instance0, hirq⟩
  have h1 : s.step traced Prod.fst .interrupt = { s with isr := some .enter } := by
    simp [Board.step, hisr, henabled, hline]
  let control := s.read Prod.fst instance0 minerRegIrqControl
  let s2 : Board Traced oneInstance oneEngine := { s with gIrqMasked := true, isr := some (.mask 0) }
  let s3 : Board Traced oneInstance oneEngine := { s2 with isr := some (.maskWrite instance0 control) }
  let s4 := ({ s2 with isr := some (.mask 1) } : Board Traced oneInstance oneEngine).clockEdge traced
    (some ⟨instance0, minerRegIrqControl, control ||| minerIrqControlMask⟩)
  let s5 : Board Traced oneInstance oneEngine := { s4 with isr := some .give }
  have h2 : ({ s with isr := some .enter } : Board Traced oneInstance oneEngine).step traced Prod.fst .handler = s2 :=
    if_neg (by simp [hmasked])
  have h3 : s2.step traced Prod.fst .handler = s3 := rfl
  have h4 : s3.step traced Prod.fst .handler = s4 := rfl
  have h5 : s4.step traced Prod.fst .handler = s5 := rfl
  refine ⟨control ||| minerIrqControlMask, ?_⟩
  show (((((s.step traced Prod.fst .interrupt).step traced Prod.fst .handler).step traced Prod.fst .handler).step traced
    Prod.fst .handler).step traced Prod.fst .handler).step traced Prod.fst .handler = _
  rw [h1, h2, h3, h4, h5]
  simp only [Board.clockEdge, hisr]
  rfl

/-- The edges on which a result reaches the register, the interrupt, and the accesses of the worker. -/
def deliver : List (Action oneInstance.instances) :=
  List.replicate 4 .edge ++ wake ++ .worker 0 :: List.replicate 6 (.worker 0)

/-- Woken at the end of its program, the worker reports the result register of the instance under the new job. -/
theorem Programmed.reports {request : JobRequest} {s : Board Traced oneInstance oneEngine} {x : Traced}
    (h : Programmed request [] s) (hv : (s.hw instance0).resultValidQ = true) (hx : (s.hw instance0).resultNonceQ = x)
    (hmask : (s.hw instance0).irqMaskQ = false) :
    ∃ result : MinerResult, result.nonce = x.1 ∧
      (play (wake ++ .worker 0 :: List.replicate 6 (.worker 0)) s).sent = [⟨result, request.job, x⟩] := by
  have hirq : (s.hw instance0).irqO = true := by simp [MinerCore.irqO, hmask, hv]
  obtain ⟨control, hwake⟩ := handler_wakes h.isr h.enabled h.masked hirq
  obtain ⟨hv', hx'⟩ := result_step_of_valid (w := some ⟨.irqControl, control, 0xf⟩) traced hv fun v hv => by
    obtain rfl := Option.some.inj hv
    exact ⟨rfl, rfl, rfl⟩
  generalize hw : play wake s = woken at hwake
  let started : Board Traced oneInstance oneEngine := { woken.rangeStarted 0 request.job with pc := .takeSem }
  have hisr : woken.isr = none := by rw [hwake]; exact h.isr
  have hstep : woken.step traced Prod.fst (.worker 0) = started := by
    have hpc : woken.pc = .program request [] := by rw [hwake]; exact h.pc
    rw [step_worker hisr]
    simp [Board.advance, hpc, Pc.write, Board.apply, started]
  have hhw : started.hw (firstInstance oneInstance) = (s.hw instance0).step traced (some ⟨.irqControl, control, 0xf⟩) := by
    show woken.hw instance0 = _
    rw [hwake]
    rfl
  have hqueue : started.gResultQueue = [] := (congrArg Board.gResultQueue hwake).trans h.queue
  have hsent : started.sent = [] := (congrArg Board.sent hwake).trans h.sent
  have hhave : started.gHaveActiveJob = true := (congrArg Board.gHaveActiveJob hwake).trans h.haveJob
  have hjob : started.gActiveJob = request.job := (congrArg Board.gActiveJob hwake).trans h.job
  obtain ⟨result, hnonce, hreport⟩ := worker_reports (s := started) hisr rfl (congrArg Board.gIrqSem hwake)
    (by rw [hhw]; exact hv') (by rw [hqueue]; decide)
  rw [hhw, hx', hx] at hnonce hreport
  rw [hsent, hhave, if_pos rfl, hjob] at hreport
  refine ⟨result, hnonce, ?_⟩
  rw [play_append]
  show (play (List.replicate 6 (.worker 0)) ((play wake s).step traced Prod.fst (.worker 0))).sent = _
  rw [hw, hstep]
  exact hreport

/-- **The whole report.** A nonce under evaluation that meets the target becomes an event under the job that the worker
has programmed by then. -/
theorem Overlap.reports {L : Latched} {n r : Word} {d : Words 8} {request : JobRequest} {a : Nat}
    {s : Board Traced oneInstance oneEngine} (h : Overlap L n r d request [] a s) (ha : a + 2 ≤ reportAge)
    (hL : beValue (pass2Digest d) ≤ beValue L.target) :
    ∃ result : MinerResult, result.nonce = n ∧
      (play (List.replicate (reportAge - a) .edge ++ deliver) s).sent = [⟨result, request.job, (n, L)⟩] := by
  obtain ⟨k, hk⟩ : ∃ k, reportAge - a = k + 2 := ⟨reportAge - a - 2, by omega⟩
  let before := play (List.replicate k .edge) s
  let checked := (before.step traced Prod.fst .edge).step traced Prod.fst .edge
  have hchecked : play (List.replicate (reportAge - a) .edge) s = checked := by
    rw [hk, List.replicate_add, play_append]
    rfl
  have hov : Overlap L n r d request [] reportAge checked := by
    have hedges := h.edges (reportAge - a) (by omega)
    rwa [hchecked, show a + (reportAge - a) = reportAge by omega] at hedges
  obtain ⟨hv, hx, hmask⟩ := Evaluating.delivered (before.hw instance0) rfl hov.engine hL
  obtain ⟨result, hnonce, hreport⟩ := Programmed.reports hov.worker.edge.edge.edge.edge hv hx hmask
  refine ⟨result, hnonce, ?_⟩
  rw [deliver, List.append_assoc, play_append, play_append, hchecked]
  exact hreport

end Vek280Miner
