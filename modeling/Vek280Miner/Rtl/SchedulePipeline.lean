import Vek280Miner.Lib.AsyncFifo
import Vek280Miner.Lib.Events
import Vek280Miner.Lib.Word

/-!
# The schedule service (`dsp58_schedule_pipeline.sv`, `dsp58_schedule_xpm_cdc.sv`)

Two stages of registered adders sum the four operands of a schedule word; valid bits and tags move beside them in
registers of their own. The wrapper puts a queue on either side of the pipeline, which runs on the fast clock.
`xpm_fifo_async` is taken by what is promised of it (`AsyncFifo`).

What a stage holds, as the response that it will become, is a list (`Pipeline.held`, `ScheduleCdc.held`), and every edge
keeps the balance between what has come in, what has gone out and what is held.
-/

namespace Vek280Miner.Rtl

/-! ## Requests and responses -/

/-- What a request carries; `E` and `R` are the widths of the tags. -/
structure SchedReq (E R : Nat) where
  sigma1 : Word
  wM7 : Word
  sigma0 : Word
  wM16 : Word
  engine : BitVec E
  round : BitVec R
deriving DecidableEq, Inhabited

structure SchedRsp (E R : Nat) where
  wNew : Word
  engine : BitVec E
  round : BitVec R
deriving DecidableEq, Inhabited

/-- The response that a request is due. -/
def SchedReq.response {E R : Nat} (r : SchedReq E R) : SchedRsp E R :=
  ⟨r.sigma1 + r.wM7 + r.sigma0 + r.wM16, r.engine, r.round⟩

/-! ## The pipeline -/

/-- The register of `dsp58_add32_registered`. -/
def dsp58Add32Registered (ce : Bool) (a b sumQ : Word) : Word := if ce then a + b else sumQ

/-- The registers of `dsp58_schedule_pipeline`; `aQ`, `bQ` and `wNewQ` are those of its adders. -/
structure Pipeline (E R : Nat) where
  v1Q : Bool
  v2Q : Bool
  engine1Q : BitVec E
  round1Q : BitVec R
  engine2Q : BitVec E
  round2Q : BitVec R
  aQ : Word
  bQ : Word
  wNewQ : Word
deriving DecidableEq

structure PipelineIn (E R : Nat) where
  reqValid : Bool
  req : SchedReq E R
  rspReady : Bool

namespace Pipeline

variable {E R : Nat} (i : PipelineIn E R) (s : Pipeline E R)

def reset : Pipeline E R := ⟨false, false, 0, 0, 0, 0, 0, 0, 0⟩

def stage2Ready : Bool := !s.v2Q || i.rspReady

def stage1Ready : Bool := !s.v1Q || s.stage2Ready i

def reqReady : Bool := s.stage1Ready i

def reqFire : Bool := i.reqValid && s.reqReady i

def stage2Fire : Bool := s.v1Q && s.stage2Ready i

/-- The response on the port. -/
def rsp : SchedRsp E R := ⟨s.wNewQ, s.engine2Q, s.round2Q⟩

/-- One edge out of reset. -/
def step : Pipeline E R where
  v1Q := if s.stage1Ready i then i.reqValid else s.v1Q
  v2Q := if s.stage2Ready i then s.v1Q else s.v2Q
  engine1Q := if s.reqFire i then i.req.engine else s.engine1Q
  round1Q := if s.reqFire i then i.req.round else s.round1Q
  engine2Q := if s.stage2Fire i then s.engine1Q else s.engine2Q
  round2Q := if s.stage2Fire i then s.round1Q else s.round2Q
  aQ := dsp58Add32Registered (s.reqFire i) i.req.sigma1 i.req.wM7 s.aQ
  bQ := dsp58Add32Registered (s.reqFire i) i.req.sigma0 i.req.wM16 s.bQ
  wNewQ := dsp58Add32Registered (s.stage2Fire i) s.aQ s.bQ s.wNewQ

/-- The request that an edge accepts. -/
def accepted : Option (SchedReq E R) := if s.reqFire i then some i.req else none

/-- The response that an edge hands over. -/
def taken : Option (SchedRsp E R) := if s.v2Q && i.rspReady then some s.rsp else none

/-- What the stages hold, the older one first. -/
def held : List (SchedRsp E R) :=
  (if s.v2Q then [s.rsp] else []) ++ if s.v1Q then [⟨s.aQ + s.bQ, s.engine1Q, s.round1Q⟩] else []

/-- **An edge keeps sums and tags together and in order, whichever stages move.** -/
theorem held_balance : s.held ++ ((s.accepted i).map SchedReq.response).toList = (s.taken i).toList ++ (s.step i).held := by
  obtain ⟨v1, v2, engine1, round1, engine2, round2, a, b, wNew⟩ := s
  obtain ⟨valid, req, ready⟩ := i
  cases v1 <;> cases v2 <;> cases valid <;> cases ready <;>
    simp [held, accepted, taken, step, reqFire, reqReady, stage1Ready, stage2Ready, stage2Fire, rsp, dsp58Add32Registered,
      SchedReq.response, BitVec.add_assoc]

/-- A response that is not taken stays. -/
theorem rsp_stays (hv : s.v2Q = true) (hr : i.rspReady = false) : (s.step i).v2Q = true ∧ (s.step i).rsp = s.rsp := by
  simp [step, rsp, stage2Ready, stage2Fire, dsp58Add32Registered, hv, hr]

/-- Two edges with a ready receiver empty both stages. -/
theorem taken_twice (i' : PipelineIn E R) (hr : i.rspReady = true) (hr' : i'.rspReady = true) :
    (s.taken i).toList ++ ((s.step i).taken i').toList = s.held := by
  obtain ⟨v1, v2, engine1, round1, engine2, round2, a, b, wNew⟩ := s
  cases v1 <;> cases v2 <;>
    simp [held, taken, step, stage1Ready, stage2Ready, stage2Fire, rsp, dsp58Add32Registered, hr, hr']

end Pipeline

/-! ## The wrapper -/

/-- The state of `dsp58_schedule_xpm_cdc`, whose queues have states `σ` and `τ`. -/
structure ScheduleCdc (E R : Nat) (σ τ : Type) where
  reqFifo : σ
  pipeline : Pipeline E R
  rspFifo : τ

/-- An instant: which of the two clocks have an edge, and the ports on the side of the slow clock. -/
structure ScheduleIn (E R : Nat) where
  slow : Bool
  fast : Bool
  reqValid : Bool
  req : SchedReq E R
  rspReady : Bool

namespace ScheduleCdc

variable {E R : Nat} {σ τ : Type} (Q : AsyncFifo (SchedReq E R) σ) (P : AsyncFifo (SchedRsp E R) τ)
  (i : ScheduleIn E R) (s : ScheduleCdc E R σ τ)

def reset : ScheduleCdc E R σ τ := ⟨Q.reset, .reset, P.reset⟩

def reqReady : Bool := !Q.full s.reqFifo && !Q.wrRstBusy s.reqFifo

def rspValid : Bool := !P.empty s.rspFifo && !P.rdRstBusy s.rspFifo

/-- `req_fifo_wr_en`, which does not look at the reset of the queue. -/
def reqFifoWrEn : Bool := i.reqValid && !Q.full s.reqFifo

def reqValidFast : Bool := !Q.empty s.reqFifo && !Q.rdRstBusy s.reqFifo

def pipeRspReady : Bool := !P.full s.rspFifo && !P.wrRstBusy s.rspFifo

/-- The inputs of the pipeline. -/
def pipeIn : PipelineIn E R := ⟨s.reqValidFast Q, Q.dout s.reqFifo, s.pipeRspReady P⟩

def reqFifoRdEn : Bool := !Q.empty s.reqFifo && !Q.rdRstBusy s.reqFifo && s.pipeline.reqReady (s.pipeIn Q P)

def rspFifoWrEn : Bool := s.pipeline.v2Q && s.pipeRspReady P

def rspFifoRdEn : Bool := i.rspReady && s.rspValid P

/-- What a port carries at an edge of its clock. -/
def atEdge {β : Type} (clk : Bool) (x : β) : Option β := if clk then some x else none

def step : ScheduleCdc E R σ τ where
  reqFifo := Q.edge (atEdge i.slow (s.reqFifoWrEn Q i, i.req)) (atEdge i.fast (s.reqFifoRdEn Q P)) s.reqFifo
  pipeline := if i.fast then s.pipeline.step (s.pipeIn Q P) else s.pipeline
  rspFifo := P.edge (atEdge i.fast (s.rspFifoWrEn P, s.pipeline.rsp)) (atEdge i.slow (s.rspFifoRdEn P i)) s.rspFifo

/-- The request that an instant accepts. -/
def accepted : Option (SchedReq E R) := if i.slow && i.reqValid && s.reqReady Q then some i.req else none

/-- The response that an instant hands over. -/
def taken : Option (SchedRsp E R) := if i.slow && s.rspValid P && i.rspReady then some (P.dout s.rspFifo) else none

/-- What has been accepted and not handed over, in order. -/
def held : List (SchedRsp E R) :=
  P.contents s.rspFifo ++ s.pipeline.held ++ (Q.contents s.reqFifo).map SchedReq.response

/-! ### Each part passes on what the one before hands over -/

/-- A request that is accepted enters the queue, also while the queue comes out of reset. -/
theorem pushed_req : Q.pushed (atEdge i.slow (s.reqFifoWrEn Q i, i.req)) s.reqFifo = s.accepted Q i := by
  unfold AsyncFifo.pushed accepted atEdge reqFifoWrEn reqReady
  cases i.slow <;> cases i.reqValid <;> cases Q.full s.reqFifo <;> cases Q.wrRstBusy s.reqFifo <;> rfl

theorem popped_req : Q.popped (atEdge i.fast (s.reqFifoRdEn Q P)) s.reqFifo =
    if i.fast then s.pipeline.accepted (s.pipeIn Q P) else none := by
  have hen : s.reqFifoRdEn Q P = s.pipeline.reqFire (s.pipeIn Q P) := rfl
  rw [hen, AsyncFifo.popped, Pipeline.accepted, atEdge]
  cases i.fast with
  | false => rfl
  | true =>
    cases hfire : s.pipeline.reqFire (s.pipeIn Q P) with
    | false => rfl
    | true =>
      have hvalid : s.reqValidFast Q = true := (Bool.and_eq_true_iff.1 hfire).1
      have hempty : Q.empty s.reqFifo = false := by
        simpa using (Bool.and_eq_true_iff.1 hvalid).1
      rw [hempty]
      rfl

theorem pushed_rsp : P.pushed (atEdge i.fast (s.rspFifoWrEn P, s.pipeline.rsp)) s.rspFifo =
    if i.fast then s.pipeline.taken (s.pipeIn Q P) else none := by
  rw [AsyncFifo.pushed, Pipeline.taken, atEdge]
  have hready : (s.pipeIn Q P).rspReady = (!P.full s.rspFifo && !P.wrRstBusy s.rspFifo) := rfl
  have hen : s.rspFifoWrEn P = (s.pipeline.v2Q && (!P.full s.rspFifo && !P.wrRstBusy s.rspFifo)) := rfl
  rw [hready, hen]
  cases P.full s.rspFifo <;> cases P.wrRstBusy s.rspFifo <;> cases i.fast <;> cases s.pipeline.v2Q <;> rfl

theorem popped_rsp : P.popped (atEdge i.slow (s.rspFifoRdEn P i)) s.rspFifo = s.taken P i := by
  unfold AsyncFifo.popped taken atEdge rspFifoRdEn rspValid
  cases i.slow <;> cases i.rspReady <;> cases P.empty s.rspFifo <;> cases P.rdRstBusy s.rspFifo <;> rfl

/-- The pipeline moves at the edges of the fast clock only. -/
theorem pipeline_balance : s.pipeline.held ++
    ((if i.fast then s.pipeline.accepted (s.pipeIn Q P) else none).map SchedReq.response).toList =
      (if i.fast then s.pipeline.taken (s.pipeIn Q P) else none).toList ++ (s.step Q P i).pipeline.held := by
  cases h : i.fast with
  | false => simp [step, h]
  | true =>
    simp only [step, h, if_true]
    exact s.pipeline.held_balance _

/-- **An instant keeps the balance of the whole service.** -/
theorem held_balance : s.held Q P ++ ((s.accepted Q i).map SchedReq.response).toList =
    (s.taken P i).toList ++ (s.step Q P i).held Q P := by
  have hreq := congrArg (List.map SchedReq.response) (Q.contents_balance
    (atEdge i.slow (s.reqFifoWrEn Q i, i.req)) (atEdge i.fast (s.reqFifoRdEn Q P)) s.reqFifo)
  have hrsp := P.contents_balance (atEdge i.fast (s.rspFifoWrEn P, s.pipeline.rsp)) (atEdge i.slow (s.rspFifoRdEn P i))
    s.rspFifo
  have hpipe := s.pipeline_balance Q P i
  rw [pushed_req, popped_req, List.map_append, List.map_append] at hreq
  rw [pushed_rsp Q P, popped_rsp] at hrsp
  have hmap : ∀ o : Option (SchedReq E R), o.toList.map SchedReq.response = (o.map SchedReq.response).toList := fun o => by
    cases o <;> rfl
  rw [hmap, hmap] at hreq
  calc s.held Q P ++ ((s.accepted Q i).map SchedReq.response).toList
      = P.contents s.rspFifo ++ (s.pipeline.held ++
          ((Q.contents s.reqFifo).map SchedReq.response ++ ((s.accepted Q i).map SchedReq.response).toList)) := by
        simp only [held, List.append_assoc]
    _ = P.contents s.rspFifo ++ ((s.pipeline.held ++
          ((if i.fast then s.pipeline.accepted (s.pipeIn Q P) else none).map SchedReq.response).toList) ++
            (Q.contents (s.step Q P i).reqFifo).map SchedReq.response) := by
        rw [hreq, List.append_assoc]
        rfl
    _ = P.contents s.rspFifo ++ (if i.fast then s.pipeline.taken (s.pipeIn Q P) else none).toList ++
          ((s.step Q P i).pipeline.held ++ (Q.contents (s.step Q P i).reqFifo).map SchedReq.response) := by
        rw [hpipe, List.append_assoc, List.append_assoc]
    _ = (s.taken P i).toList ++ (s.step Q P i).held Q P := by
        rw [hrsp]
        simp only [held, List.append_assoc]
        rfl

end ScheduleCdc

/-! ## Runs -/

open Clocked

section Runs

variable {E R : Nat}

/-- The responses that the pipeline hands over are those of the requests that it accepts. -/
theorem Pipeline.in_order (inp : Nat → PipelineIn E R) (n : Nat) :
    (events Pipeline.step Pipeline.accepted inp Pipeline.reset n).map SchedReq.response =
      events Pipeline.step Pipeline.taken inp Pipeline.reset n ++ (run Pipeline.step inp Pipeline.reset n).held :=
  events_conserved_map rfl (fun _ => Pipeline.held_balance _ _) n

/-- A receiver that is ready twice has the responses of all requests that were accepted before. -/
theorem Pipeline.delivers (inp : Nat → PipelineIn E R) (n : Nat) (hr : (inp n).rspReady = true)
    (hr' : (inp (n + 1)).rspReady = true) : events Pipeline.step Pipeline.taken inp Pipeline.reset (n + 2) =
      (events Pipeline.step Pipeline.accepted inp Pipeline.reset n).map SchedReq.response := by
  rw [events_succ, events_succ, Pipeline.in_order, List.append_assoc, run_succ]
  rw [Pipeline.taken_twice _ _ _ hr hr']

theorem ScheduleCdc.in_order {σ τ : Type} (Q : AsyncFifo (SchedReq E R) σ) (P : AsyncFifo (SchedRsp E R) τ)
    (inp : Nat → ScheduleIn E R) (n : Nat) :
    (events (step Q P) (accepted Q) inp (reset Q P) n).map SchedReq.response =
      events (step Q P) (taken P) inp (reset Q P) n ++ (run (step Q P) inp (reset Q P) n).held Q P := by
  refine events_conserved_map ?_ (fun _ => held_balance Q P _ _) n
  rw [held, reset, Q.contents_reset, P.contents_reset]
  rfl

end Runs

/-- **The schedule service is an in-order map.** Whatever edges the two clocks have and however either side holds back,
the responses taken from the service are the sums and tags of the accepted requests, in order, up to what the queues and
the pipeline hold. The same is true of the pipeline alone; a response that is not taken stays on its port, and two edges
with a ready receiver deliver everything accepted before. -/
theorem schedule_service_in_order {E R : Nat} {σ τ : Type} (Q : AsyncFifo (SchedReq E R) σ)
    (P : AsyncFifo (SchedRsp E R) τ) :
    (∀ (inp : Nat → ScheduleIn E R) (n : Nat),
      (events (ScheduleCdc.step Q P) (ScheduleCdc.accepted Q) inp (.reset Q P) n).map SchedReq.response =
        events (ScheduleCdc.step Q P) (ScheduleCdc.taken P) inp (.reset Q P) n ++
          (run (ScheduleCdc.step Q P) inp (.reset Q P) n).held Q P) ∧
    ∀ (inp : Nat → PipelineIn E R) (n : Nat),
      (events Pipeline.step Pipeline.accepted inp .reset n).map SchedReq.response =
        events Pipeline.step Pipeline.taken inp .reset n ++ (run Pipeline.step inp .reset n).held ∧
      ((run Pipeline.step inp .reset n).v2Q = true → (inp n).rspReady = false →
        (run Pipeline.step inp .reset (n + 1)).v2Q = true ∧
          (run Pipeline.step inp .reset (n + 1)).rsp = (run Pipeline.step inp .reset n).rsp) ∧
      ((inp n).rspReady = true → (inp (n + 1)).rspReady = true →
        events Pipeline.step Pipeline.taken inp .reset (n + 2) =
          (events Pipeline.step Pipeline.accepted inp .reset n).map SchedReq.response) :=
  ⟨ScheduleCdc.in_order Q P, fun inp n =>
    ⟨Pipeline.in_order inp n, Pipeline.rsp_stays _ _, Pipeline.delivers inp n⟩⟩

/-- One request at each slow edge, with both clocks in step and queues that do not lag. -/
def steadyIn (_ : Nat) : ScheduleIn 5 6 := ⟨true, true, true, ⟨1, 2, 3, 4, 0, 16⟩, true⟩

theorem schedule_service_steady :
    let Q : AsyncFifo (SchedReq 5 6) _ := .queue 16
    let P : AsyncFifo (SchedRsp 5 6) _ := .queue 16
    events (ScheduleCdc.step Q P) (ScheduleCdc.taken P) steadyIn (.reset Q P) 6 = [⟨10, 0, 16⟩, ⟨10, 0, 16⟩] ∧
      (events (ScheduleCdc.step Q P) (ScheduleCdc.accepted Q) steadyIn (.reset Q P) 6).map SchedReq.response =
        [⟨10, 0, 16⟩, ⟨10, 0, 16⟩] ++ (run (ScheduleCdc.step Q P) steadyIn (.reset Q P) 6).held Q P := by
  intro Q P
  have htaken : events (ScheduleCdc.step Q P) (ScheduleCdc.taken P) steadyIn (.reset Q P) 6 =
    [⟨10, 0, 16⟩, ⟨10, 0, 16⟩] := by decide +kernel
  refine ⟨htaken, ?_⟩
  rw [← htaken]
  exact (schedule_service_in_order Q P).1 steadyIn 6

end Vek280Miner.Rtl
