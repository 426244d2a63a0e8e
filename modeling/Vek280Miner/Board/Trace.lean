import Vek280Miner.Board.MinerTask
import Vek280Miner.Rtl.ResultOrigin
import Vek280Miner.Rtl.ResultTrace

/-!
# The traced board and the board

The events of the traced board carry the job under which their nonce was evaluated. Neither the instances nor the tasks
look at it: forgetting it commutes with every action (`Board.map_step`), so the runs of the traced board are the runs of
the board, where results carry their nonce and nothing else (`Board.map_traced_run`).
-/

namespace Vek280Miner

open Rtl Sw

variable {α β : Type} {f : α → β} {host : HostCfg} {cfg : MinerCfg}

def ResultEvent.map (f : α → β) (event : ResultEvent α) : ResultEvent β := ⟨event.result, event.job, f event.tag⟩

def Pc.map {K : Nat} (f : α → β) : Pc α K → Pc β K
  | .init l => .init l
  | .unmask boot inst => .unmask boot inst
  | .unmaskWrite boot inst control => .unmaskWrite boot inst control
  | .receive => .receive
  | .requestStatus request inst acc => .requestStatus request inst acc
  | .finishRequest request reason => .finishRequest request reason
  | .takeJob request => .takeJob request
  | .program request l => .program request l
  | .idleStatus inst acc => .idleStatus inst acc
  | .idleReason => .idleReason
  | .finishIdle reason => .finishIdle reason
  | .takeSem => .takeSem
  | .resultStatus inst => .resultStatus inst
  | .resultNonce inst status => .resultNonce inst status
  | .resultEngine inst status nonce tag => .resultEngine inst status nonce (f tag)
  | .resultClear inst result tag => .resultClear inst result (f tag)
  | .sendEvent result tag => .sendEvent result (f tag)
  | .testMasked => .testMasked
  | .clear l => .clear l

namespace Board

variable {s : Board α host cfg}

def map (f : α → β) (s : Board α host cfg) : Board β host cfg :=
  { s with
    hw := fun k => (s.hw k).map f
    gResultQueue := s.gResultQueue.map (ResultEvent.map f)
    pc := s.pc.map f
    sent := s.sent.map (ResultEvent.map f) }

theorem map_finishRange (now : Word) (reason : RangeReason) :
    (s.finishRange now reason).map f = (s.map f).finishRange now reason := by
  cases h : s.gRangeActive <;> simp [finishRange, map, h]

theorem map_countCleanJob (request : JobRequest) (reason : RangeReason) :
    (s.countCleanJob request reason).map f = (s.map f).countCleanJob request reason := by
  unfold countCleanJob
  split <;> rfl

theorem map_sendResult (now : Word) (result : MinerResult) (tag : α) :
    (s.sendResult now result tag).map f = (s.map f).sendResult now result (f tag) := by
  have hlength : (s.map f).gResultQueue.length = s.gResultQueue.length := List.length_map _
  simp only [sendResult, hlength]
  split
  · simp only [map, List.map_append]
    rfl
  · rfl

theorem write_map {K : Nat} (pc : Pc α K) : (pc.map f).write = pc.write := by cases pc <;> rfl

theorem map_advance (view : β → Word) (now : Word) :
    (s.advance (view ∘ f) now).map f = (s.map f).advance view now := by
  have hpc' : (s.map f).pc = s.pc.map f := rfl
  cases hpc : s.pc with
  | init l => cases l <;> simp only [advance, hpc, hpc', Pc.map] <;> rfl
  | program request l => cases l <;> simp only [advance, hpc, hpc', Pc.map] <;> rfl
  | clear l => cases l <;> simp only [advance, hpc, hpc', Pc.map] <;> rfl
  | finishRequest request reason =>
    simp only [advance, hpc, hpc', Pc.map, ← map_finishRange, ← map_countCleanJob]
    rfl
  | finishIdle reason =>
    simp only [advance, hpc, hpc', Pc.map, ← map_finishRange]
    rfl
  | sendEvent result tag =>
    simp only [advance, hpc, hpc', Pc.map, ← map_sendResult]
    rfl
  | receive =>
    have hq : (s.map f).gJobQueue = s.gJobQueue := rfl
    cases h : s.gJobQueue <;> simp only [advance, hpc, hpc', Pc.map, hq, h, apply_ite (map f)] <;> rfl
  | _ =>
    simp only [advance, hpc, hpc', Pc.map, apply_dite (map f), apply_ite (map f)]
    rfl

theorem map_handle (view : β → Word) (i : IsrPc host.instances) :
    (s.handle (view ∘ f) i).map f = (s.map f).handle view i := by
  cases i <;> simp only [handle, apply_dite (map f), apply_ite (map f)] <;> rfl

section Steps

variable [Inhabited α] [Inhabited β]

theorem map_clockEdge (hf : f default = default) (obs : Engine → α) (w : Option (RegWrite host.instances)) :
    (s.clockEdge obs w).map f = (s.map f).clockEdge (f ∘ obs) w := by
  have hhw : (fun k => ((s.clockEdge obs w).hw k).map f) = ((s.map f).clockEdge (f ∘ obs) w).hw := by
    funext k
    exact MinerCore.map_step hf obs _ (s.hw k)
  unfold map
  rw [hhw]
  rfl

theorem map_apply (hf : f default = default) (obs : Engine → α) (w : Option (RegWrite host.instances)) :
    (s.apply obs w).map f = (s.map f).apply (f ∘ obs) w := by
  cases w with
  | none => rfl
  | some w => exact map_clockEdge hf obs (some w)

/-- **Forgetting.** An action of the board does the same whether or not what travels with the results is forgotten
first. -/
theorem map_step (hf : f default = default) (obs : Engine → α) (view : β → Word) (a : Action host.instances)
    (s : Board α host cfg) : (s.step obs (view ∘ f) a).map f = (s.map f).step (f ∘ obs) view a := by
  have hisr : (s.map f).isr = s.isr := rfl
  cases h : s.isr with
  | none =>
    cases a with
    | edge => exact map_clockEdge hf obs none
    | worker now =>
      simp only [step, hisr, h]
      rw [map_apply hf, map_advance, ← write_map (f := f)]
      rfl
    | interrupt =>
      simp only [step, hisr, h, apply_ite (map f)]
      rfl
    | takeResult => simp only [step, h, map, List.map_tail]
    | service inst w =>
      simp only [step, hisr, h]
      exact map_apply hf obs _
    | _ => simp only [step, hisr, h] <;> rfl
  | some i =>
    cases a with
    | edge => exact map_clockEdge hf obs none
    | handler =>
      simp only [step, hisr, h]
      rw [map_apply hf, map_handle]
    | _ => simp only [step, hisr, h]

theorem map_reset (hf : f default = default) (engines : Fin host.instances → Fin cfg.numEngines → Engine) :
    (reset engines : Board α host cfg).map f = reset engines := by
  have hhw : (fun k => ((reset engines : Board α host cfg).hw k).map f) = (reset engines : Board β host cfg).hw :=
    funext fun k => MinerCore.map_reset hf (engines k)
  unfold map
  rw [hhw]
  rfl

end Steps

/-- **The traced board.** Its runs are the runs of the board, with the job of every result remembered. -/
theorem map_traced_run (engines : Fin host.instances → Fin cfg.numEngines → Engine)
    (acts : Nat → Action host.instances) (n : Nat) :
    (Clocked.run (step traced Prod.fst) acts (reset engines : Board Traced host cfg) n).map Prod.fst =
      Clocked.run (step Engine.resultNonceO id) acts (reset engines) n := by
  have hf : (Prod.fst : Traced → Word) default = default := rfl
  rw [← map_reset hf]
  exact Clocked.run_map (fun t s => map_step hf traced id (acts t) s) _ n

end Board

end Vek280Miner
