import Vek280Miner.Rtl.MinerCore

/-!
# Forgetting what travels with a result

The result path carries its results without looking at them. Applying a function to everything on the path commutes with
every edge (`MinerCore.map_step`), so an instance whose results carry more than the nonce runs like the hardware once
the rest is forgotten.
-/

namespace Vek280Miner.Rtl

variable {α β : Type} [Inhabited α] [Inhabited β] {f : α → β}

def FifoIn.map {n : Nat} (f : α → β) (i : FifoIn α n) : FifoIn β n := ⟨i.clear, i.pop, i.engineValid, f ∘ i.engineNonce⟩

namespace ClusterFifo

variable {cfg : FifoCfg}

def map (f : α → β) (s : ClusterFifo α cfg) : ClusterFifo β cfg where
  ring := s.ring.map (Prod.map id f)
  clearQ := s.clearQ
  stage1ValidQ := s.stage1ValidQ
  stage1NonceQ := f ∘ s.stage1NonceQ
  stage1OverflowQ := s.stage1OverflowQ
  stage2ValidQ := s.stage2ValidQ
  stage2EngineIdQ := s.stage2EngineIdQ
  stage2NonceQ := f s.stage2NonceQ
  stage2OverflowQ := s.stage2OverflowQ
  overflowO := s.overflowO

theorem map_step (hf : f default = default) (i : FifoIn α cfg.clusterSize) (s : ClusterFifo α cfg) :
    (s.step i).map f = (s.map f).step (i.map f) := by
  have hstage2 : (s.map f).stage2 = s.stage2.map (Prod.map id f) := by
    show (if s.stage2ValidQ then _ else _) = _
    unfold stage2
    split <;> rfl
  have hpush : (s.map f).ring.doPush (s.map f).stage2 i.pop = s.ring.doPush s.stage2 i.pop := by
    rw [hstage2]
    cases s.stage2 <;> rfl
  cases hc : s.clearQ with
  | true =>
    have hc' : (s.map f).clearQ = true := hc
    simp only [step, hc, hc', if_true]
    rfl
  | false =>
    have hc' : (s.map f).clearQ = false := hc
    simp only [step, hc, hc', Bool.false_eq_true, if_false]
    refine ClusterFifo.ext ?_ rfl rfl rfl rfl rfl rfl ?_ rfl ?_
    · show (s.ring.update s.stage2 i.pop).map (Prod.map id f) = (s.ring.map (Prod.map id f)).update (s.map f).stage2 i.pop
      rw [Ring.map_update, hstage2]
    · show f ((hitIdx s.stage1ValidQ).elim default s.stage1NonceQ) =
        (hitIdx s.stage1ValidQ).elim default (f ∘ s.stage1NonceQ)
      cases hitIdx s.stage1ValidQ with
      | none => exact hf
      | some j => rfl
    · show (s.overflowO || (s.stage2ValidQ && !s.ring.doPush s.stage2 i.pop) || s.stage2OverflowQ) =
        (s.overflowO || (s.stage2ValidQ && !(s.map f).ring.doPush (s.map f).stage2 i.pop) || s.stage2OverflowQ)
      rw [hpush]

end ClusterFifo

namespace MinerCore

variable {cfg : MinerCfg}

def map (f : α → β) (s : MinerCore α cfg) : MinerCore β cfg :=
  { s with
    resultNonceQ := f s.resultNonceQ
    fifos := fun c => (s.fifos c).map f }

theorem map_fifoIn (hf : f default = default) (obs : Engine → α) (s : MinerCore α cfg) (c : Fin cfg.numClusters) :
    (s.fifoIn obs c).map f = (s.map f).fifoIn (f ∘ obs) c := by
  have hnonce : f ∘ (s.fifoIn obs c).engineNonce = ((s.map f).fifoIn (f ∘ obs) c).engineNonce := by
    funext l
    show f ((s.engineAt c l).elim default obs) = (s.engineAt c l).elim default (f ∘ obs)
    cases s.engineAt c l with
    | none => exact hf
    | some e => rfl
  simp only [FifoIn.map, hnonce]
  rfl

/-- **Forgetting.** An edge does the same to the path whether or not what travels with the results is forgotten first.
-/
theorem map_step (hf : f default = default) (obs : Engine → α) (w : Option Write) (s : MinerCore α cfg) :
    (s.step obs w).map f = (s.map f).step (f ∘ obs) w := by
  have hnonce : ((s.step obs w).map f).resultNonceQ = ((s.map f).step (f ∘ obs) w).resultNonceQ := by
    show f (s.capture.elim s.resultNonceQ fun c => (s.fifos c).nonceO) =
      s.capture.elim (f s.resultNonceQ) fun c => ((s.fifos c).map f).nonceO
    cases s.capture <;> rfl
  have hfifos : ((s.step obs w).map f).fifos = ((s.map f).step (f ∘ obs) w).fifos := by
    funext c
    calc ((s.fifos c).step (s.fifoIn obs c)).map f
        = ((s.fifos c).map f).step ((s.fifoIn obs c).map f) := ClusterFifo.map_step hf _ _
      _ = ((s.fifos c).map f).step ((s.map f).fifoIn (f ∘ obs) c) :=
        congrArg (fun i => ((s.fifos c).map f).step i) (map_fifoIn hf obs s c)
  ext1
  all_goals first | exact hnonce | exact hfifos | rfl

theorem map_reset (hf : f default = default) (engines : Fin cfg.numEngines → Engine) :
    (reset engines : MinerCore α cfg).map f = reset engines := by
  have hfifos : ((reset engines : MinerCore α cfg).map f).fifos = (reset engines : MinerCore β cfg).fifos := by
    funext c
    refine ClusterFifo.ext ?_ rfl rfl (funext fun _ => hf) rfl rfl rfl hf rfl rfl
    exact Ring.ext (funext fun _ => Prod.ext rfl hf) rfl rfl rfl
  ext1
  all_goals first | exact hf | exact hfifos | rfl

end MinerCore

end Vek280Miner.Rtl
