import Vek280Miner.Rtl.MinerCore

/-!
# What the result path carries

A result passes two stages and the ring of its cluster before it is captured in the result register. `AllResults P s`
says that whatever is on the way satisfies `P`; an edge keeps it when the engines that report satisfy `P` as well
(`allResults_step`), and a captured result satisfies it (`AllResults.capture`). With `P` constantly false the path is
empty.
-/

namespace Vek280Miner.Rtl

variable {α : Type} {P : α → Prop}

theorem hitIdx_some {n : Nat} {v : Fin n → Bool} {i : Fin n} (h : hitIdx v = some i) : v i = true :=
  List.find?_some h

namespace ClusterFifo

variable {cfg : FifoCfg} {s : ClusterFifo α cfg}

/-- Every entry on its way through the FIFO satisfies `P`. -/
structure All (P : α → Prop) (s : ClusterFifo α cfg) : Prop where
  stage1 : ∀ l, s.stage1ValidQ l = true → P (s.stage1NonceQ l)
  stage2 : s.stage2ValidQ = true → P s.stage2NonceQ
  ring : ∀ x ∈ s.ring.toList, P x.2

theorem all_reset [Inhabited α] (h : 0 < cfg.fifoDepth) : (ClusterFifo.reset h : ClusterFifo α cfg).All P :=
  ⟨fun _ h => by simp [reset] at h, fun h => by simp [reset] at h, fun x hx => by simp [reset, Ring.toList] at hx⟩

theorem All.mono {Q : α → Prop} (h : s.All P) (hPQ : ∀ x, P x → Q x) : s.All Q :=
  ⟨fun l hl => hPQ _ (h.stage1 l hl), fun h2 => hPQ _ (h.stage2 h2), fun x hx => hPQ _ (h.ring x hx)⟩

theorem all_step [Inhabited α] {i : FifoIn α cfg.clusterSize}
    (hi : ∀ l, i.engineValid l = true → P (i.engineNonce l)) (h : s.All P) :
    (s.step i).All P := by
  unfold step
  split
  · exact ⟨fun _ h => by simp at h, fun h => by simp at h, fun x hx => by simp at hx⟩
  · refine ⟨hi, fun hv => ?_, fun x hx => ?_⟩
    · obtain ⟨j, hj⟩ := Option.isSome_iff_exists.1 hv
      simp only [hj]
      exact h.stage1 j (hitIdx_some hj)
    · rcases Ring.mem_toList_update hx with hx | hx
      · exact h.ring x hx
      · unfold stage2 at hx
        split at hx
        · obtain rfl := Option.some.inj hx
          exact h.stage2 ‹_›
        · simp at hx

theorem All.head (h : s.All P) (hv : s.validO = true) : P s.nonceO := by
  have hne : s.ring.count ≠ 0 := by simpa [validO] using hv
  exact h.ring _ (List.mem_of_mem_head? (s.ring.head_eq hne))

theorem empty_iff : (s.All fun _ => False) ↔
    (∀ l, s.stage1ValidQ l = false) ∧ s.stage2ValidQ = false ∧ s.ring.count = 0 := by
  rw [← Ring.toList_eq_nil_iff, List.eq_nil_iff_forall_not_mem]
  simp only [← Bool.not_eq_true]
  exact ⟨fun h => ⟨h.stage1, h.stage2, h.ring⟩, fun h => ⟨h.1, h.2.1, h.2.2⟩⟩

instance : Decidable (s.All fun _ => False) := decidable_of_iff _ empty_iff.symm

theorem clearQ_step [Inhabited α] (i : FifoIn α cfg.clusterSize) : (s.step i).clearQ = i.clear := by
  unfold step
  split <;> rfl

theorem ring_step [Inhabited α] (i : FifoIn α cfg.clusterSize) (h : s.clearQ = false) :
    (s.step i).ring = s.ring.update s.stage2 i.pop := by
  simp [step, h]

/-- **Passage.** The first result of a cycle in which the FIFO is empty reaches the ring three edges later. -/
theorem pass [Inhabited α] {i0 i1 i2 : FifoIn α cfg.clusterSize} {j : Fin cfg.clusterSize} (he : s.All fun _ => False)
    (hc : s.clearQ = false) (hc0 : i0.clear = false) (hc1 : i1.clear = false) (hj : hitIdx i0.engineValid = some j) :
    (s.step i0).ring.toList = [] ∧ ((s.step i0).step i1).ring.toList = [] ∧
      (((s.step i0).step i1).step i2).ring.toList = [(engineId cfg j, i0.engineNonce j)] := by
  have hnone : hitIdx s.stage1ValidQ = none := by
    rw [hitIdx, List.find?_eq_none]
    exact fun l _ hl => he.stage1 l hl
  have h2 : s.stage2 = none := by
    have hv : s.stage2ValidQ = false := Bool.eq_false_iff.2 he.stage2
    simp [stage2, hv]
  have hr : s.ring.toList = [] := List.eq_nil_iff_forall_not_mem.2 he.ring
  have h21 : (s.step i0).stage2 = none := by simp [stage2, step, hc, hnone]
  have h22 : ((s.step i0).step i1).stage2 = some (engineId cfg j, i0.engineNonce j) := by
    have hs1 : (s.step i0).stage1ValidQ = i0.engineValid := by simp [step, hc]
    have hn1 : (s.step i0).stage1NonceQ = i0.engineNonce := by simp [step, hc]
    unfold stage2
    rw [step, clearQ_step, hc0]
    simp [hs1, hn1, hj]
  have hr1 : (s.step i0).ring.toList = [] := by
    rw [ring_step i0 hc, h2, Ring.toList_update, hr]
    simp [Ring.doPush]
  have hr2 : ((s.step i0).step i1).ring.toList = [] := by
    rw [ring_step i1 ((clearQ_step i0).trans hc0), h21, Ring.toList_update, hr1]
    simp [Ring.doPush]
  refine ⟨hr1, hr2, ?_⟩
  have hcount := (Ring.toList_eq_nil_iff _).1 hr2
  have hD : 0 < cfg.fifoDepth := Nat.zero_lt_of_lt s.ring.rdPtr.isLt
  rw [ring_step i2 ((clearQ_step i1).trans hc1), h22, Ring.toList_update, hr2]
  simp [Ring.doPush, hcount, hD]

end ClusterFifo

variable {cfg : MinerCfg} {s : MinerCore α cfg} {obs : Engine → α} {w : Option Write}

/-- Every result on its way to the result register satisfies `P`. -/
def AllResults (P : α → Prop) (s : MinerCore α cfg) : Prop := ∀ c, (s.fifos c).All P

theorem allResults_step [Inhabited α] (hE : ∀ e, (s.engines e).resultValidO = true → P (obs (s.engines e)))
    (h : AllResults P s) : AllResults P (s.step obs w) := by
  intro c
  refine ClusterFifo.all_step (fun l => ?_) (h c)
  simp only [MinerCore.fifoIn, MinerCore.engineAt]
  split
  · exact hE _
  · simp

/-- A capture takes the head of a FIFO that has one. -/
theorem AllResults.capture (h : AllResults P s) {c : Fin cfg.numClusters} (hc : s.capture = some c) :
    P (s.fifos c).nonceO := by
  unfold MinerCore.capture at hc
  split at hc
  · simp at hc
  · exact (h c).head (hitIdx_some hc)

/-- Without a captured result and without a write the result register keeps its state. -/
theorem resultValid_step_of_capture [Inhabited α] (obs : Engine → α) (h : s.capture = none) :
    (s.step obs none).resultValidQ = s.resultValidQ := by
  simp [MinerCore.step, h, MinerCore.startsLoad]

theorem capture_of_rings (h : ∀ c, (s.fifos c).ring.toList = []) : s.capture = none := by
  have hhit : s.clusterHit = none := by
    rw [MinerCore.clusterHit, hitIdx, List.find?_eq_none]
    intro c _
    simp [ClusterFifo.validO, (Ring.toList_eq_nil_iff _).1 (h c)]
  simp [MinerCore.capture, hhit]

/-- A result stays in the register until a write takes or clears it. -/
theorem result_step_of_valid [Inhabited α] (obs : Engine → α) (hv : s.resultValidQ = true)
    (hw : ∀ v, w = some v → v.clearValid = false ∧ v.clearResults = false ∧ v.start = false) :
    (s.step obs w).resultValidQ = true ∧ (s.step obs w).resultNonceQ = s.resultNonceQ := by
  have hc : s.capture = none := by simp [MinerCore.capture, hv]
  cases w with
  | none => simp [MinerCore.step, hc, hv, MinerCore.startsLoad]
  | some v =>
    obtain ⟨h1, h2, h3⟩ := hw v rfl
    simp [MinerCore.step, hc, hv, MinerCore.startsLoad, h1, h2, h3]

theorem step_of_capture [Inhabited α] (obs : Engine → α) (w : Option Write) {c : Fin cfg.numClusters}
    (h : s.capture = some c) :
    (s.step obs w).resultValidQ = true ∧ (s.step obs w).resultNonceQ = (s.fifos c).nonceO := by
  simp [MinerCore.step, h]

/-- The result register takes the head of the first ring that is not empty. -/
theorem capture_of_ring {c : Fin cfg.numClusters} (hv : s.resultValidQ = false) (hc : s.clusterHit = some c) :
    s.capture = some c := by
  simp [MinerCore.capture, hv, hc]

theorem ClusterFifo.nonceO_of_ring {c : FifoCfg} {f : ClusterFifo α c} {x : Word × α} {l : List (Word × α)}
    (h : f.ring.toList = x :: l) : f.nonceO = x.2 := by
  have hne : f.ring.count ≠ 0 := fun h0 => by simp [(Ring.toList_eq_nil_iff _).2 h0] at h
  have hhead := f.ring.head_eq hne
  rw [h] at hhead
  exact congrArg Prod.snd (Option.some.inj hhead).symm

theorem capture_of_empty (h : AllResults (fun _ => False) s) : s.capture = none := by
  cases hc : s.capture with
  | none => rfl
  | some c => exact (h.capture hc).elim

end Vek280Miner.Rtl
