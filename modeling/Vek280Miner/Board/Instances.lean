import Vek280Miner.Board.Accesses

/-!
# What an action does to an instance

Whoever acts, an instance sees at most one clock edge, with at most one write (`Board.hw_step`). The writes to
`IRQ_CONTROL` are those of the handler and of the unmask loop of the worker.
-/

namespace Vek280Miner

open Rtl Sw

variable {α : Type} {host : HostCfg} {cfg : MinerCfg}

/-- The writes that the worker has listed satisfy `P`. -/
def Pc.Lists {K : Nat} (P : RegWrite K → Prop) : Pc α K → Prop
  | .init l | .program _ l | .clear l => ∀ w ∈ l, P w
  | _ => True

namespace Board

/-- The clock edge that an action takes, with the write applied at it. -/
def edgeOf (a : Action host.instances) (s : Board α host cfg) : Option (Option (RegWrite host.instances)) :=
  match a, s.isr with
  | .edge, _ => some none
  | .handler, some i => i.write.map some
  | .worker _, none => s.pc.write.map some
  | .service inst w, none => some (some (w.regWrite inst))
  | _, _ => none

/-- The write that reaches instance `k` at an edge. -/
def writeTo (k : Fin host.instances) (w : Option (RegWrite host.instances)) : Option Write :=
  (w.filter (·.inst = k)).map RegWrite.write

theorem writeTo_some (k : Fin host.instances) (w : RegWrite host.instances) :
    writeTo k (some w) = if w.inst = k then some w.write else none := by
  by_cases h : w.inst = k <;> simp [writeTo, h]

/-- The worker lists the writes of `miner_clear` and those of a job, and makes them one after the other. -/
theorem Leads.lists {s : Board α host cfg} {view : α → Word} {p q : Pc α host.instances} {P : RegWrite host.instances → Prop}
    (h : s.Leads view p q) (hclear : ∀ w ∈ minerClear, P w) (hjob : ∀ request : JobRequest, ∀ w ∈ request.writes, P w)
    (hp : p.Lists P) : q.Lists P := by
  cases h with
  | initWrite w l | clearWrite w l => exact fun v hv => hp v (List.mem_cons_of_mem _ hv)
  | programWrite request w l => exact fun v hv => hp v (List.mem_cons_of_mem _ hv)
  | takeJob request => exact hjob request
  | masked => exact hclear
  | _ => trivial

/-- What the accesses of `miner_read_result` have found before. -/
def Reads (view : α → Word) (s : Board α host cfg) : Pc α host.instances → Prop
  | .resultNonce inst status => s.pc = .resultStatus inst ∧ s.read view inst minerRegResultStatus = status ∧
      status &&& minerResultStatusResult ≠ 0
  | .resultEngine inst status nonce tag => s.pc = .resultNonce inst status ∧ s.read view inst minerRegResultNonce = nonce ∧
      (s.hw inst).resultNonceQ = tag
  | .resultClear inst result tag => s.pc = .resultEngine inst result.status result.nonce tag ∧
      s.read view inst minerRegResultEngine + BitVec.ofNat 32 inst * host.enginesPerInstance = result.engine
  | .sendEvent result tag => ∃ inst, s.pc = .resultClear inst result tag
  | _ => True

theorem reads_advance (s : Board α host cfg) (view : α → Word) (now : Word) : s.Reads view (s.advance view now).pc := by
  have h := leads_advance s view now
  generalize hp : s.pc = p at h
  generalize (s.advance view now).pc = q at h ⊢
  cases h with
  | result inst hbit => exact ⟨hp, rfl, hbit⟩
  | resultNonce inst status => exact ⟨hp, rfl, rfl⟩
  | resultEngine inst status nonce tag => exact ⟨hp, rfl⟩
  | resultClear inst result tag => exact ⟨inst, hp⟩
  | _ => trivial

variable [Inhabited α]

theorem hw_apply (s : Board α host cfg) (obs : Engine → α) (w : Option (RegWrite host.instances)) :
    (s.apply obs w).hw = (w.map some).elim s.hw fun w k => (s.hw k).step obs (writeTo k w) := by
  cases w <;> rfl

/-- **One action, seen from the instances.** -/
theorem hw_step (s : Board α host cfg) (obs : Engine → α) (view : α → Word) (a : Action host.instances) :
    (s.step obs view a).hw = (s.edgeOf a).elim s.hw fun w k => (s.hw k).step obs (writeTo k w) := by
  cases h : s.isr with
  | none =>
    cases a with
    | edge => rfl
    | worker now =>
      simp only [step, edgeOf, h]
      rw [hw_apply, (frame_advance s view now).1]
    | interrupt => simp only [step, edgeOf, h]; split <;> rfl
    | service inst w => simp only [step, edgeOf, h]; rfl
    | _ => simp only [step, edgeOf, h]; rfl
  | some i =>
    cases a with
    | edge => rfl
    | handler =>
      simp only [step, edgeOf, h]
      rw [hw_apply, (frame_handle s view i).1]
    | _ => simp only [step, edgeOf, h]; rfl

/-- An instance stays as it is or takes an edge, with a write that is addressed to it. -/
theorem inst_step (s : Board α host cfg) (obs : Engine → α) (view : α → Word) (a : Action host.instances)
    (k : Fin host.instances) : (s.step obs view a).hw k = s.hw k ∨
      ∃ w, (s.step obs view a).hw k = (s.hw k).step obs w ∧
        ∀ v, w = some v → ∃ r, s.edgeOf a = some (some r) ∧ r.inst = k ∧ r.write = v := by
  rw [hw_step]
  cases he : s.edgeOf a with
  | none => exact .inl rfl
  | some w =>
    refine .inr ⟨writeTo k w, rfl, fun v hv => ?_⟩
    obtain ⟨r, hr, rfl⟩ := Option.map_eq_some_iff.1 hv
    obtain ⟨rfl, hk⟩ := Option.filter_eq_some_iff.1 hr
    exact ⟨r, rfl, by simpa using hk, rfl⟩

/-! ## The program counter -/

/-- Only the worker moves its program counter. -/
theorem pc_step (s : Board α host cfg) (obs : Engine → α) (view : α → Word) (a : Action host.instances) :
    (s.step obs view a).pc = s.pc ∨
      ∃ now, a = .worker now ∧ s.isr = none ∧ (s.step obs view a).pc = (s.advance view now).pc := by
  have h := acts_step s obs view a
  generalize s.step obs view a = s' at h ⊢
  cases h with
  | worker now hisr => exact .inr ⟨now, rfl, hisr, by rw [apply_eq]⟩
  | handler i hisr => exact .inl (by rw [apply_eq]; exact (frame_handle s view i).2.1)
  | _ => exact .inl rfl

theorem lists_step {P : RegWrite host.instances → Prop} {s : Board α host cfg} (hclear : ∀ w ∈ minerClear, P w)
    (hjob : ∀ request : JobRequest, ∀ w ∈ request.writes, P w) (h : s.pc.Lists P) (obs : Engine → α) (view : α → Word)
    (a : Action host.instances) : (s.step obs view a).pc.Lists P := by
  rcases pc_step s obs view a with hpc | ⟨now, -, -, hpc⟩
  · rw [hpc]
    exact h
  · rw [hpc]
    exact (leads_advance s view now).lists hclear hjob h

end Board

end Vek280Miner
