import Vek280Miner.Rtl.InterleavedRefines

/-!
# The core and the schedule service together (`tb_sha256_interleaved_proto.sv`)

The ports of `sha256_core_interleaved_proto` are wired to those of `dsp58_schedule_xpm_cdc`. The core runs on the slow
clock, the pipeline of the service on the fast one, and an instant may be an edge of either, of both or of none.

What the core is owed is at every instant what the service holds (`Coupled`), so the service answers only what it owes,
whatever the clocks and the queues do. If the clocks go on and the flags of the queues come up in time, the response to
the one request that is owed moves on from place to place (`Holds`), and every job ends.
-/

namespace Vek280Miner.Rtl

open Clocked (run run_succ waits_until)

/-! ## The service with one request -/

namespace ScheduleCdc

variable {E R : Nat} {σ τ : Type} (Q : AsyncFifo (SchedReq E R) σ) (P : AsyncFifo (SchedRsp E R) τ)

/-- The only request in the service is in the queue, in a stage of the pipeline, or back as its response. -/
inductive Holds : Nat → ScheduleCdc E R σ τ → Prop
  | request {s : ScheduleCdc E R σ τ} (r : SchedReq E R) : Q.contents s.reqFifo = [r] → s.pipeline.v1Q = false →
      s.pipeline.v2Q = false → P.contents s.rspFifo = [] → Holds 0 s
  | stage1 {s : ScheduleCdc E R σ τ} : Q.contents s.reqFifo = [] → s.pipeline.v1Q = true →
      s.pipeline.v2Q = false → P.contents s.rspFifo = [] → Holds 1 s
  | stage2 {s : ScheduleCdc E R σ τ} : Q.contents s.reqFifo = [] → s.pipeline.v1Q = false →
      s.pipeline.v2Q = true → P.contents s.rspFifo = [] → Holds 2 s
  | response {s : ScheduleCdc E R σ τ} (x : SchedRsp E R) : Q.contents s.reqFifo = [] → s.pipeline.v1Q = false →
      s.pipeline.v2Q = false → P.contents s.rspFifo = [x] → Holds 3 s

/-- The instant moves what is at place `p` on, if the other side takes it. -/
def Moves (p : Nat) (i : ScheduleIn E R) (s : ScheduleCdc E R σ τ) : Prop :=
  match p with
  | 0 => i.fast = true ∧ s.reqValidFast Q = true
  | 1 => i.fast = true
  | 2 => i.fast = true ∧ s.pipeRspReady P = true
  | _ => i.slow = true ∧ s.rspValid P = true

variable {Q P} {s : ScheduleCdc E R σ τ} {i : ScheduleIn E R} {p : Nat}

theorem holds_of_length (h : (s.held Q P).length = 1) : ∃ p, Holds Q P p s := by
  have hq : ∀ l : List (SchedReq E R), l.length = 0 → l = [] := fun l => List.length_eq_zero_iff.1
  have hp : ∀ l : List (SchedRsp E R), l.length = 0 → l = [] := fun l => List.length_eq_zero_iff.1
  simp only [held, Pipeline.held, List.length_append, List.length_map] at h
  cases h1 : s.pipeline.v1Q <;> cases h2 : s.pipeline.v2Q <;>
    simp only [h1, h2, Bool.false_eq_true, if_true, if_false, List.length_nil, List.length_singleton] at h
  · by_cases hr : (Q.contents s.reqFifo).length = 0
    · obtain ⟨x, hx⟩ := List.length_eq_one_iff.1 (show (P.contents s.rspFifo).length = 1 by omega)
      exact ⟨3, .response x (hq _ hr) h1 h2 hx⟩
    · obtain ⟨r, hr⟩ := List.length_eq_one_iff.1 (show (Q.contents s.reqFifo).length = 1 by omega)
      exact ⟨0, .request r hr h1 h2 (hp _ (by omega))⟩
  · exact ⟨2, .stage2 (hq _ (by omega)) h1 h2 (hp _ (by omega))⟩
  · exact ⟨1, .stage1 (hq _ (by omega)) h1 h2 (hp _ (by omega))⟩
  · omega

theorem Holds.le (h : Holds Q P p s) : p ≤ 3 := by
  cases h <;> omega

/-- What an instant without a new request leaves in the queue of the requests. -/
theorem reqFifo_step (hacc : s.accepted Q i = none) : Q.contents s.reqFifo =
    (if i.fast then s.pipeline.accepted (s.pipeIn Q P) else none).toList ++ Q.contents (s.step Q P i).reqFifo := by
  have h := Q.contents_balance (atEdge i.slow (s.reqFifoWrEn Q i, i.req)) (atEdge i.fast (s.reqFifoRdEn Q P)) s.reqFifo
  rw [pushed_req, hacc, popped_req, Option.toList_none, List.append_nil] at h
  exact h

/-- What an instant that hands nothing over adds to the queue of the responses. -/
theorem rspFifo_step (htaken : s.taken P i = none) : P.contents (s.step Q P i).rspFifo =
    P.contents s.rspFifo ++ (if i.fast then s.pipeline.taken (s.pipeIn Q P) else none).toList := by
  have h := P.contents_balance (atEdge i.fast (s.rspFifoWrEn P, s.pipeline.rsp)) (atEdge i.slow (s.rspFifoRdEn P i))
    s.rspFifo
  rw [pushed_rsp Q P, popped_rsp, htaken, Option.toList_none, List.nil_append] at h
  exact h.symm

/-- **An instant at which the slow side does nothing** leaves the request at its place, or moves it on. -/
theorem Holds.step (h : Holds Q P p s) (hacc : s.accepted Q i = none) (htaken : s.taken P i = none) :
    ((p < 3 → ¬ Moves Q P p i s) ∧ Holds Q P p (s.step Q P i)) ∨ Holds Q P (p + 1) (s.step Q P i) := by
  have hreq := reqFifo_step (P := P) hacc
  have hrsp := rspFifo_step (Q := Q) htaken
  have hpipe : (s.step Q P i).pipeline = if i.fast then s.pipeline.step (s.pipeIn Q P) else s.pipeline := rfl
  have hnone : Q.contents s.reqFifo = [] → s.reqValidFast Q = false := fun hq => by
    rw [reqValidFast, Q.empty_of_contents hq]
    rfl
  cases hf : i.fast with
  | false =>
    rw [hf] at hreq hrsp hpipe
    simp only [Bool.false_eq_true, if_false, Option.toList_none, List.nil_append, List.append_nil] at hreq hrsp hpipe
    refine .inl ⟨fun h3 hm => ?_, ?_⟩
    · match p, h3, hm with
      | 0, _, hm => exact absurd (hf.symm.trans hm.1) (by decide)
      | 1, _, hm => exact absurd (hf.symm.trans hm) (by decide)
      | 2, _, hm => exact absurd (hf.symm.trans hm.1) (by decide)
    · cases h with
      | request r hq h1 h2 hp => exact .request r (hreq.symm.trans hq) (by rw [hpipe, h1]) (by rw [hpipe, h2]) (hrsp.trans hp)
      | stage1 hq h1 h2 hp => exact .stage1 (hreq.symm.trans hq) (by rw [hpipe, h1]) (by rw [hpipe, h2]) (hrsp.trans hp)
      | stage2 hq h1 h2 hp => exact .stage2 (hreq.symm.trans hq) (by rw [hpipe, h1]) (by rw [hpipe, h2]) (hrsp.trans hp)
      | response x hq h1 h2 hp =>
        exact .response x (hreq.symm.trans hq) (by rw [hpipe, h1]) (by rw [hpipe, h2]) (hrsp.trans hp)
  | true =>
    rw [hf] at hreq hrsp hpipe
    simp only [if_true] at hreq hrsp hpipe
    cases h with
    | request r hq h1 h2 hp =>
      have hready : s.pipeline.reqReady (s.pipeIn Q P) = true := by
        simp [Pipeline.reqReady, Pipeline.stage1Ready, h1]
      have hrspNone : P.contents (s.step Q P i).rspFifo = [] := by
        rw [hrsp, hp, Pipeline.taken, h2]
        rfl
      cases hv : s.reqValidFast Q with
      | false =>
        have haccepted : s.pipeline.accepted (s.pipeIn Q P) = none := by
          simp [Pipeline.accepted, Pipeline.reqFire, pipeIn, hv]
        rw [haccepted] at hreq
        refine .inl ⟨fun _ hm => absurd (hv.symm.trans hm.2) (by decide), ?_⟩
        refine .request r (hreq.symm.trans hq) ?_ ?_ hrspNone
        · rw [hpipe]
          simp [Pipeline.step, Pipeline.stage1Ready, h1, pipeIn, hv]
        · rw [hpipe]
          simp [Pipeline.step, Pipeline.stage2Ready, h1, h2]
      | true =>
        have hfire : s.pipeline.reqFire (s.pipeIn Q P) = true := Bool.and_eq_true_iff.2 ⟨hv, hready⟩
        have haccepted : s.pipeline.accepted (s.pipeIn Q P) = some (Q.dout s.reqFifo) := if_pos hfire
        rw [haccepted, hq, Option.toList_some, List.singleton_append] at hreq
        refine .inr (.stage1 (List.cons.inj hreq).2.symm ?_ ?_ hrspNone)
        · rw [hpipe]
          simp [Pipeline.step, Pipeline.stage1Ready, h1, pipeIn, hv]
        · rw [hpipe]
          simp [Pipeline.step, Pipeline.stage2Ready, h1, h2]
    | stage1 hq h1 h2 hp =>
      have haccepted : s.pipeline.accepted (s.pipeIn Q P) = none := by
        simp [Pipeline.accepted, Pipeline.reqFire, pipeIn, hnone hq]
      rw [haccepted] at hreq
      refine .inr (.stage2 (hreq.symm.trans hq) ?_ ?_ ?_)
      · rw [hpipe]
        simp [Pipeline.step, Pipeline.stage1Ready, Pipeline.stage2Ready, h2, pipeIn, hnone hq]
      · rw [hpipe]
        simp [Pipeline.step, Pipeline.stage2Ready, h1, h2]
      · rw [hrsp, hp, Pipeline.taken, h2]
        rfl
    | stage2 hq h1 h2 hp =>
      have haccepted : s.pipeline.accepted (s.pipeIn Q P) = none := by
        simp [Pipeline.accepted, Pipeline.reqFire, pipeIn, hnone hq]
      rw [haccepted] at hreq
      have hv1 : (s.step Q P i).pipeline.v1Q = false := by
        rw [hpipe]
        simp [Pipeline.step, Pipeline.stage1Ready, h1, pipeIn, hnone hq]
      cases hr : s.pipeRspReady P with
      | false =>
        refine .inl ⟨fun _ hm => absurd (hr.symm.trans hm.2) (by decide), .stage2 (hreq.symm.trans hq) hv1 ?_ ?_⟩
        · rw [hpipe]
          simp [Pipeline.step, Pipeline.stage2Ready, h2, pipeIn, hr]
        · rw [hrsp, hp, Pipeline.taken, h2]
          simp [pipeIn, hr]
      | true =>
        refine .inr (.response s.pipeline.rsp (hreq.symm.trans hq) hv1 ?_ ?_)
        · rw [hpipe]
          simp [Pipeline.step, Pipeline.stage2Ready, h1, pipeIn, hr]
        · rw [hrsp, hp, Pipeline.taken, h2]
          simp [pipeIn, hr]
    | response x hq h1 h2 hp =>
      have haccepted : s.pipeline.accepted (s.pipeIn Q P) = none := by
        simp [Pipeline.accepted, Pipeline.reqFire, pipeIn, hnone hq]
      rw [haccepted] at hreq
      refine .inl ⟨fun h3 => absurd h3 (Nat.lt_irrefl 3), .response x (hreq.symm.trans hq) ?_ ?_ ?_⟩
      · rw [hpipe]
        simp [Pipeline.step, Pipeline.stage1Ready, h1, pipeIn, hnone hq]
      · rw [hpipe]
        simp [Pipeline.step, Pipeline.stage2Ready, h1, h2]
      · rw [hrsp, hp, Pipeline.taken, h2]
        rfl

end ScheduleCdc

/-! ## The system -/

/-- The core, with what has gone over its ports, and the service. -/
structure InterleavedSystem (σ τ : Type) where
  watched : Watched
  service : ScheduleCdc 5 6 σ τ

/-- An instant: which of the two clocks have an edge, and the start port of the core. -/
structure SystemIn where
  slow : Bool
  fast : Bool
  start : Bool
  block : Words 16
  h : Words 8

namespace InterleavedSystem

variable {σ τ : Type} (Q : AsyncFifo (SchedReq 5 6) σ) (P : AsyncFifo (SchedRsp 5 6) τ)

/-- What the core samples. -/
def coreIn (i : SystemIn) (s : InterleavedSystem σ τ) : InterleavedIn :=
  ⟨i.start, i.block, i.h, s.service.reqReady Q, s.service.rspValid P, P.dout s.service.rspFifo⟩

/-- What the service samples. -/
def serviceIn (i : SystemIn) (s : InterleavedSystem σ τ) : ScheduleIn 5 6 :=
  ⟨i.slow, i.fast, s.watched.core.schedReqValidO, s.watched.core.schedReqO, s.watched.core.schedRspReadyO⟩

def step (i : SystemIn) (s : InterleavedSystem σ τ) : InterleavedSystem σ τ where
  watched := if i.slow then s.watched.step (s.coreIn Q P i) else s.watched
  service := s.service.step Q P (s.serviceIn i)

def reset (c : InterleavedCore) : InterleavedSystem σ τ := ⟨.reset c, .reset Q P⟩

variable {Q P} {i : SystemIn} {s : InterleavedSystem σ τ} {m : Words 16} {h : Words 8} {t p : Nat} {q : Stage}

/-- An edge of the slow clock passes requests and responses between the two sides; no other instant does. -/
theorem accepted_eq : s.service.accepted Q (s.serviceIn i) =
    if i.slow then s.watched.core.accepted (s.coreIn Q P i) else none := by
  unfold ScheduleCdc.accepted InterleavedCore.accepted
  cases hs : i.slow <;> simp [serviceIn, coreIn, hs]

theorem taken_eq : s.service.taken P (s.serviceIn i) =
    if i.slow then s.watched.core.taken (s.coreIn Q P i) else none := by
  unfold ScheduleCdc.taken InterleavedCore.taken
  cases hs : i.slow <;> simp [serviceIn, coreIn, hs]

/-! ### What is owed and what is held -/

variable (Q P) in
/-- The service holds the responses to the requests that it owes one. -/
def Coupled (s : InterleavedSystem σ τ) : Prop := s.watched.pending.map SchedReq.response = s.service.held Q P

theorem coupled_reset (c : InterleavedCore) : Coupled Q P (reset Q P c) := by
  simp only [Coupled, reset, Watched.reset, ScheduleCdc.reset, ScheduleCdc.held, Q.contents_reset, P.contents_reset]
  rfl

/-- What is owed when an edge of the slow clock comes is what is handed over and what is held after it. -/
theorem Coupled.owed (hc : Coupled Q P s) (hs : i.slow = true) :
    (s.watched.owed (s.coreIn Q P i)).map SchedReq.response =
      (s.watched.core.taken (s.coreIn Q P i)).toList ++ (s.step Q P i).service.held Q P := by
  have hbal := s.service.held_balance Q P (s.serviceIn i)
  rw [accepted_eq (P := P), taken_eq (Q := Q), if_pos hs, if_pos hs, ← hc] at hbal
  rw [Watched.owed, List.map_append]
  refine Eq.trans ?_ hbal
  cases s.watched.core.accepted (s.coreIn Q P i) <;> rfl

theorem Coupled.answers (hc : Coupled Q P s) (hs : i.slow = true) : s.watched.Answers (s.coreIn Q P i) := by
  intro rsp hrsp
  have howed := hc.owed (i := i) hs
  rw [hrsp, Option.toList_some, List.singleton_append] at howed
  have hmem : rsp ∈ (s.watched.owed (s.coreIn Q P i)).map SchedReq.response := by
    rw [howed]
    exact List.mem_cons_self
  exact .inl (List.mem_map.1 hmem)

/-- **An instant keeps what is owed and what is held together.** -/
theorem Coupled.step (hc : Coupled Q P s) : Coupled Q P (s.step Q P i) := by
  cases hs : i.slow with
  | false =>
    have hbal := s.service.held_balance Q P (s.serviceIn i)
    rw [accepted_eq (P := P), taken_eq (Q := Q), hs] at hbal
    have hwatched : (s.step Q P i).watched = s.watched := by simp [InterleavedSystem.step, hs]
    rw [Coupled, hwatched, hc]
    simp only [Bool.false_eq_true, if_false, Option.map_none, Option.toList_none, List.append_nil, List.nil_append] at hbal
    exact hbal
  | true =>
    have howed := hc.owed (i := i) hs
    have hwatched : (s.step Q P i).watched = s.watched.step (s.coreIn Q P i) := by simp [InterleavedSystem.step, hs]
    rw [Coupled, hwatched, Watched.step]
    cases ht : s.watched.core.taken (s.coreIn Q P i) with
    | none =>
      rw [ht] at howed
      exact howed
    | some rsp =>
      rw [ht, Option.toList_some, List.singleton_append] at howed
      obtain ⟨r, l, hl, hr, hrest⟩ := List.map_eq_cons_iff.1 howed
      simp only [hl, List.eraseP_cons, hr, beq_self_eq_true, cond_true]
      exact hrest

variable (Q P) in
/-- A state of a run. -/
structure Runs (s : InterleavedSystem σ τ) : Prop where
  coupled : Coupled Q P s
  sound : Sound s.watched

theorem runs_reset (c : InterleavedCore) : Runs Q P (reset Q P c) := ⟨coupled_reset c, sound_reset c⟩

theorem Runs.step (hr : Runs Q P s) : Runs Q P (s.step Q P i) := by
  refine ⟨hr.coupled.step, ?_⟩
  simp only [InterleavedSystem.step]
  split
  · exact hr.sound.step (hr.coupled.answers ‹_›)
  · exact hr.sound

/-- One request is owed while a response is awaited, and none otherwise. -/
theorem Coupled.length_held (hc : Coupled Q P s) (hw : At m h t q s.watched) :
    (s.service.held Q P).length = if q = .await then 1 else 0 := by
  rw [← hc, hw.pending, List.length_map]
  split <;> rfl

/-! ### Progress -/

variable (Q P) in
/-- The core is in stage `q` of round `t`, and the request that is owed is at place `p`. -/
structure Stands (m : Words 16) (h : Words 8) (t : Nat) (q : Stage) (p : Nat) (s : InterleavedSystem σ τ) : Prop where
  coupled : Coupled Q P s
  lt : t < 64
  core : At m h t q s.watched
  place : if q = .await then ScheduleCdc.Holds Q P p s.service else p = 0

/-- The place of the core and its request in the whole job. -/
def standing (t : Nat) (q : Stage) (p : Nat) : Nat := 4 * q.rank t + p

variable (Q P) in
/-- Further on than `r`, or at the end. -/
def Further (m : Words 16) (h : Words 8) (r : Nat) (s : InterleavedSystem σ τ) : Prop :=
  (∃ t q p, r < standing t q p ∧ Stands Q P m h t q p s) ∨ Finished m h s.watched

variable (Q P) in
/-- The instant moves a core in stage `q` on, or its request from place `p`. -/
def Goes (q : Stage) (p : Nat) (i : SystemIn) (s : InterleavedSystem σ τ) : Prop :=
  match q with
  | .offer => i.slow = true ∧ s.service.reqReady Q = true
  | .await => ScheduleCdc.Moves Q P p (s.serviceIn i) s.service
  | _ => i.slow = true

theorem Coupled.stands (hc : Coupled Q P s) (hw : At m h t q s.watched) (ht : t < 64) :
    ∃ p, Stands Q P m h t q p s := by
  have hlen := hc.length_held hw
  by_cases hq : q = .await
  · rw [if_pos hq] at hlen
    obtain ⟨p, hp⟩ := ScheduleCdc.holds_of_length hlen
    exact ⟨p, hc, ht, hw, by rw [if_pos hq]; exact hp⟩
  · exact ⟨0, hc, ht, hw, by rw [if_neg hq]⟩

theorem Stands.place_le (hs : Stands Q P m h t q p s) : p ≤ 3 := by
  have hp := hs.place
  split at hp
  · exact hp.le
  · omega

/-- A later stage of the core is further on. -/
theorem Stands.further (hs : Stands Q P m h t q p s) {s' : InterleavedSystem σ τ} (hc : Coupled Q P s')
    (hl : Later m h (q.rank t) s'.watched) : Further Q P m h (standing t q p) s' := by
  obtain ⟨t', q', ht', hrank, hw⟩ | hf := hl
  · obtain ⟨p', hp'⟩ := hc.stands hw ht'
    have hle := hs.place_le
    exact .inl ⟨t', q', p', by unfold standing; omega, hp'⟩
  · exact .inr hf

/-- **An instant** keeps everything where it is, or leads further. -/
theorem Stands.step (hs : Stands Q P m h t q p s) :
    (¬ Goes Q P q p i s ∧ Stands Q P m h t q p (s.step Q P i)) ∨ Further Q P m h (standing t q p) (s.step Q P i) := by
  have hc := hs.coupled.step (i := i)
  -- where the request is while the core neither gives a request nor takes a response
  have hplace : s.service.accepted Q (s.serviceIn i) = none → s.service.taken P (s.serviceIn i) = none → q = .await →
      ((p < 3 → ¬ Goes Q P q p i s) ∧ ScheduleCdc.Holds Q P p (s.step Q P i).service) ∨
        ScheduleCdc.Holds Q P (p + 1) (s.step Q P i).service := by
    intro hacc htaken hq
    have hp := hs.place
    subst hq
    rw [if_pos rfl] at hp
    exact hp.step hacc htaken
  cases hslow : i.slow with
  | false =>
    have hwatched : (s.step Q P i).watched = s.watched := by simp [InterleavedSystem.step, hslow]
    have hw : At m h t q (s.step Q P i).watched := by rw [hwatched]; exact hs.core
    by_cases hq : q = .await
    · have hacc : s.service.accepted Q (s.serviceIn i) = none := by rw [accepted_eq (P := P), hslow]; rfl
      have htaken : s.service.taken P (s.serviceIn i) = none := by rw [taken_eq (Q := Q), hslow]; rfl
      obtain ⟨hgo, hp⟩ | hp := hplace hacc htaken hq
      · refine .inl ⟨fun hg => ?_, hc, hs.lt, hw, by rw [if_pos hq]; exact hp⟩
        by_cases h3 : p < 3
        · exact hgo h3 hg
        · obtain rfl : p = 3 := by have := hs.place_le; omega
          subst hq
          exact absurd (hslow.symm.trans hg.1) (by decide)
      · exact .inr (.inl ⟨t, q, p + 1, by unfold standing; omega, hc, hs.lt, hw, by rw [if_pos hq]; exact hp⟩)
    · have hp := hs.place
      rw [if_neg hq] at hp
      refine .inl ⟨fun hg => ?_, hc, hs.lt, hw, by rw [if_neg hq]; exact hp⟩
      cases q with
      | await => exact hq rfl
      | offer => exact absurd (hslow.symm.trans hg.1) (by decide)
      | launch => exact absurd (hslow.symm.trans hg) (by decide)
      | calculate => exact absurd (hslow.symm.trans hg) (by decide)
      | update => exact absurd (hslow.symm.trans hg) (by decide)
  | true =>
    have hwatched : (s.step Q P i).watched = s.watched.step (s.coreIn Q P i) := by simp [InterleavedSystem.step, hslow]
    obtain ⟨hwaits, hw⟩ | hl := hs.core.goes_on hs.lt (hs.coupled.answers hslow)
    · rw [← hwatched] at hw
      obtain ⟨rfl, hr⟩ | ⟨rfl, hm⟩ := hwaits
      · have hp := hs.place
        refine .inl ⟨fun hg => ?_, hc, hs.lt, hw, hp⟩
        exact absurd (hr.symm.trans hg.2) (by decide)
      · -- a response that is there has the tags that the core waits for
        have hvalid : s.service.rspValid P = false := by
          by_contra hv
          have htaken : s.watched.core.taken (s.coreIn Q P i) = some (P.dout s.service.rspFifo) := by
            rw [hs.core.taken, if_pos ⟨.inr rfl, eq_true_of_ne_false hv⟩]
            rfl
          have howed := hs.coupled.owed (i := i) hslow
          rw [hs.core.owed (.inr rfl), if_neg (by simp), htaken] at howed
          have hrsp : (schedRequest m t).response = P.dout s.service.rspFifo := (List.cons.inj howed).1
          have hmatch := (hs.core.regs.rspMatches_iff (i := s.coreIn Q P i) (.inr rfl) hs.lt).2
            ⟨eq_true_of_ne_false hv, by
              show (P.dout s.service.rspFifo).engine = _
              rw [← hrsp, (hs.core.regs.late (.inr rfl)).2]
              rfl, by
              show (P.dout s.service.rspFifo).round = _
              rw [← hrsp, (hs.core.regs.late (.inr rfl)).2]
              rfl⟩
          rw [hm] at hmatch
          cases hmatch
        have hacc : s.service.accepted Q (s.serviceIn i) = none := by
          rw [accepted_eq (P := P), if_pos hslow, hs.core.accepted, if_neg (by simp)]
        have htaken : s.service.taken P (s.serviceIn i) = none := by
          simp [ScheduleCdc.taken, hvalid]
        obtain ⟨hgo, hp⟩ | hp := hplace hacc htaken rfl
        · refine .inl ⟨fun hg => ?_, hc, hs.lt, hw, by rw [if_pos rfl]; exact hp⟩
          by_cases h3 : p < 3
          · exact hgo h3 hg
          · obtain rfl : p = 3 := by have := hs.place_le; omega
            exact absurd (hvalid.symm.trans hg.2) (by decide)
        · exact .inr (.inl ⟨t, .await, p + 1, by unfold standing; omega, hc, hs.lt, hw, by rw [if_pos rfl]; exact hp⟩)
    · rw [← hwatched] at hl
      exact .inr (hs.further hc hl)

/-! ### Runs -/

variable (Q P) in
/-- Both clocks go on, and the flags of both queues come up in time. -/
structure FairInstants (inp : Nat → SystemIn) (s : Nat → InterleavedSystem σ τ) : Prop where
  slow : ∀ n, ∃ u ≥ n, (inp u).slow = true
  fast : ∀ n, ∃ u ≥ n, (inp u).fast = true
  request : Q.Prompt (fun u => (inp u).slow) (fun u => (inp u).fast) fun u => (s u).service.reqFifo
  response : P.Prompt (fun u => (inp u).fast) (fun u => (inp u).slow) fun u => (s u).service.rspFifo

section Run

variable {c : InterleavedCore} {inp : Nat → SystemIn}

theorem runs_run : ∀ n, Runs Q P (run (step Q P) inp (reset Q P c) n)
  | 0 => runs_reset c
  | n + 1 => (runs_run n).step

/-- What moves the core or its request on comes. -/
theorem Stands.goes {x : Nat → InterleavedSystem σ τ} {n : Nat} (hf : FairInstants Q P inp x)
    (hs : Stands Q P m h t q p (x n)) : ∃ u ≥ n, Goes Q P q p (inp u) (x u) := by
  have hlen := hs.coupled.length_held hs.core
  cases q with
  | launch => exact hf.slow n
  | calculate => exact hf.slow n
  | update => exact hf.slow n
  | offer =>
    rw [if_neg (by simp), List.length_eq_zero_iff, ScheduleCdc.held, List.append_eq_nil_iff, List.map_eq_nil_iff] at hlen
    obtain ⟨u, hu, hclk, hfull, hbusy⟩ := hf.request.writable n hlen.2
    exact ⟨u, hu, hclk, by simp [ScheduleCdc.reqReady, hfull, hbusy]⟩
  | await =>
    have hp := hs.place
    rw [if_pos rfl] at hp
    cases hp with
    | request r hq _ _ _ =>
      obtain ⟨u, hu, hclk, hempty, hbusy⟩ := hf.request.readable n (by rw [hq]; exact List.cons_ne_nil _ _)
      exact ⟨u, hu, hclk, by simp [ScheduleCdc.reqValidFast, hempty, hbusy]⟩
    | stage1 => exact hf.fast n
    | stage2 _ _ _ hrsp =>
      obtain ⟨u, hu, hclk, hfull, hbusy⟩ := hf.response.writable n hrsp
      exact ⟨u, hu, hclk, by simp [ScheduleCdc.pipeRspReady, hfull, hbusy]⟩
    | response y _ _ _ hrsp =>
      obtain ⟨u, hu, hclk, hempty, hbusy⟩ := hf.response.readable n (by rw [hrsp]; exact List.cons_ne_nil _ _)
      exact ⟨u, hu, hclk, by simp [ScheduleCdc.rspValid, hempty, hbusy]⟩

theorem Stands.advances {n : Nat} (hf : FairInstants Q P inp (run (InterleavedSystem.step Q P) inp (reset Q P c)))
    (hs : Stands Q P m h t q p (run (InterleavedSystem.step Q P) inp (reset Q P c) n)) :
    ∃ u > n, Further Q P m h (standing t q p) (run (InterleavedSystem.step Q P) inp (reset Q P c) u) :=
  waits_until (P := fun u => Stands Q P m h t q p (run (InterleavedSystem.step Q P) inp (reset Q P c) u)) hs (hs.goes hf)
    fun u _ hu => hu.step (i := inp u)

/-- A job ends. -/
theorem Stands.finishes (hf : FairInstants Q P inp (run (InterleavedSystem.step Q P) inp (reset Q P c))) :
    ∀ (k n : Nat) {t : Nat} {q : Stage} {p : Nat}, 1280 ≤ standing t q p + k →
      Stands Q P m h t q p (run (InterleavedSystem.step Q P) inp (reset Q P c) n) →
      ∃ u > n, Finished m h (run (InterleavedSystem.step Q P) inp (reset Q P c) u).watched := by
  intro k
  induction k with
  | zero =>
    intro n t q p hk hs
    have hle := hs.place_le
    have ht := hs.lt
    cases q <;> simp only [standing, Stage.rank] at hk <;> omega
  | succ k ih =>
    intro n t q p hk hs
    obtain ⟨u, hu, ⟨t', q', p', hstand, hs'⟩ | hend⟩ := hs.advances hf
    · obtain ⟨v, hv, hend⟩ := ih u (by omega) hs'
      exact ⟨v, by omega, hend⟩
    · exact ⟨u, hu, hend⟩

end Run

/-- **The system.** Whatever edges the clocks have, however the flags of the queues lag, and whatever is put on the start
port: at most one request is in the service, and `done_o` is up only with `sha256_compress` of the inputs of the last
start, after exactly the requests for the rounds 16 to 63, in order. If the clocks go on and the flags of the queues come
up in time, every job ends. -/
theorem interleaved_system_refines (Q : AsyncFifo (SchedReq 5 6) σ) (P : AsyncFifo (SchedRsp 5 6) τ) (c : InterleavedCore)
    (inp : Nat → SystemIn) :
    let x := run (step Q P) inp (reset Q P c)
    (∀ n, (x n).watched.core.doneO = true → ∃ m h, (x n).watched.job = some (m, h) ∧
      (x n).watched.core.digestO = Sw.sha256Compress h (wordsBytes m) ∧
      (x n).watched.issued = (List.range' 16 48).map (schedRequest m)) ∧
    (∀ n, ((x n).service.held Q P).length ≤ 1) ∧
    (FairInstants Q P inp x → ∀ n, (x n).watched.core.busyQ = true →
      ∃ u > n, (x u).watched.core.doneO = true ∧ (x u).watched.job = (x n).watched.job) := by
  intro x
  have hruns : ∀ n, Runs Q P (x n) := runs_run
  refine ⟨fun n hd => ?_, fun n => ?_, fun hfair n hb => ?_⟩
  · obtain ⟨m, h, t, q, -, hw⟩ | hw := (hruns n).sound
    · exact absurd (hw.regs.done.symm.trans hd) (by decide)
    · obtain ⟨m, h, hf⟩ := hw.done hd
      exact ⟨m, h, hf.job, by rw [hf.core.digest, Sw.sha256Compress_wordsBytes], hf.issued⟩
  · have hc := (hruns n).coupled
    obtain ⟨m, h, t, q, -, hw⟩ | hw := (hruns n).sound
    · rw [hc.length_held hw]
      split <;> omega
    · rw [← hc, hw.pending]
      exact Nat.zero_le 1
  · obtain ⟨m, h, t, q, ht, hw⟩ | hw := (hruns n).sound
    · obtain ⟨p, hs⟩ := (hruns n).coupled.stands hw ht
      obtain ⟨u, hu, hend⟩ := Stands.finishes hfair 1280 n (by omega) hs
      exact ⟨u, hu, hend.core.done, hend.job.trans hw.job.symm⟩
    · exact absurd (hw.busy.symm.trans hb) (by decide)

/-- Both clocks in step, with a start at every edge. -/
def inStep (_ : Nat) : SystemIn := ⟨true, true, true, 0, 0⟩

/-- With queues that do not lag the all-zero block is hashed. -/
theorem interleaved_system_in_step :
    let x := run (step (.queue 16) (.queue 16)) inStep (reset (.queue 16) (.queue 16) default)
    ∃ u, (x u).watched.core.doneO = true ∧
      (x u).watched.core.digestO = Sw.sha256Compress 0 (wordsBytes (0 : Words 16)) := by
  intro x
  obtain ⟨hdone, -, hends⟩ := interleaved_system_refines (.queue 16) (.queue 16) default inStep
  have hfair : FairInstants (.queue 16) (.queue 16) inStep x :=
    ⟨fun n => ⟨n, le_rfl, rfl⟩, fun n => ⟨n, le_rfl, rfl⟩, AsyncFifo.queue_prompt (by decide) _,
      AsyncFifo.queue_prompt (by decide) _⟩
  obtain ⟨u, -, hu, hjob⟩ := hends hfair 1 rfl
  obtain ⟨m, h, hmh, hdigest, -⟩ := hdone u hu
  obtain ⟨rfl, rfl⟩ : 0 = m ∧ 0 = h := by simpa [run, step, Watched.step, Watched.starts, reset, Watched.reset,
    InterleavedCore.reset, coreIn, inStep] using (hjob.symm.trans hmh)
  exact ⟨u, hu, hdigest⟩

end InterleavedSystem

end Vek280Miner.Rtl
