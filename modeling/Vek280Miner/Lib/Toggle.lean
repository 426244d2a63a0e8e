import Mathlib.Order.Basic
import Mathlib.Order.Nat

/-!
# Toggle handshakes between two clock domains

A `Wire` is a toggle of one domain with its copies in another: two synchroniser stages, which sample at the edges of
that domain, and the value that was acted on last. The toggle is flipped only when its last value was acted on, so at
most one change is on its way (`Wire.Ok`), and it arrives after two edges (`Wire.arrives`).

A `Link` carries requests one way and responses the other, each over its own wire, with one transaction at a time
(`Link.Ok`). Payloads stay while their change is on its way: every request is issued once, in order, and every response
is delivered once, in order (`Link.requests_step`, `Link.responses_step`). Edges of the two domains come in any order,
also together. A `Slot` offers what it was loaded with until it is taken.
-/

namespace Vek280Miner

/-! ## One toggle -/

/-- A toggle and its copies in the other domain. -/
structure Wire where
  toggle : Bool
  sync1 : Bool
  sync2 : Bool
  seen : Bool
deriving DecidableEq

namespace Wire

/-- A change has been sent and not acted on. -/
def pending (w : Wire) : Bool := w.toggle != w.seen

/-- The change shows behind the synchroniser. -/
def arrived (w : Wire) : Bool := w.sync2 != w.seen

/-- At most one change is on its way. -/
def Ok (w : Wire) : Prop := (w.toggle = w.sync1 ∨ w.sync1 = w.sync2 ∧ w.sync2 = w.seen) ∧ (w.sync1 = w.sync2 ∨ w.sync2 = w.seen)

/-- The toggle is flipped when `flip`, the other domain has an edge when `edge`, and it acts on the change when `act`.
-/
def step (flip edge act : Bool) (w : Wire) : Wire where
  toggle := w.toggle ^^ flip
  sync1 := if edge then w.toggle else w.sync1
  sync2 := if edge then w.sync1 else w.sync2
  seen := if act then w.sync2 else w.seen

def reset : Wire := ⟨false, false, false, false⟩

theorem Ok.pending_of_arrived {w : Wire} (h : w.Ok) (ha : w.arrived = true) : w.pending = true := by
  obtain ⟨t, s1, s2, seen⟩ := w
  revert h ha
  cases t <;> cases s1 <;> cases s2 <;> cases seen <;> simp [Ok, arrived, pending]

theorem Ok.step {w : Wire} {flip edge act : Bool} (h : w.Ok) (hf : flip = true → w.pending = false)
    (ha : act = true → edge = true ∧ w.arrived = true) : (w.step flip edge act).Ok := by
  obtain ⟨t, s1, s2, seen⟩ := w
  revert h hf ha
  cases t <;> cases s1 <;> cases s2 <;> cases seen <;> cases flip <;> cases edge <;> cases act <;>
    simp [Ok, arrived, pending, Wire.step]

theorem Ok.pending_step {w : Wire} {flip edge act : Bool} (h : w.Ok) (hf : flip = true → w.pending = false)
    (ha : act = true → edge = true ∧ w.arrived = true) :
    (w.step flip edge act).pending = (flip || (w.pending && !act)) := by
  obtain ⟨t, s1, s2, seen⟩ := w
  revert h hf ha
  cases t <;> cases s1 <;> cases s2 <;> cases seen <;> cases flip <;> cases edge <;> cases act <;>
    simp [Ok, arrived, pending, Wire.step]

/-- A change that is never acted on shows for ever after two edges. -/
theorem arrives {w : Nat → Wire} {edge : Nat → Bool} {t : Nat} (hp : (w t).pending = true)
    (hs : ∀ u ≥ t, w (u + 1) = (w u).step false (edge u) false) (he : ∀ u, ∃ v ≥ u, edge v = true) :
    ∃ u ≥ t, ∀ v ≥ u, (w v).arrived = true := by
  have hfix : ∀ u ≥ t, (w u).toggle = (w t).toggle ∧ (w u).seen = (w t).seen := by
    intro u hu
    induction u, hu using Nat.le_induction with
    | base => exact ⟨rfl, rfl⟩
    | succ u hu ih =>
      rw [hs u hu]
      exact ⟨(Bool.xor_false _).trans ih.1, ih.2⟩
  -- the first stage has the change from the first edge on, the second stage from the second edge on
  obtain ⟨a, ha, hea⟩ := he t
  have h1 : ∀ u ≥ a + 1, (w u).sync1 = (w t).toggle := by
    intro u hu
    induction u, hu using Nat.le_induction with
    | base =>
      rw [hs a ha]
      simp [step, hea, hfix a ha]
    | succ u hu ih =>
      rw [hs u (by omega)]
      cases hedge : edge u <;> simp [step, ih, hfix u (by omega)]
  obtain ⟨b, hb, heb⟩ := he (a + 1)
  refine ⟨b + 1, by omega, fun v hv => ?_⟩
  have h2 : (w v).sync2 = (w t).toggle := by
    induction v, hv using Nat.le_induction with
    | base =>
      rw [hs b (by omega)]
      simp [step, heb, h1 b hb]
    | succ u hu ih =>
      rw [hs u (by omega)]
      cases hedge : edge u <;> simp [step, ih, h1 u (by omega)]
  simpa [arrived, pending, h2, hfix v (by omega)] using hp

end Wire

/-! ## A register that is offered -/

/-- Data that is offered while `valid`. -/
structure Slot (γ : Type) where
  valid : Bool
  data : γ

namespace Slot

variable {γ : Type}

def offered (x : Slot γ) : List γ := if x.valid then [x.data] else []

def taken (ready : Bool) (x : Slot γ) : Option γ := if x.valid && ready then some x.data else none

def step (load : Option γ) (ready : Bool) (x : Slot γ) : Slot γ where
  valid := load.isSome || (x.valid && !ready)
  data := load.getD x.data

/-- A slot that is never loaded while it is valid may as well be emptied first. -/
theorem step_eq {load : Option γ} {ready : Bool} {x : Slot γ} (h : load.isSome = true → x.valid = false) :
    x.step load ready =
      ⟨if x.valid && ready then false else if load.isSome then true else x.valid, load.getD x.data⟩ := by
  cases load with
  | none => cases hv : x.valid <;> cases ready <;> simp [step, hv]
  | some d => simp [step, h rfl]

/-- What is loaded into an empty slot is offered, and what is taken leaves it. -/
theorem offered_step {load : Option γ} {ready : Bool} {x : Slot γ} (h : load.isSome = true → x.valid = false) :
    x.offered ++ load.toList = (x.taken ready).toList ++ (x.step load ready).offered := by
  cases load with
  | none => cases hv : x.valid <;> cases ready <;> simp [offered, taken, step, hv]
  | some d => simp [offered, taken, step, h rfl]

/-- A slot that is not loaded is empty for good once it is taken. -/
theorem empties {x : Nat → Slot γ} {ready : Nat → Bool} {t : Nat} (hs : ∀ u ≥ t, x (u + 1) = (x u).step none (ready u))
    (hr : ∀ u, (x u).valid = true → ∃ v ≥ u, ready v = true) : ∃ a ≥ t, ∀ v ≥ a, (x v).valid = false := by
  have hnext : ∀ u ≥ t, (x (u + 1)).valid = ((x u).valid && !ready u) := fun u hu => by
    rw [hs u hu]
    rfl
  have hstays : ∀ a ≥ t, (x a).valid = false → ∀ v ≥ a, (x v).valid = false := by
    intro a ha h0 v hv
    induction v, hv using Nat.le_induction with
    | base => exact h0
    | succ v hv ih => rw [hnext v (by omega), ih, Bool.false_and]
  cases hv : (x t).valid with
  | false => exact ⟨t, le_rfl, hstays t le_rfl hv⟩
  | true =>
    obtain ⟨u, hu, hready⟩ := hr t hv
    exact ⟨u + 1, by omega, hstays (u + 1) (by omega) (by rw [hnext u hu, hready, Bool.not_true, Bool.and_false])⟩

end Slot

/-! ## Requests and responses -/

/-- The registers of a link: the near domain has `busy` and the request, the far domain `active` and the response. -/
structure Link (α β : Type) where
  req : Wire
  reqData : α
  busy : Bool
  active : Bool
  rsp : Wire
  rspData : β

/-- What happens to a link at an instant: edges of either domain, with what they do. -/
structure LinkTick (α β : Type) where
  /-- The near domain has an edge. -/
  near : Bool
  /-- It takes a request. -/
  accept : Option α
  /-- The far domain has an edge. -/
  far : Bool
  /-- It may act on a request. -/
  enable : Bool
  /-- It has the response. -/
  finish : Option β

namespace Link

variable {α β : Type}

/-- A request is issued. -/
def issues (k : LinkTick α β) (l : Link α β) : Bool := k.far && k.enable && l.req.arrived

/-- A response is delivered. -/
def delivers (k : LinkTick α β) (l : Link α β) : Bool := k.near && l.busy && l.rsp.arrived

def issued (k : LinkTick α β) (l : Link α β) : Option α := if l.issues k then some l.reqData else none

def delivered (k : LinkTick α β) (l : Link α β) : Option β := if l.delivers k then some l.rspData else none

def step (k : LinkTick α β) (l : Link α β) : Link α β where
  req := l.req.step k.accept.isSome k.far (l.issues k)
  reqData := k.accept.getD l.reqData
  busy := if l.delivers k then false else l.busy || k.accept.isSome
  active := if k.finish.isSome then false else l.active || l.issues k
  rsp := l.rsp.step k.finish.isSome k.near (l.delivers k)
  rspData := k.finish.getD l.rspData

/-- What the two domains see to: one request at a time, and a response to a request that was issued. -/
structure Allowed (k : LinkTick α β) (l : Link α β) : Prop where
  accept : k.accept.isSome = true → k.near = true ∧ l.busy = false
  enable : k.enable = true → l.active = false
  finish : k.finish.isSome = true → k.far = true ∧ l.active = true

/-- One transaction at a time: a request on its way, then active, then a response on its way. -/
structure Ok (l : Link α β) : Prop where
  req : l.req.Ok
  rsp : l.rsp.Ok
  busy : l.busy = (l.req.pending || l.active || l.rsp.pending)
  requested : l.req.pending = true → l.active = false ∧ l.rsp.pending = false
  served : l.active = true → l.rsp.pending = false

/-- The request that is on its way. -/
def requests (l : Link α β) : List α := if l.req.pending then [l.reqData] else []

/-- The response that is on its way. -/
def responses (l : Link α β) : List β := if l.rsp.pending then [l.rspData] else []

variable {k : LinkTick α β} {l : Link α β}

theorem Ok.not_busy (h : l.Ok) (hb : l.busy = false) : l.req.pending = false ∧ l.active = false ∧ l.rsp.pending = false := by
  have hbusy := h.busy
  rw [hb, eq_comm, Bool.or_eq_false_iff, Bool.or_eq_false_iff] at hbusy
  exact ⟨hbusy.1.1, hbusy.1.2, hbusy.2⟩

theorem Ok.busy_of_active (h : l.Ok) (ha : l.active = true) : l.busy = true := by simp [h.busy, ha]

theorem Ok.not_requested (h : l.Ok) (ha : l.active = true) : l.req.pending = false := by
  by_contra hp
  have hnot := (h.requested (eq_true_of_ne_false hp)).1
  rw [ha] at hnot
  cases hnot

theorem Ok.of_issues (h : l.Ok) (hi : l.issues k = true) : k.far = true ∧ l.req.arrived = true ∧ l.req.pending = true := by
  simp only [issues, Bool.and_eq_true] at hi
  exact ⟨hi.1.1, hi.2, h.req.pending_of_arrived hi.2⟩

theorem Ok.of_delivers (h : l.Ok) (hd : l.delivers k = true) :
    k.near = true ∧ l.rsp.arrived = true ∧ l.rsp.pending = true := by
  simp only [delivers, Bool.and_eq_true] at hd
  exact ⟨hd.1.1, hd.2, h.rsp.pending_of_arrived hd.2⟩

theorem Ok.not_issues (h : l.Ok) (hp : l.req.pending = false) : l.issues k = false := by
  by_contra hi
  have hpending := (h.of_issues (eq_true_of_ne_false hi)).2.2
  rw [hp] at hpending
  cases hpending

theorem Ok.not_delivers (h : l.Ok) (hp : l.rsp.pending = false) : l.delivers k = false := by
  by_contra hd
  have hpending := (h.of_delivers (eq_true_of_ne_false hd)).2.2
  rw [hp] at hpending
  cases hpending

/-- What a tick does depends on the phase it finds. -/
theorem Ok.pending_step (h : l.Ok) (ha : Allowed k l) :
    (l.step k).req.pending = (k.accept.isSome || (l.req.pending && !l.issues k)) ∧
      (l.step k).rsp.pending = (k.finish.isSome || (l.rsp.pending && !l.delivers k)) := by
  constructor
  · exact h.req.pending_step (fun hf => (h.not_busy (ha.accept hf).2).1)
      (fun hi => ⟨(h.of_issues hi).1, (h.of_issues hi).2.1⟩)
  · exact h.rsp.pending_step (fun hf => h.served (ha.finish hf).2)
      (fun hd => ⟨(h.of_delivers hd).1, (h.of_delivers hd).2.1⟩)

theorem Ok.step (h : l.Ok) (ha : Allowed k l) : (l.step k).Ok := by
  obtain ⟨hreq, hrsp⟩ := h.pending_step ha
  have hissue : l.issues k = true → l.req.pending = true := fun hi => (h.of_issues hi).2.2
  have hdeliver : l.delivers k = true → l.rsp.pending = true := fun hd => (h.of_delivers hd).2.2
  have haccept := fun hk => h.not_busy (ha.accept hk).2
  have hfinish := fun hk => (ha.finish hk).2
  obtain ⟨hreqOk, hrspOk, hbusy, hrequested, hserved⟩ := h
  refine ⟨hreqOk.step (fun hf => (haccept hf).1) ?_, hrspOk.step (fun hf => hserved (hfinish hf)) ?_, ?_, ?_, ?_⟩
  · intro hi
    simp only [issues, Bool.and_eq_true] at hi
    exact ⟨hi.1.1, hi.2⟩
  · intro hd
    simp only [delivers, Bool.and_eq_true] at hd
    exact ⟨hd.1.1, hd.2⟩
  all_goals
    simp only [hreq, hrsp]
    simp only [Link.step]
    grind

/-- A request that is taken joins those on their way, and one that is issued leaves them. -/
theorem requests_step (h : l.Ok) (ha : Allowed k l) :
    l.requests ++ k.accept.toList = (l.issued k).toList ++ (l.step k).requests := by
  simp only [requests, (h.pending_step ha).1]
  cases hk : k.accept with
  | none =>
    cases hi : l.issues k with
    | false => simp [issued, hi, step, hk]
    | true => simp [issued, hi, (h.of_issues hi).2.2]
  | some a =>
    have hnone := (h.not_busy (ha.accept (by rw [hk]; rfl)).2).1
    simp [issued, h.not_issues hnone, step, hk, hnone]

/-- A response that comes in joins those on their way, and one that is delivered leaves them. -/
theorem responses_step (h : l.Ok) (ha : Allowed k l) :
    l.responses ++ k.finish.toList = (l.delivered k).toList ++ (l.step k).responses := by
  simp only [responses, (h.pending_step ha).2]
  cases hk : k.finish with
  | none =>
    cases hd : l.delivers k with
    | false => simp [delivered, hd, step, hk]
    | true => simp [delivered, hd, (h.of_delivers hd).2.2]
  | some a =>
    have hnone := h.served (ha.finish (by rw [hk]; rfl)).2
    simp [delivered, h.not_delivers hnone, step, hk, hnone]

/-! ### Links between slots -/

section Slots

variable {γ : Type} {ready : Bool}

/-- The far domain offers the requests it issues, or a part `f` of them. -/
theorem requests_offered_step (h : l.Ok) (ha : Allowed k l) (f : α → γ) {x : Slot γ}
    (hx : l.issues k = true → x.valid = false) :
    x.offered ++ l.requests.map f ++ (k.accept.map f).toList =
      (x.taken ready).toList ++ ((x.step ((l.issued k).map f) ready).offered ++ (l.step k).requests.map f) := by
  have hreq := congrArg (List.map f) (requests_step h ha)
  rw [List.map_append, List.map_append, ← Option.toList_map, ← Option.toList_map] at hreq
  have hslot := @Slot.offered_step _ ((l.issued k).map f) ready x fun hi => hx (by
    by_contra hn
    simp [issued, hn] at hi)
  rw [List.append_assoc, hreq, ← List.append_assoc, hslot, List.append_assoc]

/-- The near domain offers the responses that are delivered. -/
theorem responses_offered_step (h : l.Ok) (ha : Allowed k l) {x : Slot β} (hx : l.delivers k = true → x.valid = false) :
    x.offered ++ l.responses ++ k.finish.toList =
      (x.taken ready).toList ++ ((x.step (l.delivered k) ready).offered ++ (l.step k).responses) := by
  have hslot := @Slot.offered_step _ (l.delivered k) ready x fun hd => hx (by
    by_contra hn
    simp [delivered, hn] at hd)
  rw [List.append_assoc, responses_step h ha, ← List.append_assoc, hslot, List.append_assoc]

/-- At most one request is on its way or offered, and only while the link is busy with it. -/
theorem Ok.length_requests_offered (h : l.Ok) (f : α → γ) {x : Slot γ} (hx : x.valid = true → l.active = true) :
    (x.offered ++ l.requests.map f).length ≤ l.busy.toNat := by
  cases hv : x.valid with
  | true => simp [Slot.offered, requests, hv, h.not_requested (hx hv), h.busy_of_active (hx hv)]
  | false =>
    cases hp : l.req.pending with
    | true => simp [Slot.offered, requests, hv, hp, h.busy]
    | false => simp [Slot.offered, requests, hv, hp]

/-- At most one response is on its way or offered. -/
theorem Ok.length_responses_offered (h : l.Ok) {x : Slot β} (hx : x.valid = true → l.busy = false) :
    (x.offered ++ l.responses).length ≤ (l.busy || x.valid).toNat := by
  cases hv : x.valid with
  | true => simp [Slot.offered, responses, hv, (h.not_busy (hx hv)).2.2]
  | false =>
    cases hp : l.rsp.pending with
    | true => simp [Slot.offered, responses, hv, hp, h.busy]
    | false => simp [Slot.offered, responses, hv, hp]

end Slots

/-- A transaction is in service from its acceptance to its response. -/
def inService (l : Link α β) : Bool := l.req.pending || l.active

theorem inService_step (h : l.Ok) (ha : Allowed k l) :
    l.inService.toNat + k.accept.isSome.toNat = k.finish.isSome.toNat + (l.step k).inService.toNat := by
  have hnext : (l.step k).inService = (k.accept.isSome || (l.req.pending && !l.issues k) ||
      if k.finish.isSome then false else l.active || l.issues k) := by
    rw [inService, (h.pending_step ha).1]
    rfl
  have hnow : l.inService = (l.req.pending || l.active) := rfl
  cases hk : k.accept with
  | some a =>
    have hidle := h.not_busy (ha.accept (by rw [hk]; rfl)).2
    have hf : k.finish = none := by
      by_contra hf
      have hactive := (ha.finish (Option.isSome_iff_ne_none.2 hf)).2
      rw [hidle.2.1] at hactive
      cases hactive
    simp [hnext, hnow, hk, hf, hidle]
  | none =>
    cases hf : k.finish with
    | some r =>
      have hactive := (ha.finish (by rw [hf]; rfl)).2
      simp [hnext, hnow, hk, hf, hactive, h.not_requested hactive]
    | none =>
      cases hi : l.issues k with
      | true => simp [hnext, hnow, hk, hf, hi, (h.of_issues hi).2.2]
      | false => simp [hnext, hnow, hk, hf, hi]

/-! ## Progress -/

section Progress

variable {k : Nat → LinkTick α β} {l : Nat → Link α β} {t : Nat}

/-- A request that is never issued stays on its way, and shows behind the synchroniser. -/
theorem request_arrives (hok : ∀ u, (l u).Ok) (hk : ∀ u, Allowed (k u) (l u)) (hs : ∀ u, l (u + 1) = (l u).step (k u))
    (hfar : ∀ u, ∃ v ≥ u, (k v).far = true) (hp : (l t).req.pending = true)
    (hnever : ∀ u ≥ t, (l u).issues (k u) = false) : ∃ u ≥ t, ∀ v ≥ u, (l v).req.arrived = true := by
  have hpending : ∀ u ≥ t, (l u).req.pending = true := by
    intro u hu
    induction u, hu using Nat.le_induction with
    | base => exact hp
    | succ u hu ih => rw [hs u, ((hok u).pending_step (hk u)).1, ih, hnever u hu, Bool.not_false, Bool.and_true, Bool.or_true]
  refine Wire.arrives (w := fun u => (l u).req) hp ?_ hfar
  intro u hu
  have haccept : (k u).accept.isSome = false := by
    by_contra ha
    have hidle := (hok u).not_busy ((hk u).accept (eq_true_of_ne_false ha)).2
    rw [hpending u hu] at hidle
    cases hidle.1
  show (l (u + 1)).req = _
  rw [hs u]
  simp only [step, haccept, hnever u hu]

/-- A request is issued, if the far domain is free for it again and again. -/
theorem request_issued (hok : ∀ u, (l u).Ok) (hk : ∀ u, Allowed (k u) (l u)) (hs : ∀ u, l (u + 1) = (l u).step (k u))
    (hfree : ∀ u, ∃ v ≥ u, (k v).far = true ∧ ((l v).active = false → (k v).enable = true))
    (hp : (l t).req.pending = true) : ∃ u ≥ t, (l u).issues (k u) = true := by
  by_contra hnever
  have hnot : ∀ u ≥ t, (l u).issues (k u) = false := fun u hu => by
    by_contra hi
    exact hnever ⟨u, hu, eq_true_of_ne_false hi⟩
  have hfar : ∀ u, ∃ v ≥ u, (k v).far = true := fun u => (hfree u).imp fun v hv => ⟨hv.1, hv.2.1⟩
  obtain ⟨u, hu, harrived⟩ := request_arrives hok hk hs hfar hp hnot
  obtain ⟨v, hv, hedge, henable⟩ := hfree u
  have hactive := ((hok v).requested ((hok v).req.pending_of_arrived (harrived v hv))).1
  refine hnever ⟨v, by omega, ?_⟩
  rw [issues, hedge, henable hactive, harrived v hv]
  rfl

/-- A response on its way is delivered. -/
theorem response_delivered (hok : ∀ u, (l u).Ok) (hk : ∀ u, Allowed (k u) (l u)) (hs : ∀ u, l (u + 1) = (l u).step (k u))
    (hnear : ∀ u, ∃ v ≥ u, (k v).near = true) (hp : (l t).rsp.pending = true) : ∃ u ≥ t, (l u).delivers (k u) = true := by
  by_contra hnever
  have hnot : ∀ u ≥ t, (l u).delivers (k u) = false := fun u hu => by
    by_contra hd
    exact hnever ⟨u, hu, eq_true_of_ne_false hd⟩
  have hpending : ∀ u ≥ t, (l u).rsp.pending = true := by
    intro u hu
    induction u, hu using Nat.le_induction with
    | base => exact hp
    | succ u hu ih => rw [hs u, ((hok u).pending_step (hk u)).2, ih, hnot u hu, Bool.not_false, Bool.and_true, Bool.or_true]
  obtain ⟨u, hu, harrived⟩ : ∃ u ≥ t, ∀ v ≥ u, (l v).rsp.arrived = true := by
    refine Wire.arrives (w := fun u => (l u).rsp) hp ?_ hnear
    intro u hu
    have hfinish : (k u).finish.isSome = false := by
      by_contra hf
      have hserved := (hok u).served ((hk u).finish (eq_true_of_ne_false hf)).2
      rw [hpending u hu] at hserved
      cases hserved
    show (l (u + 1)).rsp = _
    rw [hs u]
    simp only [step, hfinish, hnot u hu]
  obtain ⟨v, hv, hedge⟩ := hnear u
  have hbusy : (l v).busy = true := by rw [(hok v).busy, hpending v (by omega), Bool.or_true]
  refine hnever ⟨v, by omega, ?_⟩
  rw [delivers, hedge, hbusy, harrived v hv]
  rfl

/-- What is never finished stays active, and no other request is issued. -/
theorem stays_active (hok : ∀ u, (l u).Ok) (hs : ∀ u, l (u + 1) = (l u).step (k u)) (ha : (l t).active = true)
    (hnever : ∀ u ≥ t, (k u).finish = none) : ∀ u ≥ t, (l u).active = true ∧ (l u).issued (k u) = none := by
  have hactive : ∀ u ≥ t, (l u).active = true := by
    intro u hu
    induction u, hu using Nat.le_induction with
    | base => exact ha
    | succ u hu ih =>
      rw [hs u]
      simp [step, hnever u hu, ih]
  refine fun u hu => ⟨hactive u hu, ?_⟩
  rw [issued, (hok u).not_issues ((hok u).not_requested (hactive u hu))]
  rfl

/-- A far domain that finishes what is active is free again and again. -/
theorem free_again (hs : ∀ u, l (u + 1) = (l u).step (k u))
    (hfin : ∀ u, (l u).active = true → ∃ v ≥ u, (k v).finish.isSome = true) (t : Nat) : ∃ u ≥ t, (l u).active = false := by
  cases h : (l t).active with
  | false => exact ⟨t, le_rfl, h⟩
  | true =>
    obtain ⟨u, hu, hf⟩ := hfin t h
    exact ⟨u + 1, by omega, by rw [hs u]; simp [step, hf]⟩

/-- Every transaction ends, if the far domain is free again and again and finishes what is active. -/
theorem transaction_ends (hok : ∀ u, (l u).Ok) (hk : ∀ u, Allowed (k u) (l u)) (hs : ∀ u, l (u + 1) = (l u).step (k u))
    (hnear : ∀ u, ∃ v ≥ u, (k v).near = true)
    (hfree : ∀ u, ∃ v ≥ u, (k v).far = true ∧ ((l v).active = false → (k v).enable = true))
    (hfin : ∀ u, (l u).active = true → ∃ v ≥ u, (k v).finish.isSome = true) (t : Nat) :
    ∃ u ≥ t, (l u).busy = false := by
  have hanswered : ∀ u, (l u).rsp.pending = true → ∃ v ≥ u, (l v).busy = false := by
    intro u hp
    obtain ⟨v, hv, hd⟩ := response_delivered hok hk hs hnear hp
    exact ⟨v + 1, by omega, by rw [hs v]; simp [step, hd]⟩
  have hserved : ∀ u, (l u).active = true → ∃ v ≥ u, (l v).busy = false := by
    intro u ha
    obtain ⟨v, hv, hf⟩ := hfin u ha
    obtain ⟨x, hx, hidle⟩ := hanswered (v + 1) (by rw [hs v, ((hok v).pending_step (hk v)).2, hf, Bool.true_or])
    exact ⟨x, by omega, hidle⟩
  cases hb : (l t).busy with
  | false => exact ⟨t, le_rfl, hb⟩
  | true =>
    have hphase := (hok t).busy
    rw [hb, eq_comm, Bool.or_eq_true, Bool.or_eq_true] at hphase
    obtain (hp | ha) | hr := hphase
    · obtain ⟨u, hu, hi⟩ := request_issued hok hk hs hfree hp
      have hfinish : (k u).finish.isSome = false := by
        by_contra hf
        have hactive := ((hk u).finish (eq_true_of_ne_false hf)).2
        rw [((hok u).requested ((hok u).of_issues hi).2.2).1] at hactive
        cases hactive
      obtain ⟨v, hv, hidle⟩ := hserved (u + 1) (by rw [hs u]; simp [step, hi, hfinish])
      exact ⟨v, by omega, hidle⟩
    · exact hserved t ha
    · exact hanswered t hr

end Progress

end Link

end Vek280Miner
