import Vek280Miner.Net.ReceiveRing
import Vek280Miner.Net.TransmitSafety
import Mathlib.Data.List.Perm.Basic
import Mathlib.Tactic.Abel

/-!
# Safety of the receive ring

No buffer is lost or has two owners: what the descriptors, the EMAC task, the events, the IP-task and the pool have is
the pool that there was (`held_step`). With that a buffer that the DMA writes is in no other hands, so a frame stays as
it was stored until the IP-task has it, and the frames come out of the ring in the order in which they were stored
(`rx_ring_accounted`).
-/

namespace Vek280Miner.Net

/-! ## Owners -/

/-- The buffer that is in the hands of the EMAC task alone. -/
def RxPc.hand {β : Type} {N : Nat} : RxPc β N → Multiset β
  | .replace _ _ b => {b}
  | .pass _ _ b _ => {b}
  | _ => 0

namespace RxRing

variable {β : Type} [DecidableEq β] {N : Nat} [NeZero N]

/-- The buffers, wherever they are. -/
def held (s : RxRing β N) : Multiset β :=
  contents s.dmaRxBuffers + (s.pc.hand + (↑(s.events.map RxEvent.buffer) + (↑s.owned + ↑s.freeBuffers)))

variable {s s' : RxRing β N}

omit [DecidableEq β] [NeZero N] in
theorem held_congr (hb : s'.dmaRxBuffers = s.dmaRxBuffers) (hp : s'.pc.hand = s.pc.hand) (he : s'.events = s.events)
    (ho : s'.owned = s.owned) (hf : s'.freeBuffers = s.freeBuffers) : s'.held = s.held := by
  unfold held
  rw [hb, hp, he, ho, hf]

omit [DecidableEq β] [NeZero N] in
theorem coe_concat (l : List β) (b : β) : ((l ++ [b] : List β) : Multiset β) = ↑l + {b} := by
  rw [← Multiset.coe_add, Multiset.coe_singleton]

omit [DecidableEq β] [NeZero N] in
theorem coe_cons' (l : List β) (b : β) : ((b :: l : List β) : Multiset β) = {b} + ↑l := by
  rw [← Multiset.cons_coe, Multiset.singleton_add]

omit [DecidableEq β] [NeZero N] in
/-- The EMAC task exchanges buffers. -/
theorem held_checkRx (s : RxRing β N) (queueFull : Bool) : (s.checkRx queueFull).held = s.held := by
  unfold checkRx
  cases hpc : s.pc with
  | idle => rfl
  | test head =>
    dsimp only
    split <;> exact held_congr rfl (by rw [hpc]; rfl) rfl rfl rfl
  | read head =>
    dsimp only
    split <;> exact held_congr rfl (by rw [hpc]; rfl) rfl rfl rfl
  | alloc head rxBytes =>
    cases hfree : s.freeBuffers with
    | nil => exact held_congr rfl (by rw [hpc]; rfl) rfl rfl hfree.symm
    | cons newBuffer freeBuffers =>
      simp only [held, RxPc.hand, hpc, hfree, coe_cons']
      abel
  | replace head rxBytes newBuffer =>
    simp only [held, RxPc.hand, hpc]
    rw [← add_assoc, contents_update, add_assoc]
  | pass head rxBytes buffer newBuffer =>
    dsimp only
    split
    · simp only [held, RxPc.hand, hpc, coe_concat]
      abel
    · simp only [held, RxPc.hand, hpc, List.map_append, List.map_cons, List.map_nil, coe_concat]
      abel
  | flags | address | head => exact held_congr rfl (by rw [hpc]; rfl) rfl rfl rfl

omit [NeZero N] in
/-- **No buffer is lost or found.** -/
theorem held_step (s : RxRing β N) (a : RxAction β) : (s.step a).held = s.held := by
  cases a with
  | check =>
    simp only [step]
    cases hpc : s.pc with
    | idle => exact held_congr rfl (by rw [hpc]; rfl) rfl rfl rfl
    | _ => rfl
  | driver queueFull => exact held_checkRx s queueFull
  | begin frame =>
    simp only [step, begin]
    split
    · split
      · split <;> exact held_congr rfl rfl rfl rfl rfl
      · rfl
    · rfl
  | complete =>
    simp only [step, complete]
    split
    · split <;> exact held_congr rfl rfl rfl rfl rfl
    · rfl
  | takeEvent =>
    cases he : s.events with
    | nil => simp only [step, he]
    | cons event events =>
      simp only [step, held, he, List.map_cons, coe_concat, coe_cons']
      abel
  | get =>
    cases hf : s.freeBuffers with
    | nil => simp only [step, hf]
    | cons buffer freeBuffers =>
      simp only [step, held, hf, coe_concat, coe_cons']
      abel
  | release k =>
    cases hk : s.owned[k]? with
    | none => simp only [step, hk]
    | some buffer =>
      obtain ⟨hlt, rfl⟩ := List.getElem?_eq_some_iff.1 hk
      have howned : (↑s.owned : Multiset β) = {s.owned[k]} + ↑(s.owned.eraseIdx k) := by
        rw [← coe_cons']
        exact (Multiset.coe_eq_coe.2 (List.getElem_cons_eraseIdx_perm hlt)).symm
      simp only [step, held, hk, coe_concat]
      rw [howned]
      abel
  | write k frame =>
    simp only [step]
    split <;> rfl

/-! ## Frames -/

/-- What is told apart by owner. -/
structure Apart (s : RxRing β N) : Prop where
  slots : ∀ i j, s.dmaRxBuffers i = s.dmaRxBuffers j → i = j
  ring : ∀ i, s.dmaRxBuffers i ∉ s.pc.hand ∧ s.dmaRxBuffers i ∉ s.events.map RxEvent.buffer ∧ s.dmaRxBuffers i ∉ s.owned
  owned : ∀ b ∈ s.owned, b ∉ s.pc.hand ∧ b ∉ s.events.map RxEvent.buffer

omit [DecidableEq β] [NeZero N] in
theorem apart_of_nodup (h : s.held.Nodup) : s.Apart := by
  unfold held at h
  simp only [Multiset.nodup_add, Multiset.disjoint_add_right] at h
  obtain ⟨hring, ⟨-, ⟨-, ⟨-, -, -⟩, hev, -⟩, hhand, hhandOwned, -⟩, hr1, hr2, hr3, -⟩ := h
  constructor
  case slots => exact fun i j hij => slot_of_nodup hring hij
  case ring =>
    intro i
    have hi := mem_contents s.dmaRxBuffers i
    exact ⟨Multiset.disjoint_left.1 hr1 hi, fun hm => Multiset.disjoint_left.1 hr2 hi hm,
      fun hm => Multiset.disjoint_left.1 hr3 hi hm⟩
  case owned =>
    intro b hb
    exact ⟨Multiset.disjoint_right.1 hhandOwned hb, fun hm => Multiset.disjoint_left.1 hev hm hb⟩

end RxRing

section

variable {β : Type} {N : Nat}

/-- It is decided what becomes of the frame at `head`. -/
def RxPc.decided : RxPc β N → Nat
  | .flags _ _ | .address _ _ => 1
  | _ => 0

/-- The frame at `head` is not in the buffer of the descriptor any more. -/
def RxPc.replaced : RxPc β N → Nat
  | .pass _ _ _ _ | .flags _ _ | .address _ _ => 1
  | _ => 0

end

/-- What the IP-task gets. -/
def passedFrame : Frame × Outcome → Option (Frame × Nat)
  | (frame, .passed) => some (frame, frame.length)
  | _ => none

namespace RxRing

variable {β : Type} [DecidableEq β] {N : Nat} [NeZero N]

/-- Where the EMAC task stands when it has given back `R` descriptors. -/
def DriverAt (R : Nat) (s : RxRing β N) : Prop :=
  match s.pc with
  | .idle => s.rxHead = slotOf N R
  | .test head => head = slotOf N R ∧ s.rxHead = slotOf N R
  | .read head => (head = slotOf N R ∧ s.rxHead = slotOf N R) ∧ R < s.arrived.length
  | .alloc head rxBytes | .replace head rxBytes _ =>
    (head = slotOf N R ∧ s.rxHead = slotOf N R) ∧
      ∃ frame, s.arrived[R]? = some frame ∧ xMayAcceptPacket frame = true ∧ rxBytes = frame.length
  | .pass head rxBytes buffer newBuffer =>
    (head = slotOf N R ∧ s.rxHead = slotOf N R) ∧ s.dmaRxBuffers head = newBuffer ∧
      s.arrived[R]? = some (s.memory buffer) ∧ xMayAcceptPacket (s.memory buffer) = true ∧
        rxBytes = (s.memory buffer).length
  | .flags head newBuffer | .address head newBuffer =>
    (head = slotOf N R ∧ s.rxHead = slotOf N R) ∧ s.dmaRxBuffers head = newBuffer
  | .head head => ∃ k, R = k + 1 ∧ head = slotOf N k ∧ s.rxHead = slotOf N k

/-- The invariant, when `R` descriptors have been given back. -/
structure Inv (s : RxRing β N) (R : Nat) : Prop where
  outcomes : s.outcomes.length = R + s.pc.decided
  outcomesEq : s.outcomes.map Prod.fst = s.arrived.take s.outcomes.length
  verdicts : ∀ x ∈ s.outcomes, x.2 = .refused ↔ xMayAcceptPacket x.1 = false
  order : R + s.pc.decided ≤ s.arrived.length ∧ s.arrived.length ≤ R + N
  dma : s.dma = s.arrived.length % N
  wraps : ∀ i, (s.rxSegments i).wrap = TxRing.isLast i
  new : Window s.rxSegments (fun _ d => d.new = true) R s.arrived.length
  lengths : Window s.rxSegments (fun k d => (s.arrived[k]?).map List.length = some d.len) (R + s.pc.decided) s.arrived.length
  stored : Window s.dmaRxBuffers (fun k b => s.arrived[k]? = some (s.memory b)) (R + s.pc.replaced) s.arrived.length
  ready : Window s.rxSegments (fun k d => d.new = false ∧ d.address = s.dmaRxBuffers (slotOf N k)) s.arrived.length (R + N)
  storing : ∀ frame, s.storing = some frame →
    s.arrived.length < R + N ∧ s.memory (s.dmaRxBuffers (slotOf N s.arrived.length)) = frame ∧
      frame.length ≤ dmaRxTxBufferSize
  taken : s.taken ++ s.events.map (fun event => (s.memory event.buffer, event.dataLength)) =
    s.outcomes.filterMap passedFrame
  driver : s.DriverAt R

variable {s s' : RxRing β N} {R : Nat}

omit [DecidableEq β] [NeZero N] in
theorem wrap_update {f : Fin N → RxSegment β} {j : Fin N} {x : RxSegment β} (hx : x.wrap = (f j).wrap) (i : Fin N) :
    (Function.update f j x i).wrap = (f i).wrap := by
  by_cases hij : i = j
  · rw [hij, Function.update_self, hx]
  · rw [Function.update_of_ne hij]

omit [DecidableEq β] [NeZero N] in
/-- The state, with the place of the EMAC task in it. -/
theorem exists_pc {pc : RxPc β N} (h : s.pc = pc) : ∃ r : RxRing β N, s = { r with pc } := ⟨s, by rw [← h]⟩

omit [DecidableEq β] in
/-- It is decided what becomes of a frame. -/
theorem Inv.settle (h : Inv s R) (hdec : s.pc.decided = 0) {frame : Frame} {o : Outcome}
    (hat : s.arrived[R]? = some frame) (hv : o = .refused ↔ xMayAcceptPacket frame = false) {events : List (RxEvent β)}
    (htaken : s.taken ++ events.map (fun event => (s.memory event.buffer, event.dataLength)) =
      (s.outcomes ++ [(frame, o)]).filterMap passedFrame) {head : Fin N} {newBuffer : β}
    (hdriver : (head = slotOf N R ∧ s.rxHead = slotOf N R) ∧ s.dmaRxBuffers head = newBuffer) :
    Inv { s with events, outcomes := s.outcomes ++ [(frame, o)], pc := .flags head newBuffer } R := by
  have hlt : R < s.arrived.length := (List.getElem?_eq_some_iff.1 hat).1
  have hout : s.outcomes.length = R := by rw [h.outcomes, hdec, Nat.add_zero]
  have hlen : (s.outcomes ++ [(frame, o)]).length = R + 1 := by rw [List.length_append, hout]; rfl
  have hreplaced : R + s.pc.replaced ≤ R + 1 := Nat.add_le_add_left (by cases s.pc <;> simp [RxPc.replaced]) R
  refine { h with
    outcomes := hlen
    outcomesEq := ?_
    verdicts := fun x hx => ?_
    order := ⟨hlt, h.order.2⟩
    lengths := h.lengths.sub (by rw [hdec]; exact Nat.le_succ R) (Nat.le_refl _)
    stored := h.stored.sub hreplaced (Nat.le_refl _)
    taken := htaken
    driver := hdriver }
  · rw [hlen, List.map_append, h.outcomesEq, hout, List.take_add_one, hat]
    rfl
  · rcases List.mem_append.1 hx with hx | hx
    · exact h.verdicts x hx
    · rw [List.mem_singleton.1 hx]
      exact hv

omit [DecidableEq β] in
/-- A frame that is not passed is not taken. -/
theorem taken_append (h : Inv s R) {x : Frame × Outcome} (hx : passedFrame x = none) :
    s.taken ++ s.events.map (fun event => (s.memory event.buffer, event.dataLength)) =
      (s.outcomes ++ [x]).filterMap passedFrame := by
  rw [h.taken, List.filterMap_append, List.filterMap_cons, hx, List.filterMap_nil, List.append_nil]

omit [DecidableEq β] in
/-- An access of the EMAC task. -/
theorem Inv.checkRx (h : Inv s R) (queueFull : Bool) : ∃ R', Inv (s.checkRx queueFull) R' := by
  cases hpc : s.pc with
  | idle =>
    obtain ⟨s, rfl⟩ := exists_pc hpc
    exact ⟨R, h⟩
  | test head =>
    obtain ⟨s, rfl⟩ := exists_pc hpc
    obtain ⟨rfl, hhead⟩ := h.driver
    simp only [RxRing.checkRx]
    split
    · rename_i hmarked
      have hlt : R < s.arrived.length := by
        by_contra hge
        have hN := Nat.pos_of_ne_zero (NeZero.ne N)
        have hat : (s.rxSegments (slotOf N R)).new = false := (h.ready R (Nat.le_of_not_lt hge) (by omega)).1
        rw [hmarked] at hat
        exact Bool.noConfusion hat
      exact ⟨R, { h with driver := ⟨⟨rfl, hhead⟩, hlt⟩ }⟩
    · exact ⟨R, { h with driver := hhead }⟩
  | read head =>
    obtain ⟨s, rfl⟩ := exists_pc hpc
    obtain ⟨⟨rfl, hhead⟩, hlt⟩ := h.driver
    have hat : s.arrived[R]? = some (s.memory (s.dmaRxBuffers (slotOf N R))) := h.stored R (Nat.le_refl R) hlt
    have hbytes : (s.arrived[R]?).map List.length = some (s.rxSegments (slotOf N R)).len := h.lengths R (Nat.le_refl R) hlt
    rw [hat] at hbytes
    simp only [RxRing.checkRx]
    split
    · rename_i haccept
      exact ⟨R, { h with driver := ⟨⟨rfl, hhead⟩, _, hat, haccept, (Option.some.inj hbytes).symm⟩ }⟩
    · rename_i hrefuse
      have hv : Outcome.refused = .refused ↔ xMayAcceptPacket (s.memory (s.dmaRxBuffers (slotOf N R))) = false :=
        ⟨fun _ => by simpa using hrefuse, fun _ => rfl⟩
      exact ⟨R, h.settle rfl hat hv (taken_append h rfl) ⟨⟨rfl, hhead⟩, rfl⟩⟩
  | alloc head rxBytes =>
    obtain ⟨s, rfl⟩ := exists_pc hpc
    obtain ⟨⟨rfl, hhead⟩, frame, hat, haccept, hbytes⟩ := h.driver
    have hlt : R < s.arrived.length := (List.getElem?_eq_some_iff.1 hat).1
    simp only [RxRing.checkRx]
    split
    · exact ⟨R, { h with driver := ⟨⟨rfl, hhead⟩, frame, hat, haccept, hbytes⟩ }⟩
    · have hframe : some (s.memory (s.dmaRxBuffers (slotOf N R))) = some frame :=
        (h.stored R (Nat.le_refl R) hlt).symm.trans hat
      rw [Option.some.inj hframe]
      exact ⟨R, h.settle rfl hat (by simp [haccept]) (taken_append h rfl) ⟨⟨rfl, hhead⟩, rfl⟩⟩
  | replace head rxBytes newBuffer =>
    obtain ⟨s, rfl⟩ := exists_pc hpc
    obtain ⟨⟨rfl, hhead⟩, frame, hat, haccept, hbytes⟩ := h.driver
    have hlt : R < s.arrived.length := (List.getElem?_eq_some_iff.1 hat).1
    have hframe : some (s.memory (s.dmaRxBuffers (slotOf N R))) = some frame :=
      (h.stored R (Nat.le_refl R) hlt).symm.trans hat
    have hmem := Option.some.inj hframe
    have hother : ∀ k, R < k → k < R + N → Function.update s.dmaRxBuffers (slotOf N R) newBuffer (slotOf N k) =
        s.dmaRxBuffers (slotOf N k) := fun k h1 h2 => Function.update_of_ne (slotOf_ne h1 h2).symm _ _
    refine ⟨R, { h with
      stored := (h.stored.sub (Nat.le_succ R) (Nat.le_refl _)).before (Nat.lt_succ_self R) h.order.2
      ready := h.ready.imp fun k d h1 h2 hd => ⟨hd.1, hd.2.trans (hother k (hlt.trans_le h1) h2).symm⟩
      storing := fun f hf => ?_
      driver := ⟨⟨rfl, hhead⟩, Function.update_self .., ?_⟩ }⟩
    · obtain ⟨hroom, hm⟩ := h.storing f hf
      exact ⟨hroom, (congrArg s.memory (hother _ hlt hroom)).trans hm.1, hm.2⟩
    · show s.arrived[R]? = some (s.memory (s.dmaRxBuffers (slotOf N R))) ∧
        xMayAcceptPacket (s.memory (s.dmaRxBuffers (slotOf N R))) = true ∧
          rxBytes = (s.memory (s.dmaRxBuffers (slotOf N R))).length
      rw [hmem]
      exact ⟨hat, haccept, hbytes⟩
  | pass head rxBytes buffer newBuffer =>
    obtain ⟨s, rfl⟩ := exists_pc hpc
    obtain ⟨hhead, hbuf, hat, haccept, hbytes⟩ := h.driver
    simp only [RxRing.checkRx]
    split
    · exact ⟨R, { h.settle rfl hat (o := .noEvent) (by simp [haccept]) (taken_append h rfl) ⟨hhead, hbuf⟩ with }⟩
    · refine ⟨R, h.settle rfl hat (o := .passed) (by simp [haccept]) ?_ ⟨hhead, hbuf⟩⟩
      rw [List.map_append, ← List.append_assoc, h.taken, List.filterMap_append, hbytes]
      rfl
  | flags head newBuffer =>
    obtain ⟨s, rfl⟩ := exists_pc hpc
    obtain ⟨⟨rfl, hhead⟩, hbuf⟩ := h.driver
    have hord : R + 1 ≤ s.arrived.length ∧ s.arrived.length ≤ R + N := h.order
    exact ⟨R, { h with
      wraps := fun i => (wrap_update (by rfl) i).trans (h.wraps i)
      new := h.new.inside hord.2 (Nat.le_refl R) hord.1 (h.new R (Nat.le_refl R) hord.1) fun _ _ _ hd => hd
      lengths := h.lengths.before (Nat.lt_succ_self R) hord.2
      ready := h.ready.before hord.1 (Nat.le_refl _)
      driver := ⟨⟨rfl, hhead⟩, hbuf⟩ }⟩
  | address head newBuffer =>
    obtain ⟨s, rfl⟩ := exists_pc hpc
    obtain ⟨⟨rfl, hhead⟩, hbuf⟩ := h.driver
    have hord : R + 1 ≤ s.arrived.length ∧ s.arrived.length ≤ R + N := h.order
    refine ⟨R + 1, { h with
      order := ⟨hord.1, hord.2.trans (by omega)⟩
      wraps := fun i => (wrap_update (h.wraps _).symm i).trans (h.wraps i)
      new := (h.new.sub (Nat.le_succ R) (Nat.le_refl _)).before (Nat.lt_succ_self R) hord.2
      lengths := h.lengths.before (Nat.lt_succ_self R) hord.2
      ready := ?_
      storing := fun f hf => (h.storing f hf).imp_left fun hroom => hroom.trans (Nat.add_lt_add_right (Nat.lt_succ_self R) N)
      driver := ⟨R, rfl, rfl, hhead⟩ }⟩
    have hnewSlot : newBuffer = s.dmaRxBuffers (slotOf N (R + N)) := by rw [slotOf_add, hbuf]
    have hround : R + N < s.arrived.length + N := Nat.add_lt_add_right hord.1 N
    have hpush := @Window.push _ _ _ _ _ _ _
      ⟨newBuffer, false, decide ((slotOf N R).val = N - 1), (s.rxSegments (slotOf N R)).len⟩ h.ready hround ⟨rfl, hnewSlot⟩
    rw [slotOf_add] at hpush
    rwa [Nat.add_right_comm]
  | head head =>
    obtain ⟨s, rfl⟩ := exists_pc hpc
    obtain ⟨k, rfl, rfl, -⟩ := h.driver
    exact ⟨k + 1, { h with driver := ⟨nextSlot_slotOf k, nextSlot_slotOf k⟩ }⟩

/-- Nobody but the IP-task has what it writes, and the DMA has what it writes to itself. -/
theorem Inv.memory_update (h : Inv s R) {b : β} {frame : Frame}
    (hring : ∀ k, R + s.pc.replaced ≤ k → k < s.arrived.length → s.dmaRxBuffers (slotOf N k) ≠ b)
    (hhand : b ∉ s.pc.hand) (hevents : b ∉ s.events.map RxEvent.buffer) {storing : Option Frame}
    (hstoring : ∀ f, storing = some f → s.arrived.length < R + N ∧
      Function.update s.memory b frame (s.dmaRxBuffers (slotOf N s.arrived.length)) = f ∧
        f.length ≤ dmaRxTxBufferSize) :
    Inv { s with memory := Function.update s.memory b frame, storing } R := by
  have hsame : ∀ c, c ≠ b → Function.update s.memory b frame c = s.memory c := fun c hc => Function.update_of_ne hc _ _
  refine { h with
    stored := fun k h1 h2 => (h.stored k h1 h2).trans (congrArg some (hsame _ (hring k h1 h2)).symm)
    storing := hstoring
    taken := ?taken
    driver := ?driver }
  case taken =>
    rw [← h.taken]
    refine congrArg (s.taken ++ ·) (List.map_congr_left fun event he => ?_)
    have hne : event.buffer ≠ b := fun heq => hevents (heq ▸ List.mem_map_of_mem he)
    exact Prod.ext (hsame _ hne) rfl
  case driver =>
    have hdrv := h.driver
    unfold DriverAt at hdrv ⊢
    dsimp only
    cases hpc : s.pc with
    | pass head rxBytes buffer newBuffer =>
      rw [hpc] at hdrv hhand
      have hne : buffer ≠ b := fun heq => hhand (by rw [heq]; exact Multiset.mem_singleton_self b)
      dsimp only
      rw [hsame buffer hne]
      exact hdrv
    | _ =>
      rw [hpc] at hdrv
      exact hdrv

omit [DecidableEq β] in
/-- A descriptor that is not new is one that the driver has given back. -/
theorem Inv.room (h : Inv s R) (hnew : (s.rxSegments (slotOf N s.arrived.length)).new = false) :
    s.arrived.length < R + N := by
  have hN := Nat.pos_of_ne_zero (NeZero.ne N)
  refine lt_of_le_of_ne h.order.2 fun hfull => ?_
  have hat : (s.rxSegments (slotOf N R)).new = true := h.new R (Nat.le_refl R) (by omega)
  rw [hfull, slotOf_add, hat] at hnew
  exact Bool.noConfusion hnew

/-- The DMA starts to store a frame. -/
theorem Inv.begin (h : Inv s R) (hapart : s.Apart) (frame : Frame) : Inv (s.begin frame) R := by
  unfold RxRing.begin
  split
  · rename_i hdma
    have hat : (⟨s.dma, hdma⟩ : Fin N) = slotOf N s.arrived.length := Fin.ext h.dma
    dsimp only
    rw [hat]
    split
    · rename_i hcond
      have hsize : 14 ≤ frame.length ∧ frame.length ≤ dmaRxTxBufferSize :=
        of_decide_eq_true (Bool.and_eq_true_iff.1 hcond).2
      split
      · exact { h with }
      · rename_i hnew
        have hroom := h.room (Bool.not_eq_true _ ▸ hnew)
        rw [(h.ready _ (Nat.le_refl _) hroom).2]
        obtain ⟨hhand, hevents, -⟩ := hapart.ring (slotOf N s.arrived.length)
        refine h.memory_update (fun k h1 h2 heq => ?_) hhand hevents fun f hf => ⟨hroom, ?_, ?_⟩
        · exact slotOf_ne h2 (by omega) (hapart.slots _ _ heq)
        · rw [Function.update_self]
          exact Option.some.inj hf
        · rw [← Option.some.inj hf]
          exact hsize.2
    · exact h
  · exact h

omit [DecidableEq β] in
/-- The frame is complete. -/
theorem Inv.complete (h : Inv s R) : Inv s.complete R := by
  unfold RxRing.complete
  split
  · rename_i hdma
    split
    · exact h
    · rename_i frame hs
      obtain ⟨hroom, hframe, hsize⟩ := h.storing frame hs
      have hat : (⟨s.dma, hdma⟩ : Fin N) = slotOf N s.arrived.length := Fin.ext h.dma
      have hlen : (s.arrived ++ [frame]).length = s.arrived.length + 1 := List.length_append
      have hold : ∀ k < s.arrived.length, (s.arrived ++ [frame])[k]? = s.arrived[k]? :=
        fun k hk => List.getElem?_append_left hk
      have hlast : (s.arrived ++ [frame])[s.arrived.length]? = some frame := List.getElem?_concat_length
      have horder := h.order
      have hkeep : ∀ k b, s.arrived[k]? = some b → (s.arrived ++ [frame])[k]? = some b :=
        fun k b hb => (hold k (List.getElem?_eq_some_iff.1 hb).1).trans hb
      dsimp only
      rw [hat]
      refine { h with
        outcomesEq := ?outcomesEq
        order := ?order
        dma := ?dma
        wraps := fun i => (wrap_update (by rfl) i).trans (h.wraps i)
        new := ?new
        lengths := ?lengths
        stored := ?stored
        ready := ?ready
        storing := fun f hf => by cases hf
        driver := ?driver }
      case outcomesEq =>
        rw [List.take_append_of_le_length (h.outcomes.trans_le horder.1)]
        exact h.outcomesEq
      case order =>
        rw [hlen]
        exact ⟨horder.1.trans (Nat.le_succ _), hroom⟩
      case dma =>
        rw [hlen, h.wraps, ← TxRing.succ_mod_last, h.dma]
      case new =>
        rw [hlen]
        exact h.new.push hroom rfl
      case lengths =>
        rw [hlen]
        refine (h.lengths.imp fun k d _ hk hd => ?_).push (by omega) ?_
        · rw [hold k hk]
          exact hd
        · rw [hlast]
          have hlt : frame.length < 2 ^ rxbufLenBits := lt_of_le_of_lt hsize (by decide)
          exact congrArg some (Nat.mod_eq_of_lt hlt).symm
      case stored =>
        rw [hlen]
        refine (h.stored.imp fun k b _ hk hd => ?_).snoc ?_
        · exact (hold k hk).trans hd
        · rw [hlast]
          exact congrArg some hframe.symm
      case ready =>
        rw [hlen]
        exact (h.ready.sub (Nat.le_succ _) (Nat.le_refl _)).before (Nat.lt_succ_self _) (by omega)
      case driver =>
        have hdrv := h.driver
        unfold DriverAt at hdrv ⊢
        dsimp only
        cases hpc : s.pc with
        | read head =>
          rw [hpc] at hdrv
          exact ⟨hdrv.1, by rw [hlen]; exact hdrv.2.trans (Nat.lt_succ_self _)⟩
        | alloc head rxBytes | replace head rxBytes newBuffer =>
          rw [hpc] at hdrv
          obtain ⟨hhead, f, hf, hrest⟩ := hdrv
          exact ⟨hhead, f, hkeep R f hf, hrest⟩
        | pass head rxBytes buffer newBuffer =>
          rw [hpc] at hdrv
          obtain ⟨hhead, hbuf, hf, hrest⟩ := hdrv
          exact ⟨hhead, hbuf, hkeep R _ hf, hrest⟩
        | _ =>
          rw [hpc] at hdrv
          exact hdrv
  · exact h

/-- **One action.** -/
theorem Inv.step (h : Inv s R) (hapart : s.Apart) (a : RxAction β) : ∃ R', Inv (s.step a) R' := by
  cases a with
  | check =>
    cases hpc : s.pc with
    | idle =>
      obtain ⟨s, rfl⟩ := exists_pc hpc
      exact ⟨R, { h with driver := ⟨h.driver, h.driver⟩ }⟩
    | _ =>
      simp only [RxRing.step, hpc]
      exact ⟨R, h⟩
  | driver queueFull => exact h.checkRx queueFull
  | begin frame => exact ⟨R, h.begin hapart frame⟩
  | complete => exact ⟨R, h.complete⟩
  | takeEvent =>
    cases he : s.events with
    | nil =>
      simp only [RxRing.step, he]
      exact ⟨R, h⟩
    | cons event events =>
      have htaken := h.taken
      rw [he, List.map_cons] at htaken
      simp only [RxRing.step, he]
      exact ⟨R, { h with taken := (List.append_assoc ..).trans htaken }⟩
  | get =>
    simp only [RxRing.step]
    split
    · exact ⟨R, h⟩
    · exact ⟨R, { h with }⟩
  | release k =>
    simp only [RxRing.step]
    split
    · exact ⟨R, h⟩
    · exact ⟨R, { h with }⟩
  | write k frame =>
    cases hk : s.owned[k]? with
    | none =>
      simp only [RxRing.step, hk]
      exact ⟨R, h⟩
    | some buffer =>
      have hmem : buffer ∈ s.owned := List.mem_of_getElem? hk
      obtain ⟨hhand, hevents⟩ := hapart.owned buffer hmem
      have hring : ∀ i, s.dmaRxBuffers i ≠ buffer := fun i heq => (hapart.ring i).2.2 (heq ▸ hmem)
      simp only [RxRing.step, hk]
      refine ⟨R, h.memory_update (fun k _ _ => hring _) hhand hevents fun f hf => ?_⟩
      rw [Function.update_of_ne (hring _)]
      exact h.storing f hf

/-! ## Whole runs -/

/-- What has become of the buffers of the pool and of the frames. -/
structure Accounted (pool : List β) (s : RxRing β N) : Prop where
  /-- Each buffer is in one place. -/
  held : s.held = ↑pool
  /-- The frames are dealt with in the order in which they were stored, ... -/
  outcomes : s.outcomes.map Prod.fst <+: s.arrived
  /-- ... and at most `N` wait for that. -/
  waiting : s.arrived.length ≤ s.outcomes.length + N
  /-- Those that are not for the IP-task, and no others, are refused. -/
  refused : ∀ x ∈ s.outcomes, x.2 = .refused ↔ xMayAcceptPacket x.1 = false
  /-- What the IP-task has found, and will find, are the frames that were passed: in order, each once, as stored. -/
  taken : s.taken ++ s.events.map (fun event => (s.memory event.buffer, event.dataLength)) =
    s.outcomes.filterMap passedFrame
  /-- The DMA stays on the ring. -/
  dma : s.dma < N

/-- What every action keeps. -/
def Safe (pool : List β) (s : RxRing β N) : Prop := (∃ R, Inv s R) ∧ s.held = ↑pool

theorem Safe.step {pool : List β} (hpool : pool.Nodup) (h : s.Safe pool) (a : RxAction β) : (s.step a).Safe pool := by
  obtain ⟨⟨R, hs⟩, hheld⟩ := h
  exact ⟨hs.step (apart_of_nodup (hheld ▸ hpool)) a, (held_step s a).trans hheld⟩

omit [DecidableEq β] in
theorem Safe.accounted {pool : List β} (h : s.Safe pool) : s.Accounted pool := by
  obtain ⟨⟨R, hs⟩, hheld⟩ := h
  have hout := hs.outcomes
  have horder := hs.order
  constructor
  case held => exact hheld
  case outcomes =>
    rw [hs.outcomesEq]
    exact List.take_prefix _ _
  case waiting => omega
  case refused => exact hs.verdicts
  case taken => exact hs.taken
  case dma =>
    rw [hs.dma]
    exact Nat.mod_lt _ (Nat.pos_of_ne_zero (NeZero.ne N))

section Run

variable (pool : List β) (memory : β → Frame)

omit [DecidableEq β] in
theorem inv_reset (h : N ≤ pool.length) : Inv (reset pool h memory : RxRing β N) 0 := by
  constructor
  case order => exact ⟨Nat.le_refl 0, Nat.zero_le _⟩
  case verdicts => exact fun x hx => absurd hx List.not_mem_nil
  case dma => exact (Nat.zero_mod N).symm
  case new => exact Window.empty _ _ 0
  case lengths => exact Window.empty _ _ 0
  case stored => exact Window.empty _ _ 0
  case ready => exact fun k _ _ => ⟨rfl, rfl⟩
  case storing => exact fun f hf => by cases hf
  all_goals first | rfl | exact fun _ => rfl

omit [DecidableEq β] in
theorem held_reset (h : N ≤ pool.length) : (reset pool h memory : RxRing β N).held = ↑pool := by
  have htake : List.ofFn (fun i : Fin N => pool[i]) = pool.take N :=
    List.ext_getElem (by simp [h]) fun k _ _ => by simp
  show contents (fun i : Fin N => pool[i]) + (0 + (0 + (0 + ↑(pool.drop N)))) = ↑pool
  rw [zero_add, zero_add, zero_add, contents_eq_coe, htake, Multiset.coe_add, List.take_append_drop]

omit [DecidableEq β] in
theorem safe_reset (h : N ≤ pool.length) : (reset pool h memory : RxRing β N).Safe pool :=
  ⟨⟨0, inv_reset pool memory h⟩, held_reset pool memory h⟩

/-- **The receive ring.** In every order in which the accesses of the EMAC task, the DMA and the IP-task can come. -/
theorem rx_ring_accounted (hpool : pool.Nodup) (h : N ≤ pool.length) (acts : Nat → RxAction β) (n : Nat) :
    (Clocked.run RxRing.step acts (reset pool h memory : RxRing β N) n).Accounted pool :=
  Safe.accounted (Clocked.run_invariant (safe_reset pool memory h) (fun a _ hs => hs.step hpool a) n)

end Run

/-! ## A run -/

/-- An IPv4 frame of 60 bytes. -/
def ipv4Frame : Frame := List.replicate 12 0 ++ [8, 0] ++ List.replicate 46 1

/-- It is stored, passed and taken; a frame of another type after it is refused. -/
def receives : List (RxAction Nat) :=
  [.begin ipv4Frame, .complete, .begin (ipv4Frame.set 12 0x88), .check] ++ List.replicate 8 (.driver false) ++
    [.complete] ++ List.replicate 5 (.driver false) ++ [.takeEvent]

/-- The ring of the application, with twelve buffers. -/
theorem receives_accounted :
    let s := Clocked.run RxRing.step (fun t => receives.getD t .complete)
      (reset (List.range 12) (by decide) (fun _ => []) : RxRing Nat 8) 19
    s.taken = [(ipv4Frame, 60)] ∧ s.outcomes.map Prod.snd = [.passed, .refused] ∧ s.Accounted (List.range 12) :=
  ⟨by decide +kernel, by decide +kernel, rx_ring_accounted _ _ List.nodup_range (by decide) _ 19⟩

end RxRing

end Vek280Miner.Net
