import Vek280Miner.Lib.Word
import Vek280Miner.Net.TransmitRing

/-!
# Safety of the transmit ring

The IP-task is past `T` descriptors and the EMAC task has cleared `R` of them (`Inv`). Those between are with the DMA,
which has sent a first part of them; the others are free. A pass of `emacps_check_tx` works with what it has read of
`txHead` and of the semaphore before; what it may still release is what `Covers` says. Between the two reads the ring can
fill up, and then the pass must not find the last descriptor half written (`Calm`): otherwise it releases the buffer in
it (`race_releases_before_sending`).
-/

namespace Vek280Miner.Net

/-! ## The invariant -/

section

variable {β : Type} {N : Nat} [NeZero N]

/-- The buffer that the DMA has not been given yet. -/
def SendPc.holds : SendPc β N → Option β
  | .take b _ | .buffer b _ => some b
  | _ => none

/-- A descriptor is taken, and `txHead` not past it. -/
def SendPc.busy : SendPc β N → Nat
  | .buffer _ _ | .address _ _ | .flags _ _ | .head _ => 1
  | _ => 0

/-- Its buffer has been written, ... -/
def SendPc.owned : SendPc β N → Nat
  | .address _ _ | .flags _ _ | .head _ => 1
  | _ => 0

/-- ... and the DMA has been given it. -/
def SendPc.handed : SendPc β N → Nat
  | .head _ => 1
  | _ => 0

/-- A buffer has been released, and its descriptor not been cleared. -/
def CheckPc.dropped : CheckPc β N → Nat
  | .flags _ _ _ => 1
  | _ => 0

/-- A descriptor has been cleared, and the semaphore not been given. -/
def CheckPc.owes : CheckPc β N → Nat
  | .give _ _ _ => 1
  | _ => 0

end

namespace TxRing

variable {β : Type} {N : Nat} [NeZero N] (xDataLength : β → Nat)

/-- What the DMA is to send of a buffer. -/
def frame (buffer : β) : Option β × Nat := (some buffer, xDataLength buffer)

/-- The descriptor of a buffer. -/
def segmentOf (k : Nat) (used : Bool) (buffer : β) : TxSegment β :=
  ⟨some buffer, used, isLast (slotOf N k), true, xDataLength buffer⟩

/-- The loop of `emacps_check_tx` ends at a descriptor that has been handed over: what is left of `uxCount` was in the
ring when `head` was read, or `head` is still in front. -/
def Covers (T R : Nat) (head : Fin N) (uxCount : Nat) : Prop :=
  uxCount ≤ N ∧ (R + uxCount ≤ T ∨
    ∃ H, head = slotOf N H ∧ R ≤ H ∧ H ≤ T ∧ R + uxCount ≤ T + 1 ∧ (uxCount < N ∨ R < H))

/-- Where the IP-task stands when `txHead` is past `T` descriptors. -/
def SenderAt (T : Nat) (s : TxRing β N) : Prop :=
  match s.sender with
  | .idle => True
  | .take buffer head | .buffer buffer head => head = slotOf N T ∧ xValidLength (xDataLength buffer) = true
  | .address buffer head =>
    head = slotOf N T ∧ xValidLength (xDataLength buffer) = true ∧ s.accepted[T]? = some buffer
  | .flags buffer head =>
    head = slotOf N T ∧ xValidLength (xDataLength buffer) = true ∧ s.accepted[T]? = some buffer ∧
      (s.txSegments head).address = some buffer
  | .head head => head = slotOf N T

/-- Where the EMAC task stands when it has cleared `R` descriptors. -/
def CheckerAt (T R : Nat) (s : TxRing β N) : Prop :=
  match s.checker with
  | .idle => s.txTail = slotOf N R
  | .head tail => tail = slotOf N R ∧ s.txTail = slotOf N R
  | .count tail head =>
    (tail = slotOf N R ∧ s.txTail = slotOf N R) ∧ ∃ H, head = slotOf N H ∧ R ≤ H ∧ H ≤ T
  | .test tail head uxCount => (tail = slotOf N R ∧ s.txTail = slotOf N R) ∧ Covers T R head uxCount
  | .buffer tail head uxCount | .flags tail head uxCount =>
    (tail = slotOf N R ∧ s.txTail = slotOf N R) ∧ R < s.wire.length ∧ Covers T (R + 1) head (uxCount - 1)
  | .release tail head uxCount buffer =>
    (tail = slotOf N R ∧ s.txTail = slotOf N R) ∧ R < s.wire.length ∧ Covers T (R + 1) head (uxCount - 1) ∧
      s.accepted[R]? = some buffer
  | .give tail head uxCount =>
    ∃ k, R = k + 1 ∧ (tail = slotOf N k ∧ s.txTail = slotOf N k) ∧ Covers T R head (uxCount - 1)
  | .tail tail head uxCount =>
    ∃ k, R = k + 1 ∧ (tail = slotOf N k ∧ s.txTail = slotOf N k) ∧ Covers T R head uxCount

/-- The invariant, when `txHead` is past `T` descriptors and `R` have been cleared. -/
structure Inv (s : TxRing β N) (T R : Nat) : Prop where
  head : s.txHead = slotOf N T
  behind : R ≤ T
  accepted : s.accepted.length = T + s.sender.owned
  released : s.released.length = R + s.checker.dropped
  order : R + s.checker.dropped ≤ s.wire.length ∧ s.wire.length ≤ T + s.sender.handed
  semaphore : s.txDescriptorSemaphore + T + s.sender.busy + s.checker.owes = N + R
  releasedEq : s.released = s.accepted.take s.released.length
  wireEq : s.wire = (s.accepted.take s.wire.length).map (frame xDataLength)
  dma : s.dma = s.wire.length % N
  sending : ∀ f, s.sending = some f →
    s.wire.length < T + s.sender.handed ∧ (s.accepted[s.wire.length]?).map (frame xDataLength) = some f
  segments : Window s.txSegments (fun k d =>
    (s.accepted[k]?).map (segmentOf (N := N) xDataLength k (decide (k < s.wire.length))) = some d) R (T + s.sender.handed)
  buffers : Window s.dmaTxBuffers (fun k b => b = s.accepted[k]?) (R + s.checker.dropped) (T + s.sender.owned)
  free : Window s.txSegments (fun _ d => d.used = true) (T + s.sender.handed) (R + N)
  sender : s.SenderAt xDataLength T
  checker : s.CheckerAt T R

theorem Covers.mono {T T' R : Nat} {head : Fin N} {c : Nat} (h : Covers T R head c) (hT : T ≤ T') :
    Covers T' R head c := by
  obtain ⟨hc, h | ⟨H, hh, hR, hH, hcT, hor⟩⟩ := h
  · exact ⟨hc, .inl (h.trans hT)⟩
  · exact ⟨hc, .inr ⟨H, hh, hR, hH.trans hT, by omega, hor⟩⟩

variable {xDataLength} {s s' : TxRing β N} {T T' R : Nat}

/-- The EMAC task is not disturbed by what the others do. -/
theorem CheckerAt.mono (h : s.CheckerAt T R) (hT : T ≤ T') (hpc : s'.checker = s.checker) (htail : s'.txTail = s.txTail)
    (hwire : s.wire.length ≤ s'.wire.length) (hacc : ∀ b, s.accepted[R]? = some b → s'.accepted[R]? = some b) :
    s'.CheckerAt T' R := by
  unfold CheckerAt at h ⊢
  rw [hpc, htail]
  cases hat : s.checker with
  | idle | head tail =>
    rw [hat] at h
    exact h
  | count tail head =>
    rw [hat] at h
    obtain ⟨ht, H, hh, hR, hH⟩ := h
    exact ⟨ht, H, hh, hR, hH.trans hT⟩
  | test tail head c =>
    rw [hat] at h
    exact ⟨h.1, h.2.mono hT⟩
  | buffer tail head c | flags tail head c =>
    rw [hat] at h
    exact ⟨h.1, h.2.1.trans_le hwire, h.2.2.mono hT⟩
  | release tail head c b =>
    rw [hat] at h
    exact ⟨h.1, h.2.1.trans_le hwire, h.2.2.1.mono hT, hacc b h.2.2.2⟩
  | give tail head c | tail tail head c =>
    rw [hat] at h
    obtain ⟨k, hk, ht, hc⟩ := h
    exact ⟨k, hk, ht, hc.mono hT⟩

/-- The IP-task is not disturbed by a write to a descriptor that leaves its address. -/
theorem SenderAt.keep (h : s.SenderAt xDataLength T) (hpc : s'.sender = s.sender) (hacc : s'.accepted = s.accepted)
    (haddr : ∀ i, (s'.txSegments i).address = (s.txSegments i).address) : s'.SenderAt xDataLength T := by
  unfold SenderAt at h ⊢
  rw [hpc, hacc]
  cases hat : s.sender with
  | flags buffer head =>
    rw [hat] at h
    exact ⟨h.1, h.2.1, h.2.2.1, (haddr head).trans h.2.2.2⟩
  | _ =>
    rw [hat] at h
    exact h

omit [NeZero N] in
theorem address_update {f : Fin N → TxSegment β} {j : Fin N} {x : TxSegment β} (hx : x.address = (f j).address)
    (i : Fin N) : (Function.update f j x i).address = (f i).address := by
  by_cases hij : i = j
  · rw [hij, Function.update_self, hx]
  · rw [Function.update_of_ne hij]

theorem len_of_valid {buffer : β} (h : xValidLength (xDataLength buffer) = true) :
    xDataLength buffer % 2 ^ txbufLenBits = xDataLength buffer := by
  simp only [xValidLength, Bool.and_eq_true, decide_eq_true_eq] at h
  have hle : xDataLength buffer ≤ 1526 := h.2
  apply Nat.mod_eq_of_lt
  rw [txbufLenBits]
  omega

omit [NeZero N] in
/-- The state, with the place of the IP-task in it. -/
theorem exists_sender {pc : SendPc β N} (h : s.sender = pc) : ∃ r : TxRing β N, s = { r with sender := pc } :=
  ⟨s, by rw [← h]⟩

omit [NeZero N] in
/-- The state, with the place of the EMAC task in it. -/
theorem exists_checker {pc : CheckPc β N} (h : s.checker = pc) : ∃ r : TxRing β N, s = { r with checker := pc } :=
  ⟨s, by rw [← h]⟩

/-- An access of the IP-task. -/
theorem Inv.sendMessage (h : Inv xDataLength s T R) : ∃ T', Inv xDataLength (s.sendMessage xDataLength) T' R := by
  cases hpc : s.sender with
  | idle =>
    obtain ⟨s, rfl⟩ := exists_sender hpc
    exact ⟨T, h⟩
  | take buffer head =>
    obtain ⟨s, rfl⟩ := exists_sender hpc
    have hsem : s.txDescriptorSemaphore + T + 0 + s.checker.owes = N + R := h.semaphore
    simp only [TxRing.sendMessage]
    split
    · exact ⟨T, h⟩
    · refine ⟨T, { h with semaphore := ?_ }⟩
      simp only [SendPc.busy]
      omega
  | buffer buffer head =>
    obtain ⟨s, rfl⟩ := exists_sender hpc
    obtain ⟨rfl, hvalid⟩ := h.sender
    have hacc : s.accepted.length = T := h.accepted
    have hsent : s.wire.length ≤ s.accepted.length := h.order.2.trans_eq hacc.symm
    have hreleased : s.released.length ≤ s.accepted.length := h.released.trans_le (h.order.1.trans hsent)
    have hold : ∀ k < T, (s.accepted ++ [buffer])[k]? = s.accepted[k]? :=
      fun k hk => List.getElem?_append_left (hk.trans_eq hacc.symm)
    have hnew : (s.accepted ++ [buffer])[T]? = some buffer := by
      rw [← hacc]
      exact List.getElem?_concat_length
    simp only [TxRing.sendMessage]
    refine ⟨T, { h with
      accepted := List.length_append.trans (congrArg (· + 1) hacc)
      releasedEq := h.releasedEq.trans (List.take_append_of_le_length hreleased).symm
      wireEq := h.wireEq.trans (congrArg (List.map _) (List.take_append_of_le_length hsent).symm)
      sending := fun f hf => ?_
      segments := h.segments.imp fun k d _ hk hd => ?_
      buffers := (h.buffers.imp fun k b _ hk hb => hb.trans (hold k hk).symm).push ?_ hnew.symm
      sender := ⟨rfl, hvalid, hnew⟩
      checker := h.checker.mono (Nat.le_refl T) rfl rfl (Nat.le_refl _) fun b hb => ?_ }⟩
    · obtain ⟨hlt, hs⟩ := h.sending f hf
      exact ⟨hlt, by rw [hold _ hlt]; exact hs⟩
    · rw [hold k hk]
      exact hd
    · have hsem : s.txDescriptorSemaphore + T + 1 + s.checker.owes = N + R := h.semaphore
      show T + 0 < R + s.checker.dropped + N
      omega
    · rw [hold R ((List.getElem?_eq_some_iff.1 hb).1.trans_eq hacc)]
      exact hb
  | address buffer head =>
    obtain ⟨s, rfl⟩ := exists_sender hpc
    obtain ⟨rfl, hvalid, hb⟩ := h.sender
    have hsem : s.txDescriptorSemaphore + T + 1 + s.checker.owes = N + R := h.semaphore
    have hord : R + s.checker.dropped ≤ s.wire.length ∧ s.wire.length ≤ T := h.order
    have hroom : T < R + N := by omega
    have hround : R + N ≤ T + N := Nat.add_le_add_right h.behind N
    have hdropped : R + s.checker.dropped ≤ T := hord.1.trans hord.2
    have hread : s.dmaTxBuffers (slotOf N T) = some buffer := (h.buffers T hdropped (Nat.lt_succ_self T)).trans hb
    refine ⟨T, { h with
      segments := h.segments.outside (Nat.le_refl T) hroom
      free := h.free.inside hround (Nat.le_refl T) hroom (h.free T (Nat.le_refl T) hroom) fun _ _ _ hd => hd
      sender := ⟨rfl, hvalid, hb, ?_⟩ }⟩
    show (Function.update s.txSegments (slotOf N T) _ (slotOf N T)).address = some buffer
    rw [Function.update_self]
    exact hread
  | flags buffer head =>
    obtain ⟨s, rfl⟩ := exists_sender hpc
    obtain ⟨rfl, hvalid, hb, haddr⟩ := h.sender
    have hsem : s.txDescriptorSemaphore + T + 1 + s.checker.owes = N + R := h.semaphore
    have hord : R + s.checker.dropped ≤ s.wire.length ∧ s.wire.length ≤ T := h.order
    have hroom : T < R + N := by omega
    have hround : R + N ≤ T + N := Nat.add_le_add_right h.behind N
    refine ⟨T, { h with
      order := ⟨hord.1, hord.2.trans (Nat.le_succ T)⟩
      sending := fun f hf => (h.sending f hf).imp_left fun hlt => hlt.trans (Nat.lt_succ_self T)
      segments := h.segments.push hroom ?_
      free := (h.free.sub (Nat.le_succ T) (Nat.le_refl _)).before (Nat.lt_succ_self T) hround
      sender := rfl }⟩
    show (s.accepted[T]?).map (segmentOf xDataLength T (decide (T < s.wire.length))) = some _
    rw [hb, Option.map_some, decide_eq_false (by omega : ¬T < s.wire.length), haddr, len_of_valid hvalid]
    rfl
  | head head =>
    obtain ⟨s, rfl⟩ := exists_sender hpc
    obtain rfl : head = slotOf N T := h.sender
    have hsem : s.txDescriptorSemaphore + T + 1 + s.checker.owes = N + R := h.semaphore
    refine ⟨T + 1, { h with
      head := nextSlot_slotOf T
      behind := h.behind.trans (Nat.le_succ T)
      semaphore := ?_
      sender := trivial
      checker := h.checker.mono (Nat.le_succ T) rfl rfl (Nat.le_refl _) fun _ hb => hb }⟩
    show s.txDescriptorSemaphore + (T + 1) + 0 + s.checker.owes = N + R
    omega

theorem Covers.behind {head : Fin N} {c : Nat} (h : Covers T R head c) : R ≤ T := by
  obtain ⟨-, h | ⟨H, -, hR, hH, -⟩⟩ := h
  · omega
  · exact hR.trans hH

/-- The loop goes on at a descriptor that it covers. -/
theorem Covers.next {head : Fin N} {c : Nat} (h : Covers T R head c) (hpos : 0 < c)
    (hgoes : ¬(slotOf N R = head ∧ c ≠ N)) : Covers T (R + 1) head (c - 1) := by
  obtain ⟨hc, h | ⟨H, hh, hR, hH, hcT, hor⟩⟩ := h
  · exact ⟨by omega, .inl (by omega)⟩
  · have hlt : R < H := by
      rcases hor with hor | hor
      · -- at `head` itself the loop goes on only when all descriptors were in use
        refine lt_of_le_of_ne hR fun he => hgoes ⟨?_, Nat.ne_of_lt hor⟩
        rw [hh, he]
      · exact hor
    exact ⟨by omega, .inr ⟨H, hh, hlt, hH, by omega, .inl (by omega)⟩⟩

/-- The pass counts the descriptors, finds all of them in use, and has read `head` at its own tail. -/
def countsAll (a : TxAction β) (s : TxRing β N) : Bool :=
  match a, s.checker with
  | .checker, .count tail head => decide (tail = head) && s.txDescriptorSemaphore == 0
  | _, _ => false

/-- The IP-task is then not in the middle of a send. -/
def Calm (a : TxAction β) (s : TxRing β N) : Prop := countsAll a s = true → s.sender.busy = 0

instance (a : TxAction β) (s : TxRing β N) : Decidable (Calm a s) :=
  inferInstanceAs (Decidable (countsAll a s = true → s.sender.busy = 0))

omit [NeZero N] in
theorem sender_le (pc : SendPc β N) : pc.handed ≤ pc.owned ∧ pc.owned ≤ pc.busy ∧ pc.busy ≤ 1 := by
  cases pc <;> simp [SendPc.handed, SendPc.owned, SendPc.busy]

/-- An access of the EMAC task. -/
theorem Inv.checkTx (h : Inv xDataLength s T R) (hcalm : Calm .checker s) : ∃ R', Inv xDataLength s.checkTx T R' := by
  cases hpc : s.checker with
  | idle =>
    obtain ⟨s, rfl⟩ := exists_checker hpc
    exact ⟨R, h⟩
  | head tail =>
    obtain ⟨s, rfl⟩ := exists_checker hpc
    exact ⟨R, { h with checker := ⟨h.checker, T, h.head, h.behind, Nat.le_refl T⟩ }⟩
  | count tail head =>
    obtain ⟨s, rfl⟩ := exists_checker hpc
    obtain ⟨ht, H, hh, hR, hH⟩ := h.checker
    have hsender := sender_le s.sender
    have hsem : s.txDescriptorSemaphore + T + s.sender.busy = N + R := h.semaphore
    have hcov : Covers T R head (N - s.txDescriptorSemaphore) := by
      refine ⟨Nat.sub_le _ _, ?_⟩
      by_cases hbusy : s.sender.busy = 0
      · exact .inl (by omega)
      · refine .inr ⟨H, hh, hR, hH, by omega, ?_⟩
        by_cases hfull : s.txDescriptorSemaphore = 0
        · refine .inr (lt_of_le_of_ne hR fun he => hbusy (hcalm ?_))
          show (decide (tail = head) && s.txDescriptorSemaphore == 0) = true
          rw [ht.1, hh, he, hfull]
          simp
        · exact .inl (Nat.sub_lt (Nat.pos_of_ne_zero (NeZero.ne N)) (Nat.pos_of_ne_zero hfull))
    exact ⟨R, { h with checker := ⟨ht, hcov⟩ }⟩
  | test tail head c =>
    obtain ⟨s, rfl⟩ := exists_checker hpc
    obtain ⟨⟨rfl, htail⟩, hcov⟩ := h.checker
    simp only [TxRing.checkTx]
    split
    · rename_i hcond
      obtain ⟨hpos, hused, hgoes⟩ := hcond
      have hnext := hcov.next hpos hgoes
      have hRT := hnext.behind
      have hdone : R < s.wire.length := by
        have hat : (s.accepted[R]?).map (segmentOf xDataLength R (decide (R < s.wire.length))) =
            some (s.txSegments (slotOf N R)) := h.segments R (Nat.le_refl R) (by omega)
        cases hb : s.accepted[R]? with
        | none =>
          rw [hb] at hat
          cases hat
        | some b =>
          rw [hb] at hat
          rw [← Option.some.inj hat] at hused
          exact of_decide_eq_true hused
      exact ⟨R, { h with checker := ⟨⟨rfl, htail⟩, hdone, hnext⟩ }⟩
    · exact ⟨R, { h with checker := htail }⟩
  | buffer tail head c =>
    obtain ⟨s, rfl⟩ := exists_checker hpc
    obtain ⟨⟨rfl, htail⟩, hdone, hcov⟩ := h.checker
    have hRT := hcov.behind
    have hacc : s.accepted.length = T + s.sender.owned := h.accepted
    have hat : s.dmaTxBuffers (slotOf N R) = s.accepted[R]? := h.buffers R (Nat.le_refl R) (by omega)
    have hget := List.getElem?_eq_getElem (l := s.accepted) (i := R) (by omega)
    simp only [TxRing.checkTx]
    rw [hat, hget]
    exact ⟨R, { h with checker := ⟨⟨rfl, htail⟩, hdone, hcov, hget⟩ }⟩
  | release tail head c b =>
    obtain ⟨s, rfl⟩ := exists_checker hpc
    obtain ⟨⟨rfl, htail⟩, hdone, hcov, hget⟩ := h.checker
    have hsender := sender_le s.sender
    have hrel : s.released.length = R := h.released
    have hsem : s.txDescriptorSemaphore + T + s.sender.busy = N + R := h.semaphore
    have hround : T + s.sender.owned ≤ R + N := by omega
    have hlen : (s.released ++ [b]).length = R + 1 := by rw [List.length_append, hrel]; rfl
    refine ⟨R, { h with
      released := hlen
      order := ⟨hdone, h.order.2⟩
      releasedEq := ?_
      buffers := (h.buffers.sub (Nat.le_succ R) (Nat.le_refl _)).before (Nat.lt_succ_self R) hround
      checker := ⟨⟨rfl, htail⟩, hdone, hcov⟩ }⟩
    have heq : s.released = s.accepted.take s.released.length := h.releasedEq
    show s.released ++ [b] = s.accepted.take (s.released ++ [b]).length
    rw [hlen, List.take_add_one, hget, ← hrel, ← heq]
    rfl
  | flags tail head c =>
    obtain ⟨s, rfl⟩ := exists_checker hpc
    obtain ⟨⟨rfl, htail⟩, hdone, hcov⟩ := h.checker
    have hsender := sender_le s.sender
    have hord : R + 1 ≤ s.wire.length ∧ s.wire.length ≤ T + s.sender.handed := h.order
    have hsem : s.txDescriptorSemaphore + T + s.sender.busy = N + R := h.semaphore
    have hround : T + s.sender.handed ≤ R + N := by omega
    have hroom : R + N < T + s.sender.handed + N := by omega
    refine ⟨R + 1, { h with
      behind := hcov.behind
      semaphore := congrArg (· + 1) hsem
      segments := (h.segments.sub (Nat.le_succ R) (Nat.le_refl _)).before (Nat.lt_succ_self R) hround
      free := ?_
      sender := h.sender.keep rfl rfl (address_update rfl)
      checker := ⟨R, rfl, ⟨rfl, htail⟩, hcov⟩ }⟩
    have hpush := @Window.push _ _ _ _ _ _ _
      ⟨(s.txSegments (slotOf N R)).address, true, isLast (slotOf N R), false, 0⟩ h.free hroom rfl
    rw [slotOf_add] at hpush
    rwa [Nat.add_right_comm]
  | give tail head c =>
    obtain ⟨s, rfl⟩ := exists_checker hpc
    have hsem : s.txDescriptorSemaphore + T + s.sender.busy + 1 = N + R := h.semaphore
    have hbehind := h.behind
    refine ⟨R, { h with semaphore := ?_ }⟩
    show (if s.txDescriptorSemaphore < N then s.txDescriptorSemaphore + 1 else s.txDescriptorSemaphore) + T +
      s.sender.busy + 0 = N + R
    rw [if_pos (by omega)]
    omega
  | tail tail head c =>
    obtain ⟨s, rfl⟩ := exists_checker hpc
    obtain ⟨k, rfl, ⟨rfl, -⟩, hcov⟩ := h.checker
    exact ⟨k + 1, { h with checker := ⟨⟨nextSlot_slotOf k, nextSlot_slotOf k⟩, hcov⟩ }⟩

/-- What the DMA is given. -/
theorem Inv.segment (h : Inv xDataLength s T R) {k : Nat} (hk : s.wire.length ≤ k) (hlt : k < T + s.sender.handed) :
    ∃ b, s.accepted[k]? = some b ∧ s.txSegments (slotOf N k) = segmentOf (N := N) xDataLength k false b := by
  have hat : (s.accepted[k]?).map (segmentOf xDataLength k (decide (k < s.wire.length))) =
      some (s.txSegments (slotOf N k)) := h.segments k (by have := h.order.1; omega) hlt
  rw [decide_eq_false (Nat.not_lt.2 hk)] at hat
  obtain ⟨b, hb, hd⟩ := Option.map_eq_some_iff.1 hat
  exact ⟨b, hb, hd.symm⟩

/-- The DMA reads its descriptor. -/
theorem Inv.fetch (h : Inv xDataLength s T R) : Inv xDataLength s.fetch T R := by
  unfold TxRing.fetch
  split
  · rename_i hdma
    dsimp only
    split
    · rename_i hcond
      rw [Bool.and_eq_true, Bool.not_eq_true'] at hcond
      have hat : (⟨s.dma, hdma⟩ : Fin N) = slotOf N s.wire.length := Fin.ext h.dma
      rw [hat] at hcond ⊢
      -- a descriptor that is not used is not behind those that have been handed over
      have hlt : s.wire.length < T + s.sender.handed := by
        by_contra hge
        have hused : (s.txSegments (slotOf N s.wire.length)).used = true := by
          have hsender := sender_le s.sender
          have horder := h.order
          have hsem := h.semaphore
          by_cases hroom : s.wire.length < R + N
          · exact h.free s.wire.length (by omega) hroom
          · -- all descriptors have been sent, and the first of them has not been cleared
            have hN := Nat.pos_of_ne_zero (NeZero.ne N)
            have hfirst : (s.accepted[R]?).map (segmentOf xDataLength R (decide (R < s.wire.length))) =
                some (s.txSegments (slotOf N R)) := h.segments R (Nat.le_refl R) (by omega)
            obtain ⟨b, -, hd⟩ := Option.map_eq_some_iff.1 hfirst
            rw [show s.wire.length = R + N by omega, slotOf_add, ← hd]
            exact decide_eq_true (by omega)
        rw [hused] at hcond
        exact Bool.noConfusion hcond.2
      obtain ⟨b, hb, hd⟩ := h.segment (Nat.le_refl _) hlt
      refine { h with sending := fun f hf => ⟨hlt, ?_⟩ }
      rw [hd] at hf
      rw [hb, ← hf]
      rfl
    · exact h
  · exact h

/-- The DMA goes round the ring. -/
theorem succ_mod_last (k : Nat) : (if isLast (slotOf N k) then 0 else k % N + 1) = (k + 1) % N := by
  have hlt : k % N < N := Nat.mod_lt k (Nat.pos_of_ne_zero (NeZero.ne N))
  rw [← Nat.mod_add_mod]
  unfold isLast
  rw [val_slotOf]
  split
  · rename_i hlast
    rw [of_decide_eq_true hlast, Nat.sub_add_cancel (by omega), Nat.mod_self]
  · rename_i hlast
    have hne : k % N ≠ N - 1 := fun he => hlast (decide_eq_true he)
    exact (Nat.mod_eq_of_lt (by omega)).symm

/-- The DMA has sent the frame. -/
theorem Inv.complete (h : Inv xDataLength s T R) : Inv xDataLength s.complete T R := by
  unfold TxRing.complete
  split
  · rename_i hdma
    split
    · exact h
    · rename_i frame hs
      obtain ⟨hlt, hframe⟩ := h.sending frame hs
      obtain ⟨b, hb, hd⟩ := h.segment (Nat.le_refl _) hlt
      have hat : (⟨s.dma, hdma⟩ : Fin N) = slotOf N s.wire.length := Fin.ext h.dma
      have hlen : (s.wire ++ [frame]).length = s.wire.length + 1 := List.length_append
      have horder := h.order
      have hsender := sender_le s.sender
      have hsem := h.semaphore
      rw [hat]
      refine { h with
        order := ?order
        wireEq := ?wireEq
        dma := ?dma
        sending := fun f hf => by cases hf
        segments := ?segments
        free := h.free.before hlt (by omega)
        sender := h.sender.keep rfl rfl (address_update rfl)
        checker := h.checker.mono (Nat.le_refl T) rfl rfl (by rw [hlen]; exact Nat.le_succ _) fun _ hb => hb }
      case order =>
        rw [hlen]
        exact ⟨horder.1.trans (Nat.le_succ _), hlt⟩
      case wireEq =>
        rw [hlen, List.take_add_one, hb, List.map_append, ← h.wireEq]
        rw [hb] at hframe
        exact congrArg (s.wire ++ [·]) (Option.some.inj hframe).symm
      case dma =>
        rw [hlen, hd, ← succ_mod_last, h.dma]
        rfl
      case segments =>
        rw [hlen]
        refine h.segments.inside (by omega) (by omega) hlt ?_ fun k d hk hkd => ?_
        · rw [hb, hd, decide_eq_true (Nat.lt_succ_self _)]
          rfl
        · have hsent : decide (k < s.wire.length + 1) = decide (k < s.wire.length) := decide_eq_decide.2 (by omega)
          rw [hsent]
          exact hkd
  · exact h

/-- **One action.** -/
theorem Inv.step (h : Inv xDataLength s T R) {a : TxAction β} (hcalm : Calm a s) :
    ∃ T' R', Inv xDataLength (s.step xDataLength a) T' R' := by
  cases a with
  | send buffer =>
    cases hpc : s.sender with
    | idle =>
      obtain ⟨s, rfl⟩ := exists_sender hpc
      simp only [TxRing.step]
      split
      · rename_i hvalid
        exact ⟨T, R, { h with sender := ⟨h.head, hvalid⟩ }⟩
      · exact ⟨T, R, { h with }⟩
    | _ =>
      simp only [TxRing.step, hpc]
      exact ⟨T, R, h⟩
  | sender =>
    obtain ⟨T', h'⟩ := h.sendMessage
    exact ⟨T', R, h'⟩
  | timeOut =>
    cases hpc : s.sender with
    | take buffer head =>
      obtain ⟨s, rfl⟩ := exists_sender hpc
      exact ⟨T, R, { h with sender := trivial }⟩
    | _ =>
      simp only [TxRing.step, hpc]
      exact ⟨T, R, h⟩
  | check =>
    cases hpc : s.checker with
    | idle =>
      obtain ⟨s, rfl⟩ := exists_checker hpc
      exact ⟨T, R, { h with checker := ⟨h.checker, h.checker⟩ }⟩
    | _ =>
      simp only [TxRing.step, hpc]
      exact ⟨T, R, h⟩
  | checker =>
    obtain ⟨R', h'⟩ := h.checkTx hcalm
    exact ⟨T, R', h'⟩
  | fetch => exact ⟨T, R, h.fetch⟩
  | complete => exact ⟨T, R, h.complete⟩

/-! ## Whole runs -/

variable (xDataLength) in
/-- What the IP-task, the DMA and the EMAC task have done with the buffers. -/
structure Accounted (s : TxRing β N) : Prop where
  /-- A buffer that is handed over is given to the DMA, released at once, or on its way. -/
  called : s.called.Perm (s.accepted ++ s.refused ++ s.sender.holds.toList)
  /-- The frames go out in order, each once, with the length of its buffer. -/
  wire : s.wire <+: s.accepted.map (frame xDataLength)
  /-- The DMA is sending the next one. -/
  sending : ∀ f, s.sending = some f → (s.accepted.map (frame xDataLength))[s.wire.length]? = some f
  /-- The buffers are released in order, each once, and not before the frame has gone out. -/
  released : s.released <+: s.accepted
  behind : s.released.length ≤ s.wire.length
  /-- At most `N` buffers are with the DMA, which stays on the ring. -/
  inFlight : s.accepted.length ≤ s.released.length + N
  dma : s.dma < N
  /-- Between the calls the semaphore counts the descriptors that are free. -/
  idle : s.sender = .idle → s.checker = .idle → s.txDescriptorSemaphore + s.accepted.length = N + s.released.length

theorem Inv.accounted (h : Inv xDataLength s T R)
    (hcalled : s.called.Perm (s.accepted ++ s.refused ++ s.sender.holds.toList)) : s.Accounted xDataLength := by
  have hsem := h.semaphore
  have hacc := h.accepted
  have hrel := h.released
  have horder := h.order
  have hsender := sender_le s.sender
  constructor
  case called => exact hcalled
  case wire =>
    rw [h.wireEq]
    exact (List.take_prefix _ _).map _
  case sending =>
    intro f hf
    rw [List.getElem?_map]
    exact (h.sending f hf).2
  case released =>
    rw [h.releasedEq]
    exact List.take_prefix _ _
  case behind => omega
  case inFlight => omega
  case dma =>
    rw [h.dma]
    exact Nat.mod_lt _ (Nat.pos_of_ne_zero (NeZero.ne N))
  case idle =>
    intro hs hc
    rw [hs] at hsem hacc
    rw [hc] at hsem hrel
    simp only [SendPc.busy, SendPc.owned, CheckPc.owes, CheckPc.dropped] at hsem hacc hrel
    omega

theorem inv_reset : Inv xDataLength (reset : TxRing β N) 0 0 := by
  constructor
  case free => exact fun _ _ _ => rfl
  case segments => exact Window.empty _ _ 0
  case buffers => exact Window.empty _ _ 0
  case dma => exact (Nat.zero_mod N).symm
  case sending => exact fun f hf => by cases hf
  case order => exact ⟨Nat.le_refl 0, Nat.le_refl 0⟩
  case sender => trivial
  all_goals rfl

omit [NeZero N] in
theorem called_step (a : TxAction β) (h : s.called.Perm (s.accepted ++ s.refused ++ s.sender.holds.toList)) :
    let s' := s.step xDataLength a
    s'.called.Perm (s'.accepted ++ s'.refused ++ s'.sender.holds.toList) := by
  have hsame : ∀ s' : TxRing β N, s'.called = s.called → s'.accepted = s.accepted → s'.refused = s.refused →
      s'.sender.holds = s.sender.holds → s'.called.Perm (s'.accepted ++ s'.refused ++ s'.sender.holds.toList) := by
    intro s' hc ha hr hs
    rw [hc, ha, hr, hs]
    exact h
  cases a with
  | send buffer =>
    cases hpc : s.sender with
    | idle =>
      rw [hpc] at h
      have hcalled := h.append_right [buffer]
      simp only [TxRing.step, hpc]
      split <;> simpa [SendPc.holds] using hcalled
    | _ =>
      rw [hpc] at h
      simp only [TxRing.step, hpc]
      exact h
  | sender =>
    simp only [TxRing.step, TxRing.sendMessage]
    cases hpc : s.sender with
    | idle => exact hsame s rfl rfl rfl rfl
    | take buffer head =>
      dsimp only
      split
      · exact hsame s rfl rfl rfl rfl
      · exact hsame _ rfl rfl rfl (by rw [hpc]; rfl)
    | buffer buffer head =>
      rw [hpc] at h
      refine h.trans ?_
      simpa [SendPc.holds] using (List.perm_append_singleton buffer s.refused).append_left s.accepted
    | address | flags | head => exact hsame _ rfl rfl rfl (by rw [hpc]; rfl)
  | timeOut =>
    cases hpc : s.sender with
    | take buffer head =>
      rw [hpc] at h
      simpa [TxRing.step, hpc, SendPc.holds] using h
    | _ =>
      rw [hpc] at h
      simp only [TxRing.step, hpc]
      exact h
  | check => cases hpc : s.checker <;> simp only [TxRing.step, hpc] <;> exact hsame _ rfl rfl rfl rfl
  | checker =>
    simp only [TxRing.step, TxRing.checkTx]
    cases s.checker with
    | test =>
      dsimp only
      split <;> exact hsame _ rfl rfl rfl rfl
    | buffer =>
      dsimp only
      split <;> exact hsame _ rfl rfl rfl rfl
    | _ => exact hsame _ rfl rfl rfl rfl
  | fetch =>
    simp only [TxRing.step, TxRing.fetch]
    split <;> [split; skip] <;> exact hsame _ rfl rfl rfl rfl
  | complete =>
    simp only [TxRing.step, TxRing.complete]
    split <;> [split; skip] <;> exact hsame _ rfl rfl rfl rfl

/-- The IP-task makes no access between the reads of `txHead` and of the semaphore. -/
def Undisturbed (a : TxAction β) (s : TxRing β N) : Prop :=
  match a, s.checker with
  | .send _, .count _ _ | .sender, .count _ _ | .timeOut, .count _ _ => False
  | _, _ => True

/-- What the pass has read of `txHead` is then what `txHead` is. -/
def HeadRead (s : TxRing β N) : Prop :=
  match s.checker with
  | .count _ head => head = s.txHead
  | _ => True

omit [NeZero N] in
theorem headRead_step {a : TxAction β} {s : TxRing β N} (h : s.HeadRead) (hu : Undisturbed a s) :
    (s.step xDataLength a).HeadRead := by
  have hsame : ∀ s' : TxRing β N, s'.checker = s.checker → s'.txHead = s.txHead → s'.HeadRead := by
    intro s' hc ht
    unfold HeadRead at h ⊢
    rw [hc, ht]
    exact h
  have haway : ∀ s' : TxRing β N, (∀ tail head, s.checker ≠ .count tail head) → s'.checker = s.checker → s'.HeadRead := by
    intro s' hne hc
    unfold HeadRead
    rw [hc]
    split
    · exact absurd ‹_› (hne _ _)
    · trivial
  have hcount : (a = .sender ∨ (∃ b, a = .send b) ∨ a = .timeOut) → ∀ tail head, s.checker ≠ .count tail head := by
    rintro (rfl | ⟨b, rfl⟩ | rfl) tail head hc <;> simp [Undisturbed, hc] at hu
  cases a with
  | send buffer =>
    simp only [TxRing.step]
    split <;> [split; skip] <;> exact haway _ (hcount (.inr (.inl ⟨buffer, rfl⟩))) rfl
  | sender =>
    simp only [TxRing.step, TxRing.sendMessage]
    split <;> [skip; split; skip; skip; skip; skip] <;> exact haway _ (hcount (.inl rfl)) rfl
  | timeOut =>
    simp only [TxRing.step]
    split <;> exact haway _ (hcount (.inr (.inr rfl))) rfl
  | check =>
    simp only [TxRing.step]
    split
    · trivial
    · exact h
  | checker =>
    simp only [TxRing.step, TxRing.checkTx]
    split
    · exact h
    · rfl
    · trivial
    · split <;> trivial
    · split <;> trivial
    all_goals trivial
  | fetch =>
    simp only [TxRing.step, TxRing.fetch]
    split <;> [split; skip] <;> exact hsame _ rfl rfl
  | complete =>
    simp only [TxRing.step, TxRing.complete]
    split <;> [split; skip] <;> exact hsame _ rfl rfl

/-- With two descriptors or more, a pass that is not disturbed there is calm. -/
theorem Inv.calm {s : TxRing β N} {T R : Nat} (hN : 2 ≤ N) (h : Inv xDataLength s T R) (hread : s.HeadRead) (a : TxAction β) :
    Calm a s := by
  have hchk := h.checker
  have hsem := h.semaphore
  have hbehind := h.behind
  have hsender := sender_le s.sender
  unfold Calm countsAll
  split
  · rename_i tail head hpc
    unfold CheckerAt at hchk
    unfold HeadRead at hread
    rw [hpc] at hchk hread hsem
    simp only [CheckPc.owes] at hsem
    rw [Bool.and_eq_true, decide_eq_true_eq, beq_iff_eq]
    rintro ⟨heq, hfull⟩
    have hslot : slotOf N R = slotOf N T := by rw [← hchk.1.1, heq, hread, h.head]
    by_cases hT : T < R + N
    · have hRT := slotOf_inj hslot hbehind hT
      omega
    · omega
  · exact fun hno => absurd hno (by decide)

section Run

variable (xDataLength)
variable (acts : Nat → TxAction β) (n : Nat)

theorem inv_run (hcalm : ∀ t < n, Calm (acts t) (Clocked.run (TxRing.step xDataLength) acts (reset : TxRing β N) t)) :
    ∃ T R, Inv xDataLength (Clocked.run (TxRing.step xDataLength) acts (reset : TxRing β N) n) T R :=
  @Clocked.run_guarded _ _ (TxRing.step xDataLength) acts (reset : TxRing β N) (fun s => ∃ T R, Inv xDataLength s T R) Calm
    n ⟨0, 0, inv_reset⟩ (fun _ _ ⟨_, _, h⟩ hg => h.step hg) hcalm n (Nat.le_refl n)

/-- Every buffer that the IP-task hands over is given to the DMA, released at once, or still on its way. -/
theorem called_run : let s := Clocked.run (TxRing.step xDataLength) acts (reset : TxRing β N) n
    s.called.Perm (s.accepted ++ s.refused ++ s.sender.holds.toList) :=
  @Clocked.run_invariant _ _ _ acts (reset : TxRing β N)
    (fun s => s.called.Perm (s.accepted ++ s.refused ++ s.sender.holds.toList)) (.refl []) (fun a _ h => called_step a h) n

/-- **The transmit ring.** In every order in which the accesses of the two tasks and the DMA can come, as long as no pass
of the EMAC task counts the descriptors while the last of them is being filled. -/
theorem tx_ring_accounted
    (hcalm : ∀ t < n, Calm (acts t) (Clocked.run (TxRing.step xDataLength) acts (reset : TxRing β N) t)) :
    (Clocked.run (TxRing.step xDataLength) acts (reset : TxRing β N) n).Accounted xDataLength := by
  obtain ⟨T, R, h⟩ := inv_run xDataLength acts n hcalm
  exact h.accounted (called_run xDataLength acts n)

/-- For two descriptors or more it is enough that no send comes between the two reads of a pass. -/
theorem tx_ring_accounted_of_undisturbed (hN : 2 ≤ N)
    (hu : ∀ t < n, Undisturbed (acts t) (Clocked.run (TxRing.step xDataLength) acts (reset : TxRing β N) t)) :
    (Clocked.run (TxRing.step xDataLength) acts (reset : TxRing β N) n).Accounted xDataLength := by
  obtain ⟨⟨T, R, h⟩, -⟩ := @Clocked.run_guarded _ _ (TxRing.step xDataLength) acts (reset : TxRing β N)
    (fun s => (∃ T R, Inv xDataLength s T R) ∧ s.HeadRead) Undisturbed n ⟨⟨0, 0, inv_reset⟩, trivial⟩
    (fun a _ ⟨⟨_, _, h⟩, hr⟩ hu => ⟨h.step (h.calm hN hr a), headRead_step hr hu⟩) hu n (Nat.le_refl n)
  exact h.accounted (called_run xDataLength acts n)

end Run

/-! ## Two runs -/

/-- Eight descriptors, as the application is built, and frames of 60 bytes. -/
def after (l : List (TxAction Nat)) : TxRing Nat 8 :=
  l.foldl (fun s a => s.step (fun _ => 60) a) reset

/-- A frame that is sent. -/
def sendsFrame (buffer : Nat) : List (TxAction Nat) :=
  [.send buffer, .sender, .sender, .sender, .sender, .sender, .fetch, .complete]

/-- A pass that releases one buffer. -/
def passes : List (TxAction Nat) := .check :: List.replicate 9 .checker

theorem sendsFrame_accounted :
    let acts := fun t => (sendsFrame 7 ++ passes).getD t .fetch
    (∀ t < 18, Calm (acts t) (Clocked.run (TxRing.step fun _ => 60) acts (reset : TxRing Nat 8) t)) ∧
      (Clocked.run (TxRing.step fun _ => 60) acts (reset : TxRing Nat 8) 18).released = [7] ∧
      (Clocked.run (TxRing.step fun _ => 60) acts (reset : TxRing Nat 8) 18).Accounted fun _ => 60 := by
  have hcalm : ∀ t < 18, Calm ((sendsFrame 7 ++ passes).getD t .fetch) (Clocked.run (TxRing.step fun _ => 60)
      (fun t => (sendsFrame 7 ++ passes).getD t .fetch) (reset : TxRing Nat 8) t) := by
    decide +kernel
  exact ⟨hcalm, by decide +kernel, tx_ring_accounted _ _ 18 hcalm⟩

/-- The condition is needed. A pass has read `txHead` at an empty ring; seven frames are sent, and an eighth is being
written, when it counts the descriptors. It releases the buffer of the eighth, which the DMA is given after that. -/
theorem race_releases_before_sending :
    let s := after ([.check, .checker] ++ (List.range 7).flatMap sendsFrame ++ [.send 7, .sender, .sender, .sender] ++
      List.replicate 49 .checker ++ [.sender, .fetch])
    s.released = List.range 8 ∧ s.wire = (List.range 7).map (fun buffer => (some buffer, 60)) ∧
      s.sending = some (some 7, 60) := by
  decide +kernel

end TxRing

end Vek280Miner.Net
