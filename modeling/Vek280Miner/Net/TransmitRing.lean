import Vek280Miner.Lib.Clocked
import Vek280Miner.Lib.Slots

/-!
# The transmit descriptors (`x_emacpsif_dma.c`)

`emacps_send_message` gives a network buffer and a descriptor to the DMA; `emacps_check_tx` releases the buffers whose
descriptors the DMA has marked as used. The first is called by the IP-task alone, the second by the EMAC task alone. Both
tasks have the same priority, so either can be interrupted by the other anywhere: an action is one access to the
descriptors, to `pxDMA_tx_buffers`, to the semaphore, or to one of the two indices.

The DMA reads the descriptor that it stands at and, when it is not used, sends the buffer and marks the descriptor; it
goes on to the first descriptor behind one with the wrap bit. When it starts, it starts where it stopped; how long it
takes is left open, so the start bit and `txBusy` are left out. So are the caches, the debug output, and what
`emacps_handle_error` does when the DMA fails.

The logs `called`, `accepted`, `refused`, `wire` and `released` are not read.
-/

namespace Vek280Miner.Net

/-! ## Data -/

/-- A descriptor: `address`, and the bits of `flags`. -/
structure TxSegment (β : Type) where
  address : Option β
  used : Bool
  wrap : Bool
  last : Bool
  len : Nat
deriving DecidableEq

/-- `dmaRX_TX_BUFFER_SIZE`. -/
def dmaRxTxBufferSize : Nat := 1536 - 10

/-- The bits of `XEMACPS_TXBUF_LEN_MASK`. -/
def txbufLenBits : Nat := 14

/-- `xValidLength`; an ARP packet has 42 bytes. -/
def xValidLength (length : Nat) : Bool := decide (42 ≤ length) && decide (length ≤ dmaRxTxBufferSize)

/-- Where `emacps_send_message` stands, with the buffer and its `head`. -/
inductive SendPc (β : Type) (N : Nat) where
  | idle
  | take (buffer : β) (head : Fin N)
  /-- The semaphore has been taken: the buffer, the address and the flags are to be written. -/
  | buffer (buffer : β) (head : Fin N)
  | address (buffer : β) (head : Fin N)
  | flags (buffer : β) (head : Fin N)
  | head (head : Fin N)

/-- Where `emacps_check_tx` stands, with its `tail`, `head` and `uxCount`. -/
inductive CheckPc (β : Type) (N : Nat) where
  | idle
  | head (tail : Fin N)
  | count (tail head : Fin N)
  /-- The condition of the loop. -/
  | test (tail head : Fin N) (uxCount : Nat)
  | buffer (tail head : Fin N) (uxCount : Nat)
  | release (tail head : Fin N) (uxCount : Nat) (buffer : β)
  | flags (tail head : Fin N) (uxCount : Nat)
  | give (tail head : Fin N) (uxCount : Nat)
  | tail (tail head : Fin N) (uxCount : Nat)

/-- The driver, the DMA, and the logs. -/
structure TxRing (β : Type) (N : Nat) where
  txSegments : Fin N → TxSegment β
  dmaTxBuffers : Fin N → Option β
  txDescriptorSemaphore : Nat
  txHead : Fin N
  txTail : Fin N
  sender : SendPc β N
  checker : CheckPc β N
  /-- The descriptor that the DMA stands at, and what it is sending from there. -/
  dma : Nat
  sending : Option (Option β × Nat)
  /-- The buffers of all calls, those that the DMA has been given, and those that have been released at once. -/
  called : List β
  accepted : List β
  refused : List β
  /-- What the DMA has sent. -/
  wire : List (Option β × Nat)
  /-- The buffers that `emacps_check_tx` has released. -/
  released : List β

/-- What can happen next: a task calls its function or makes an access, the wait for the semaphore times out, or the DMA
reads a descriptor or writes one back. -/
inductive TxAction (β : Type) where
  | send (buffer : β)
  | sender
  | timeOut
  | check
  | checker
  | fetch
  | complete

namespace TxRing

variable {β : Type} {N : Nat} [NeZero N] (xDataLength : β → Nat)

/-- The last descriptor. -/
def isLast (i : Fin N) : Bool := decide (i.val = N - 1)

/-! ## `emacps_send_message` -/

/-- An access of the IP-task. -/
def sendMessage (s : TxRing β N) : TxRing β N :=
  match s.sender with
  | .idle => s
  | .take buffer head =>
    if s.txDescriptorSemaphore = 0 then s
    else { s with txDescriptorSemaphore := s.txDescriptorSemaphore - 1, sender := .buffer buffer head }
  | .buffer buffer head =>
    { s with
      dmaTxBuffers := Function.update s.dmaTxBuffers head (some buffer)
      accepted := s.accepted ++ [buffer]
      sender := .address buffer head }
  | .address buffer head =>
    { s with
      txSegments := Function.update s.txSegments head { s.txSegments head with address := s.dmaTxBuffers head }
      sender := .flags buffer head }
  | .flags buffer head =>
    { s with
      txSegments := Function.update s.txSegments head
        ⟨(s.txSegments head).address, false, isLast head, true, xDataLength buffer % 2 ^ txbufLenBits⟩
      sender := .head head }
  | .head head => { s with txHead := nextSlot head, sender := .idle }

/-! ## `emacps_check_tx` -/

/-- An access of the EMAC task. -/
def checkTx (s : TxRing β N) : TxRing β N :=
  match s.checker with
  | .idle => s
  | .head tail => { s with checker := .count tail s.txHead }
  | .count tail head => { s with checker := .test tail head (N - s.txDescriptorSemaphore) }
  | .test tail head uxCount =>
    if 0 < uxCount ∧ (s.txSegments tail).used = true ∧ ¬(tail = head ∧ uxCount ≠ N) then
      { s with checker := .buffer tail head uxCount }
    else { s with checker := .idle }
  | .buffer tail head uxCount =>
    match s.dmaTxBuffers tail with
    | some buffer => { s with checker := .release tail head uxCount buffer }
    | none => { s with checker := .flags tail head uxCount }
  | .release tail head uxCount buffer =>
    { s with
      dmaTxBuffers := Function.update s.dmaTxBuffers tail none
      released := s.released ++ [buffer]
      checker := .flags tail head uxCount }
  | .flags tail head uxCount =>
    { s with
      txSegments := Function.update s.txSegments tail ⟨(s.txSegments tail).address, true, isLast tail, false, 0⟩
      checker := .give tail head uxCount }
  | .give tail head uxCount =>
    { s with
      txDescriptorSemaphore := if s.txDescriptorSemaphore < N then s.txDescriptorSemaphore + 1 else s.txDescriptorSemaphore
      checker := .tail tail head (uxCount - 1) }
  | .tail tail head uxCount => { s with txTail := nextSlot tail, checker := .test (nextSlot tail) head uxCount }

/-! ## The system -/

/-- The DMA reads its descriptor. -/
def fetch (s : TxRing β N) : TxRing β N :=
  if h : s.dma < N then
    let segment := s.txSegments ⟨s.dma, h⟩
    if s.sending.isNone && !segment.used then { s with sending := some (segment.address, segment.len) } else s
  else s

/-- The DMA has sent the frame. -/
def complete (s : TxRing β N) : TxRing β N :=
  if h : s.dma < N then
    match s.sending with
    | none => s
    | some frame =>
      let segment := s.txSegments ⟨s.dma, h⟩
      { s with
        txSegments := Function.update s.txSegments ⟨s.dma, h⟩ { segment with used := true }
        dma := if segment.wrap then 0 else s.dma + 1
        sending := none
        wire := s.wire ++ [frame] }
  else s

/-- One action; one that is not possible changes nothing. -/
def step (a : TxAction β) (s : TxRing β N) : TxRing β N :=
  match a with
  | .send buffer =>
    match s.sender with
    | .idle =>
      let s := { s with called := s.called ++ [buffer] }
      if xValidLength (xDataLength buffer) then { s with sender := .take buffer s.txHead }
      else { s with refused := s.refused ++ [buffer] }
    | _ => s
  | .sender => s.sendMessage xDataLength
  | .timeOut =>
    match s.sender with
    | .take buffer _ => { s with sender := .idle, refused := s.refused ++ [buffer] }
    | _ => s
  | .check =>
    match s.checker with
    | .idle => { s with checker := .head s.txTail }
    | _ => s
  | .checker => s.checkTx
  | .fetch => s.fetch
  | .complete => s.complete

/-- The ring as `init_dma` and `clean_dma_txdescs` leave it. -/
def reset : TxRing β N where
  txSegments := fun i => ⟨none, true, isLast i, false, 0⟩
  dmaTxBuffers := fun _ => none
  txDescriptorSemaphore := N
  txHead := 0
  txTail := 0
  sender := .idle
  checker := .idle
  dma := 0
  sending := none
  called := []
  accepted := []
  refused := []
  wire := []
  released := []

end TxRing

end Vek280Miner.Net
