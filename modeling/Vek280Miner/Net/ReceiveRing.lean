import Vek280Miner.Net.TransmitRing

/-!
# The receive descriptors (`x_emacpsif_dma.c`)

The DMA stores a frame in the buffer of the descriptor that it stands at and marks the descriptor as new;
`emacps_check_rx` passes the buffer to the IP-task and gives the descriptor another one, or drops the frame and leaves
the buffer where it is. The buffers come from one pool, which the IP-task uses as well.

As with the transmit descriptors an action is one access of a party. The pool hands out its buffers under a lock, the
oldest first. The DMA starts to store a frame when its descriptor is not new, and marks it when the frame is complete.
The application is built without linked messages and without a packet filter in the driver, so frames are passed one by
one and only the frame type is looked at. The caches, the debug output, `resetrx_on_no_rxdata` and the statistics are
left out, and so is the test for a descriptor without a buffer, which there is none of once `init_dma` has succeeded.

The logs `arrived`, `missed`, `outcomes` and `taken` are not read.
-/

namespace Vek280Miner.Net

/-! ## Data -/

abbrev Frame := List (BitVec 8)

/-- A descriptor. -/
structure RxSegment (β : Type) where
  address : β
  new : Bool
  wrap : Bool
  len : Nat

/-- `usFrameType`, as the processor reads it. -/
def usFrameType (frame : Frame) : BitVec 16 := frame.getD 13 0 ++ frame.getD 12 0

/-- `xMayAcceptPacket`: ARP, IPv6 and IPv4. -/
def xMayAcceptPacket (frame : Frame) : Bool :=
  usFrameType frame == 0x0608 || usFrameType frame == 0xdd86 || usFrameType frame == 0x0008

/-- The bits of `XEMACPS_RXBUF_LEN_MASK`. -/
def rxbufLenBits : Nat := 13

/-- An event of the IP-task: the buffer and its `xDataLength`. -/
structure RxEvent (β : Type) where
  buffer : β
  dataLength : Nat

/-- What becomes of a frame. -/
inductive Outcome where
  | passed
  /-- `xMayAcceptPacket` refuses it. -/
  | refused
  /-- There is no other buffer, ... -/
  | noBuffer
  /-- ... or no room for the event. -/
  | noEvent
deriving DecidableEq

/-- Where `emacps_check_rx` stands, with its `head`. -/
inductive RxPc (β : Type) (N : Nat) where
  | idle
  /-- The condition of the loop. -/
  | test (head : Fin N)
  | read (head : Fin N)
  | alloc (head : Fin N) (rxBytes : Nat)
  /-- There is a new buffer. -/
  | replace (head : Fin N) (rxBytes : Nat) (newBuffer : β)
  | pass (head : Fin N) (rxBytes : Nat) (buffer newBuffer : β)
  | flags (head : Fin N) (newBuffer : β)
  | address (head : Fin N) (newBuffer : β)
  | head (head : Fin N)

/-- The driver, the DMA, the memory of the buffers, and who has them. -/
structure RxRing (β : Type) (N : Nat) where
  rxSegments : Fin N → RxSegment β
  dmaRxBuffers : Fin N → β
  rxHead : Fin N
  pc : RxPc β N
  /-- The descriptor that the DMA stands at, and the frame that it is storing there. -/
  dma : Nat
  storing : Option Frame
  memory : β → Frame
  freeBuffers : List β
  /-- The events that wait for the IP-task, and the buffers that it has. -/
  events : List (RxEvent β)
  owned : List β
  /-- The frames that have been stored, those that found no descriptor, and what has become of the first ones. -/
  arrived : List Frame
  missed : List Frame
  outcomes : List (Frame × Outcome)
  /-- What the IP-task has found in the buffers that it has taken, with the length. -/
  taken : List (Frame × Nat)

/-- What can happen next: the EMAC task calls the function or makes an access, where the IP-task's queue may be full;
the DMA starts a frame or completes it; or the IP-task takes an event, gets, releases or writes a buffer. -/
inductive RxAction (β : Type) where
  | check
  | driver (queueFull : Bool)
  | begin (frame : Frame)
  | complete
  | takeEvent
  | get
  | release (k : Nat)
  | write (k : Nat) (frame : Frame)

namespace RxRing

variable {β : Type} [DecidableEq β] {N : Nat} [NeZero N]

/-! ## `emacps_check_rx` -/

/-- An access of the EMAC task. -/
def checkRx (queueFull : Bool) (s : RxRing β N) : RxRing β N :=
  match s.pc with
  | .idle => s
  | .test head => if (s.rxSegments head).new then { s with pc := .read head } else { s with pc := .idle }
  | .read head =>
    let frame := s.memory (s.dmaRxBuffers head)
    if xMayAcceptPacket frame then { s with pc := .alloc head (s.rxSegments head).len }
    else { s with outcomes := s.outcomes ++ [(frame, .refused)], pc := .flags head (s.dmaRxBuffers head) }
  | .alloc head rxBytes =>
    match s.freeBuffers with
    | newBuffer :: freeBuffers => { s with freeBuffers, pc := .replace head rxBytes newBuffer }
    | [] =>
      let frame := s.memory (s.dmaRxBuffers head)
      { s with outcomes := s.outcomes ++ [(frame, .noBuffer)], pc := .flags head (s.dmaRxBuffers head) }
  | .replace head rxBytes newBuffer =>
    { s with
      dmaRxBuffers := Function.update s.dmaRxBuffers head newBuffer
      pc := .pass head rxBytes (s.dmaRxBuffers head) newBuffer }
  | .pass head rxBytes buffer newBuffer =>
    let frame := s.memory buffer
    if queueFull then
      { s with
        freeBuffers := s.freeBuffers ++ [buffer]
        outcomes := s.outcomes ++ [(frame, .noEvent)]
        pc := .flags head newBuffer }
    else
      { s with
        events := s.events ++ [⟨buffer, rxBytes⟩]
        outcomes := s.outcomes ++ [(frame, .passed)]
        pc := .flags head newBuffer }
  | .flags head newBuffer =>
    { s with
      rxSegments := Function.update s.rxSegments head { s.rxSegments head with len := 0 }
      pc := .address head newBuffer }
  | .address head newBuffer =>
    { s with
      rxSegments := Function.update s.rxSegments head
        ⟨newBuffer, false, decide (head.val = N - 1), (s.rxSegments head).len⟩
      pc := .head head }
  | .head head => { s with rxHead := nextSlot head, pc := .test (nextSlot head) }

/-! ## The system -/

/-- A frame comes in; frames that are too short for a header or too long for a buffer do not. -/
def begin (frame : Frame) (s : RxRing β N) : RxRing β N :=
  if h : s.dma < N then
    let segment := s.rxSegments ⟨s.dma, h⟩
    if s.storing.isNone && decide (14 ≤ frame.length ∧ frame.length ≤ dmaRxTxBufferSize) then
      if segment.new then { s with missed := s.missed ++ [frame] }
      else { s with memory := Function.update s.memory segment.address frame, storing := some frame }
    else s
  else s

/-- The frame is complete. -/
def complete (s : RxRing β N) : RxRing β N :=
  if h : s.dma < N then
    match s.storing with
    | none => s
    | some frame =>
      let segment := s.rxSegments ⟨s.dma, h⟩
      { s with
        rxSegments := Function.update s.rxSegments ⟨s.dma, h⟩
          { segment with new := true, len := frame.length % 2 ^ rxbufLenBits }
        dma := if segment.wrap then 0 else s.dma + 1
        storing := none
        arrived := s.arrived ++ [frame] }
  else s

/-- One action; one that is not possible changes nothing. -/
def step (a : RxAction β) (s : RxRing β N) : RxRing β N :=
  match a with
  | .check =>
    match s.pc with
    | .idle => { s with pc := .test s.rxHead }
    | _ => s
  | .driver queueFull => s.checkRx queueFull
  | .begin frame => s.begin frame
  | .complete => s.complete
  | .takeEvent =>
    match s.events with
    | [] => s
    | event :: events =>
      { s with
        events
        owned := s.owned ++ [event.buffer]
        taken := s.taken ++ [(s.memory event.buffer, event.dataLength)] }
  | .get =>
    match s.freeBuffers with
    | [] => s
    | buffer :: freeBuffers => { s with freeBuffers, owned := s.owned ++ [buffer] }
  | .release k =>
    match s.owned[k]? with
    | none => s
    | some buffer => { s with owned := s.owned.eraseIdx k, freeBuffers := s.freeBuffers ++ [buffer] }
  | .write k frame =>
    match s.owned[k]? with
    | none => s
    | some buffer => { s with memory := Function.update s.memory buffer frame }

/-- The ring as `init_dma` leaves it: the first buffers of the pool are in the descriptors. -/
def reset (pool : List β) (h : N ≤ pool.length) (memory : β → Frame) : RxRing β N :=
  let buffers : Fin N → β := fun i => pool[i]
  { rxSegments := fun i => ⟨buffers i, false, decide (i.val = N - 1), 0⟩
    dmaRxBuffers := buffers
    rxHead := 0
    pc := .idle
    dma := 0
    storing := none
    memory
    freeBuffers := pool.drop N
    events := []
    owned := []
    arrived := []
    missed := []
    outcomes := []
    taken := [] }

end RxRing

end Vek280Miner.Net
