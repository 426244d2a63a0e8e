import Vek280Miner.Net.ReceiveRing

/-!
# The EMAC task (`NetworkInterface.c`)

`prvEMACHandlerTask` waits for an event and calls `emacps_check_rx` and `emacps_check_tx`. It finds the events in the
status registers and in `isr_events`, whose bits the handlers of `x_emacpsif_dma.c` and `x_emacpsif_hw.c` set. These run
in the interrupt of the EMAC, which has cleared the status registers before, and notify the task; one of them is called
by `emacps_check_errors` as well. `isr_events &= ~bit` is a read and a write, and the interrupt can come between them.

An action is one access of the task, one interrupt, or one of the actions on the descriptors. The bits of a status
register are taken together. `emacps_check_tx` changes nothing here; what the task does with the PHY, and the
initialisation that an error of the DMA leads to, are left out.
-/

namespace Vek280Miner.Net

/-! ## Data -/

/-- The bits of `isr_events`. -/
structure IsrEvents where
  rx : Bool
  tx : Bool
  err : Bool
deriving DecidableEq

/-- Where `prvEMACHandlerTask` stands, with what it has read of the status registers and of `isr_events`. -/
inductive HandlerPc where
  | readTxStatus
  | readRxStatus (tx : Bool)
  /-- The condition for waiting. -/
  | testEvents (tx rx : Bool)
  /-- `ulTaskNotifyTake`. -/
  | take
  | clearRxStatus (tx : Bool)
  /-- In `emacps_check_rx`. -/
  | polled (tx : Bool)
  | clearTxStatus
  | testRx
  | loadRx
  | storeRx (events : IsrEvents)
  /-- In `emacps_check_rx` again. -/
  | received
  | testTx
  | loadTx
  | storeTx (events : IsrEvents)
  | testErr
  | loadErr
  | storeErr (events : IsrEvents)
  /-- In `emacps_check_errors`, which may call `emacps_recv_handler`, for two reasons. -/
  | errors (again : Bool)
  | loadRecv (again : Bool)
  | storeRecv (again : Bool) (events : IsrEvents)
deriving DecidableEq

/-- The receive ring, the registers of the EMAC, its pending interrupts, and the variables of the task. -/
structure EmacTask (β : Type) (N : Nat) where
  ring : RxRing β N
  rxStatus : Bool
  txStatus : Bool
  rxIrq : Bool
  txIrq : Bool
  errIrq : Bool
  isrEvents : IsrEvents
  notified : Nat
  pc : HandlerPc

/-- What can happen next: an access of the task, with the result of what it calls or waits for; the interrupt, where
`emacps_error_handler` may have room for the error; a frame has been sent; an error; or an action on the ring. -/
inductive EmacAction (β : Type) where
  | task (queueFull timedOut recv : Bool)
  | isr (room : Bool)
  | sent
  | error
  | ring (a : RxAction β)

/-- `emacps_check_rx` has returned. -/
def RxPc.isIdle {β : Type} {N : Nat} : RxPc β N → Bool
  | .idle => true
  | _ => false

namespace EmacTask

variable {β : Type} [DecidableEq β] {N : Nat} [NeZero N]

/-! ## `prvEMACHandlerTask` -/

/-- An access of the task. -/
def task (queueFull timedOut recv : Bool) (s : EmacTask β N) : EmacTask β N :=
  match s.pc with
  | .readTxStatus => { s with pc := .readRxStatus s.txStatus }
  | .readRxStatus tx => { s with pc := .testEvents tx s.rxStatus }
  | .testEvents tx rx =>
    if s.isrEvents = ⟨false, false, false⟩ ∧ rx = false ∧ tx = false then { s with pc := .take }
    else if rx then { s with pc := .clearRxStatus tx }
    else if tx then { s with pc := .clearTxStatus }
    else { s with pc := .testRx }
  | .take =>
    if 0 < s.notified then { s with notified := s.notified - 1, pc := .testRx }
    else if timedOut then { s with pc := .testRx }
    else s
  | .clearRxStatus tx => { s with rxStatus := false, ring := s.ring.step .check, pc := .polled tx }
  | .polled tx =>
    let ring := s.ring.checkRx queueFull
    { s with ring, pc := if ring.pc.isIdle then if tx then .clearTxStatus else .testRx else .polled tx }
  | .clearTxStatus => { s with txStatus := false, pc := .testRx }
  | .testRx => if s.isrEvents.rx then { s with pc := .loadRx } else { s with pc := .testTx }
  | .loadRx => { s with pc := .storeRx s.isrEvents }
  | .storeRx events =>
    { s with isrEvents := { events with rx := false }, ring := s.ring.step .check, pc := .received }
  | .received =>
    let ring := s.ring.checkRx queueFull
    { s with ring, pc := if ring.pc.isIdle then .testTx else .received }
  | .testTx => if s.isrEvents.tx then { s with pc := .loadTx } else { s with pc := .testErr }
  | .loadTx => { s with pc := .storeTx s.isrEvents }
  | .storeTx events => { s with isrEvents := { events with tx := false }, pc := .testErr }
  | .testErr => if s.isrEvents.err then { s with pc := .loadErr } else { s with pc := .readTxStatus }
  | .loadErr => { s with pc := .storeErr s.isrEvents }
  | .storeErr events => { s with isrEvents := { events with err := false }, pc := .errors true }
  | .errors again => if recv then { s with pc := .loadRecv again } else { s with pc := .readTxStatus }
  | .loadRecv again => { s with pc := .storeRecv again s.isrEvents }
  | .storeRecv again events =>
    { s with
      isrEvents := { events with rx := true }
      notified := s.notified + 1
      pc := if again then .errors false else .readTxStatus }

/-! ## The system -/

/-- The interrupt: the handlers of what is pending. -/
def isr (room : Bool) (s : EmacTask β N) : EmacTask β N :=
  { s with
    rxStatus := s.rxStatus && !(s.rxIrq || s.errIrq)
    txStatus := s.txStatus && !s.txIrq
    rxIrq := false
    txIrq := false
    errIrq := false
    isrEvents := ⟨s.isrEvents.rx || s.rxIrq, s.isrEvents.tx || s.txIrq, s.isrEvents.err || s.errIrq && room⟩
    notified := s.notified + s.rxIrq.toNat + s.txIrq.toNat + s.errIrq.toNat }

/-- One action; `emacps_check_rx` is called by the task alone. -/
def step (a : EmacAction β) (s : EmacTask β N) : EmacTask β N :=
  match a with
  | .task queueFull timedOut recv => s.task queueFull timedOut recv
  | .isr room => s.isr room
  | .sent => { s with txStatus := true, txIrq := true }
  | .error => { s with rxStatus := true, errIrq := true }
  | .ring .check | .ring (.driver _) => s
  | .ring .complete =>
    if s.ring.storing.isSome then { s with ring := s.ring.complete, rxStatus := true, rxIrq := true } else s
  | .ring a => { s with ring := s.ring.step a }

/-- The task as it is created. -/
def reset (pool : List β) (h : N ≤ pool.length) (memory : β → Frame) : EmacTask β N where
  ring := .reset pool h memory
  rxStatus := false
  txStatus := false
  rxIrq := false
  txIrq := false
  errIrq := false
  isrEvents := ⟨false, false, false⟩
  notified := 0
  pc := .readTxStatus

end EmacTask

end Vek280Miner.Net
