import Mathlib.Data.List.Basic
import Mathlib.Logic.Function.Basic
import Vek280Miner.Lib.Clocked
import Vek280Miner.Lib.Word

/-!
# The errors of the EMAC (`x_emacpsif_hw.c`)

`emacps_error_handler` runs in the interrupt. It writes an error into a ring of eight entries at `xErrorHead`, if there is
room before `xErrorTail`, and only then sets the event for the task; `emacps_check_errors`, which the task of any interface
calls, hands the entry at `xErrorTail` to `emacps_handle_error`. An action is one interrupt, or one access of a task to the
ring; the interrupt can come between the reads of an entry.

Nothing moves `xErrorTail`. So in every run the ring takes the first seven errors and no other, the event is set for no
other, and whatever is handled, however often, is the first error (`only_first_handled`): an interface is initialised
again only if that one says so. The masks of the error words are those of the BSP, and a parameter.
-/

namespace Vek280Miner.Net

inductive Direction where
  | send
  | recv
deriving DecidableEq

/-- The masks of `xemacps_hw.h`. -/
structure ErrorMasks where
  txUsedRead : Word
  rxHrespNok : Word
  rxOverrun : Word
  rxBufferNa : Word
  txHrespNok : Word
  txUnderrun : Word
  txBufferExhausted : Word
  txRetry : Word
  txCollision : Word

/-- `xERROR_MSG`. -/
structure ErrorMsg (ι : Type) where
  arg : ι
  direction : Direction
  errorWord : Word
deriving DecidableEq

/-- What `emacps_handle_error` calls. -/
inductive RecoveryCall (ι : Type) where
  | initialise (arg : ι)
  | recvHandler (arg : ι)
  | handleTxErrors (arg : ι)
  | checkTx (arg : ι)
deriving DecidableEq

section

variable {ι : Type}

/-- The call, if the error word has a bit of the mask. -/
def ErrorMsg.when (e : ErrorMsg ι) (mask : Word) (call : RecoveryCall ι) : List (RecoveryCall ι) :=
  if e.errorWord &&& mask ≠ 0 then [call] else []

def emacpsHandleError (masks : ErrorMasks) (e : ErrorMsg ι) : List (RecoveryCall ι) :=
  if e.errorWord = 0 then [] else
    match e.direction with
    | .recv =>
      e.when masks.rxHrespNok (.initialise e.arg) ++ e.when masks.rxOverrun (.recvHandler e.arg) ++
        e.when masks.rxBufferNa (.recvHandler e.arg)
    | .send =>
      e.when masks.txHrespNok (.initialise e.arg) ++ e.when masks.txUnderrun (.handleTxErrors e.arg) ++
        e.when masks.txBufferExhausted (.handleTxErrors e.arg) ++ e.when masks.txRetry (.handleTxErrors e.arg) ++
        e.when masks.txCollision (.checkTx e.arg)

/-- `emacps_error_handler` keeps it. -/
def ErrorMsg.counts (masks : ErrorMasks) (e : ErrorMsg ι) : Prop :=
  e.direction ≠ .send ∨ e.errorWord ≠ masks.txUsedRead

instance (masks : ErrorMasks) (e : ErrorMsg ι) : Decidable (e.counts masks) := by
  unfold ErrorMsg.counts
  infer_instance

/-- Where a task is in `emacps_check_errors`: it reads the three words of an entry one after the other. -/
inductive ErrorPc (ι : Type) where
  | idle
  | arg
  | direction (arg : ι)
  | errorWord (arg : ι) (direction : Direction)

/-- The ring, the event and the notifications of each interface, and the tasks. The logs `reported`, `raised` and
`handled` are not read. -/
structure ErrorRing (ι : Type) where
  xErrorList : Nat → ErrorMsg ι
  xErrorHead : Nat
  xErrorTail : Nat
  errEvent : ι → Bool
  notified : ι → Nat
  pc : ι → ErrorPc ι
  reported : List (ErrorMsg ι)
  raised : Nat
  handled : List (ErrorMsg ι)

inductive ErrorAction (ι : Type) where
  /-- The interrupt. -/
  | error (e : ErrorMsg ι)
  /-- The task of an interface clears the event. -/
  | clear (i : ι)
  /-- It calls `emacps_check_errors`, ... -/
  | check (i : ι)
  /-- ... and goes on with it. -/
  | checker (i : ι)

namespace ErrorRing

variable [DecidableEq ι] (masks : ErrorMasks)

/-- `emacps_error_handler`. -/
def errorHandler (e : ErrorMsg ι) (s : ErrorRing ι) : ErrorRing ι :=
  if e.counts masks then
    let xNextHead := if s.xErrorHead + 1 = 8 then 0 else s.xErrorHead + 1
    let s := { s with
      reported := s.reported ++ [e]
      notified := Function.update s.notified e.arg (s.notified e.arg + 1) }
    if xNextHead ≠ s.xErrorTail then
      { s with
        xErrorList := Function.update s.xErrorList s.xErrorHead e
        xErrorHead := xNextHead
        errEvent := Function.update s.errEvent e.arg true
        raised := s.raised + 1 }
    else s
  else s

/-- An access of `emacps_check_errors`. -/
def checkErrors (i : ι) (s : ErrorRing ι) : ErrorRing ι :=
  let entry := s.xErrorList s.xErrorTail
  match s.pc i with
  | .idle => s
  | .arg => { s with pc := Function.update s.pc i (.direction entry.arg) }
  | .direction arg => { s with pc := Function.update s.pc i (.errorWord arg entry.direction) }
  | .errorWord arg direction =>
    { s with pc := Function.update s.pc i .idle, handled := s.handled ++ [⟨arg, direction, entry.errorWord⟩] }

def step (a : ErrorAction ι) (s : ErrorRing ι) : ErrorRing ι :=
  match a with
  | .error e => s.errorHandler masks e
  | .clear i => { s with errEvent := Function.update s.errEvent i false }
  | .check i =>
    match s.pc i with
    | .idle => if s.xErrorHead = s.xErrorTail then s else { s with pc := Function.update s.pc i .arg }
    | _ => s
  | .checker i => s.checkErrors i

/-- At start-up; the entries are zero, whatever that is. -/
def reset (zero : ErrorMsg ι) : ErrorRing ι where
  xErrorList _ := zero
  xErrorHead := 0
  xErrorTail := 0
  errEvent _ := false
  notified _ := 0
  pc _ := .idle
  reported := []
  raised := 0
  handled := []

/-- What `emacps_handle_error` has called. -/
def calls (s : ErrorRing ι) : List (RecoveryCall ι) := s.handled.flatMap (emacpsHandleError masks)

/-! ## The invariant -/

/-- What a task has read is of the first error. -/
def PcOk (s : ErrorRing ι) : ErrorPc ι → Prop
  | .idle => True
  | .arg => s.reported ≠ []
  | .direction arg => ∃ e, s.reported.head? = some e ∧ arg = e.arg
  | .errorWord arg direction => ∃ e, s.reported.head? = some e ∧ arg = e.arg ∧ direction = e.direction

/-- The ring holds the first errors, and nothing has been taken out of it. -/
structure Inv (s : ErrorRing ι) : Prop where
  tail : s.xErrorTail = 0
  head : s.xErrorHead = min 7 s.reported.length
  entries : ∀ k < s.xErrorHead, s.reported[k]? = some (s.xErrorList k)
  raised : s.raised = min 7 s.reported.length
  pc : ∀ i, s.PcOk (s.pc i)
  handled : ∀ e ∈ s.handled, s.reported.head? = some e

variable {masks} {s s' : ErrorRing ι}

omit [DecidableEq ι] in
/-- The first error stays the first. -/
theorem PcOk.append {l : List (ErrorMsg ι)} (h : s'.reported = s.reported ++ l) {pc : ErrorPc ι} (hpc : s.PcOk pc) :
    s'.PcOk pc := by
  have hfirst : ∀ {e}, s.reported.head? = some e → s'.reported.head? = some e := by
    intro e he
    rw [h, List.head?_append, he, Option.some_or]
  cases pc with
  | idle => trivial
  | arg =>
    intro hnil
    rw [h] at hnil
    exact hpc (List.append_eq_nil_iff.1 hnil).1
  | direction arg =>
    obtain ⟨e, he, harg⟩ := hpc
    exact ⟨e, hfirst he, harg⟩
  | errorWord arg direction =>
    obtain ⟨e, he, harg⟩ := hpc
    exact ⟨e, hfirst he, harg⟩

omit [DecidableEq ι] in
/-- Once there is an error, the entry at the tail is the first one. -/
theorem Inv.first (h : s.Inv) (hne : s.reported ≠ []) : s.reported.head? = some (s.xErrorList s.xErrorTail) := by
  have hpos : 0 < s.reported.length := List.length_pos_iff.2 hne
  rw [h.tail, List.head?_eq_getElem?]
  exact h.entries 0 (by rw [h.head]; omega)

theorem Inv.errorHandler (h : s.Inv) (e : ErrorMsg ι) : (s.errorHandler masks e).Inv := by
  have hhead := h.head
  have htail := h.tail
  have hgrow : ∀ {e'}, s.reported.head? = some e' → (s.reported ++ [e]).head? = some e' := by
    intro e' he'
    rw [List.head?_append, he', Option.some_or]
  unfold ErrorRing.errorHandler
  dsimp only
  split
  · by_cases hroom : s.reported.length < 7
    · -- there is room, and the error is entered behind the others
      have hlen : s.xErrorHead = s.reported.length := by omega
      rw [if_neg (by omega : ¬s.xErrorHead + 1 = 8), if_pos (by omega : s.xErrorHead + 1 ≠ s.xErrorTail)]
      refine ⟨h.tail, ?_, ?_, ?_, fun i => (h.pc i).append rfl, fun e' he' => hgrow (h.handled e' he')⟩
      · simp only [List.length_append, List.length_singleton]
        omega
      · intro k hk
        dsimp only at hk ⊢
        by_cases hlast : k = s.xErrorHead
        · rw [hlast, Function.update_self, hlen, List.getElem?_concat_length]
        · have hbefore : k < s.xErrorHead := by omega
          rw [Function.update_of_ne hlast, List.getElem?_append_left (by omega), h.entries k hbefore]
      · have := h.raised
        simp only [List.length_append, List.length_singleton]
        omega
    · -- the ring is full, and the error is lost
      have hlast : s.xErrorHead + 1 = 8 := by omega
      rw [if_pos hlast, if_neg (not_not.2 htail.symm)]
      refine ⟨h.tail, ?_, ?_, ?_, fun i => (h.pc i).append rfl, fun e' he' => hgrow (h.handled e' he')⟩
      · simp only [List.length_append, List.length_singleton]
        omega
      · intro k hk
        dsimp only at hk ⊢
        rw [List.getElem?_append_left (by omega), h.entries k hk]
      · have := h.raised
        simp only [List.length_append, List.length_singleton]
        omega
  · exact h

/-- The step of a task that does not touch the ring. -/
theorem Inv.goto (h : s.Inv) {i : ι} {pc : ErrorPc ι} (hpc : s.PcOk pc) :
    Inv { s with pc := Function.update s.pc i pc } := by
  refine ⟨h.tail, h.head, h.entries, h.raised, fun j => ?_, h.handled⟩
  show s.PcOk (Function.update s.pc i pc j)
  by_cases hj : j = i
  · subst hj
    rw [Function.update_self]
    exact hpc
  · rw [Function.update_of_ne hj]
    exact h.pc j

theorem Inv.checkErrors (h : s.Inv) (i : ι) : (s.checkErrors i).Inv := by
  have hpc := h.pc i
  have hfirst : ∀ {e}, s.reported.head? = some e → s.xErrorList s.xErrorTail = e := by
    intro e he
    have hne : s.reported ≠ [] := fun hnil => by rw [hnil] at he; cases he
    exact Option.some.inj ((h.first hne).symm.trans he)
  unfold ErrorRing.checkErrors
  cases hat : s.pc i with
  | idle => exact h
  | arg =>
    rw [hat] at hpc
    exact h.goto ⟨_, h.first hpc, rfl⟩
  | direction arg =>
    rw [hat] at hpc
    obtain ⟨e, he, harg⟩ := hpc
    exact h.goto ⟨e, he, harg, by rw [hfirst he]⟩
  | errorWord arg direction =>
    rw [hat] at hpc
    obtain ⟨e, he, rfl, rfl⟩ := hpc
    have hdone : Inv { s with pc := Function.update s.pc i .idle } := h.goto trivial
    refine ⟨hdone.tail, hdone.head, hdone.entries, hdone.raised, hdone.pc, fun e' he' => ?_⟩
    rcases List.mem_append.1 he' with hold | hnew
    · exact h.handled e' hold
    · rw [List.mem_singleton.1 hnew, hfirst he]
      exact he

theorem Inv.step (h : s.Inv) (a : ErrorAction ι) : (s.step masks a).Inv := by
  cases a with
  | error e => exact h.errorHandler e
  | clear i => exact ⟨h.tail, h.head, h.entries, h.raised, h.pc, h.handled⟩
  | checker i => exact h.checkErrors i
  | check i =>
    simp only [ErrorRing.step]
    cases s.pc i with
    | idle =>
      dsimp only
      split
      · exact h
      · rename_i hne
        refine h.goto fun hnil => hne ?_
        rw [h.head, h.tail, hnil]
        rfl
    | _ => exact h

/-! ## Every run -/

/-- What becomes of the errors. -/
structure FirstOnly (masks : ErrorMasks) (s : ErrorRing ι) : Prop where
  inBounds : s.xErrorHead < 8 ∧ s.xErrorTail < 8
  recorded : (List.range s.xErrorHead).map s.xErrorList = s.reported.take 7
  raised : s.raised = min 7 s.reported.length
  handled : ∀ e ∈ s.handled, s.reported.head? = some e
  calls : ∀ c ∈ s.calls masks, ∃ e, s.reported.head? = some e ∧ c ∈ emacpsHandleError masks e

/-- **Only the first error is handled.** In every order of errors and of the accesses of the tasks. -/
theorem only_first_handled (zero : ErrorMsg ι) (acts : Nat → ErrorAction ι) (n : Nat) :
    FirstOnly masks (Clocked.run (ErrorRing.step masks) acts (reset zero) n) := by
  have h : (Clocked.run (ErrorRing.step masks) acts (reset zero) n).Inv :=
    Clocked.run_invariant ⟨rfl, rfl, fun k hk => absurd hk (Nat.not_lt_zero k), rfl, fun _ => trivial,
      fun e he => absurd he List.not_mem_nil⟩ (fun a _ h => h.step a) n
  have hhead := h.head
  refine ⟨⟨by omega, by rw [h.tail]; decide⟩, ?_, h.raised, h.handled, fun c hc => ?_⟩
  · refine List.ext_getElem? fun k => ?_
    by_cases hk : k < (Clocked.run (ErrorRing.step masks) acts (reset zero) n).xErrorHead
    · rw [List.getElem?_take_of_lt (by omega), h.entries k hk]
      simp [hk]
    · rw [List.getElem?_eq_none (by simp; omega), List.getElem?_eq_none (by simp; omega)]
  · obtain ⟨e, he, hmem⟩ := List.mem_flatMap.1 hc
    exact ⟨e, h.handled e he, hmem⟩

end ErrorRing

end

end Vek280Miner.Net
