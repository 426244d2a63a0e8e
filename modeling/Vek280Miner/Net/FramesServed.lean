import Vek280Miner.Net.HandlerTask
import Vek280Miner.Net.ReceiveSafety

/-!
# Frames are served

A frame that waits in the receive ring has an interrupt pending, a bit of `isr_events` that the task has not cleared, or
a pass of `emacps_check_rx` on its way (`Signals`). This rests on the interrupt not coming between the read and the write
of `isr_events` when the task clears one of the other two bits (`Calm`): the write takes the new bit away, and the frame
waits for the next interrupt (`race_strands_frame`). While the task and the interrupt go on, every frame is dealt with
(`frames_served`).
-/

namespace Vek280Miner.Net

/-! ## Passes -/

/-- How far a pass is from dealing with the next frame. -/
def RxPc.rank {β : Type} {N : Nat} : RxPc β N → Nat
  | .idle => 0
  | .pass _ _ _ _ => 1
  | .replace _ _ _ => 2
  | .alloc _ _ => 3
  | .read _ => 4
  | .test _ => 5
  | .head _ => 6
  | .address _ _ => 7
  | .flags _ _ => 8

namespace RxRing

variable {β : Type} [DecidableEq β] {N : Nat} [NeZero N] {s : RxRing β N} {R : Nat}

/-- Frames that have not been dealt with. -/
def Waits (s : RxRing β N) : Prop := s.outcomes.length < s.arrived.length

omit [DecidableEq β] [NeZero N] in
theorem arrived_checkRx (s : RxRing β N) (queueFull : Bool) : (s.checkRx queueFull).arrived = s.arrived := by
  unfold checkRx
  cases s.pc with
  | test | read | pass =>
    dsimp only
    split <;> rfl
  | alloc =>
    dsimp only
    split <;> rfl
  | _ => rfl

omit [DecidableEq β] [NeZero N] in
theorem outcomes_checkRx (s : RxRing β N) (queueFull : Bool) :
    s.outcomes.length ≤ (s.checkRx queueFull).outcomes.length := by
  unfold checkRx
  cases s.pc with
  | test | read | pass =>
    dsimp only
    split <;> simp
  | alloc =>
    dsimp only
    split <;> simp
  | _ => exact Nat.le_refl _

omit [NeZero N] in
theorem outcomes_step (s : RxRing β N) (b : RxAction β) : s.outcomes.length ≤ (s.step b).outcomes.length := by
  cases b with
  | driver queueFull => exact outcomes_checkRx s queueFull
  | begin frame =>
    simp only [step, begin]
    split <;> [split <;> [split; skip]; skip] <;> exact Nat.le_refl _
  | complete =>
    simp only [step, complete]
    split <;> [split; skip] <;> exact Nat.le_refl _
  | check | takeEvent | get | release | write =>
    simp only [step]
    split <;> exact Nat.le_refl _

omit [NeZero N] in
theorem arrived_step (s : RxRing β N) (b : RxAction β) : s.arrived.length ≤ (s.step b).arrived.length := by
  cases b with
  | driver queueFull => exact (congrArg List.length (arrived_checkRx s queueFull)).ge
  | begin frame =>
    simp only [step, begin]
    split <;> [split <;> [split; skip]; skip] <;> exact Nat.le_refl _
  | complete =>
    simp only [step, complete]
    split
    · split
      · exact Nat.le_refl _
      · exact List.length_append ▸ Nat.le_add_right _ _
    · exact Nat.le_refl _
  | check | takeEvent | get | release | write =>
    simp only [step]
    split <;> exact Nat.le_refl _

omit [DecidableEq β] in
/-- A pass ends when there is nothing left to do, ... -/
theorem Inv.pass_ends (h : Inv s R) {queueFull : Bool} (hpc : s.pc.isIdle = false)
    (hend : (s.checkRx queueFull).pc.isIdle = true) : ¬(s.checkRx queueFull).Waits := by
  have hout := h.outcomes
  have horder := h.order
  have hdrv := h.driver
  unfold DriverAt at hdrv
  unfold Waits
  rw [arrived_checkRx]
  unfold RxRing.checkRx at hend ⊢
  cases hat : s.pc with
  | idle =>
    rw [hat] at hpc
    cases hpc
  | test head =>
    rw [hat] at hend hout horder hdrv
    obtain ⟨rfl, -⟩ := hdrv
    simp only [RxPc.decided, Nat.add_zero] at hout horder
    dsimp only at hend ⊢
    split
    · rename_i hmarked
      rw [if_pos hmarked] at hend
      cases hend
    · rename_i hunmarked
      intro hlt
      rw [hout] at hlt
      exact hunmarked (h.new R (Nat.le_refl R) hlt)
  | read | alloc | pass =>
    rw [hat] at hend
    dsimp only at hend
    split at hend <;> cases hend
  | replace | flags | address | head =>
    rw [hat] at hend
    cases hend

omit [DecidableEq β] in
/-- ... and until then it comes closer to the next frame. -/
theorem Inv.pass_goes (h : Inv s R) (queueFull : Bool) (hpc : s.pc.isIdle = false) (hw : s.Waits) :
    s.outcomes.length < (s.checkRx queueFull).outcomes.length ∨
      (s.checkRx queueFull).pc.isIdle = false ∧ (s.checkRx queueFull).pc.rank < s.pc.rank := by
  have hout := h.outcomes
  have hdrv := h.driver
  unfold DriverAt at hdrv
  unfold Waits at hw
  unfold RxRing.checkRx
  cases hat : s.pc with
  | idle =>
    rw [hat] at hpc
    cases hpc
  | test head =>
    rw [hat] at hout hdrv
    obtain ⟨rfl, -⟩ := hdrv
    rw [hout] at hw
    have hmarked : (s.rxSegments (slotOf N R)).new = true := h.new R (Nat.le_refl R) hw
    dsimp only
    rw [if_pos hmarked]
    exact .inr ⟨rfl, Nat.lt_succ_self 4⟩
  | read =>
    dsimp only
    split
    · exact .inr ⟨rfl, Nat.lt_succ_self 3⟩
    · exact .inl (by simp)
  | alloc =>
    dsimp only
    split
    · exact .inr ⟨rfl, Nat.lt_succ_self 2⟩
    · exact .inl (by simp)
  | replace => exact .inr ⟨rfl, Nat.lt_succ_self 1⟩
  | pass =>
    dsimp only
    split <;> exact .inl (by simp)
  | flags => exact .inr ⟨rfl, Nat.lt_succ_self 7⟩
  | address => exact .inr ⟨rfl, Nat.lt_succ_self 6⟩
  | head => exact .inr ⟨rfl, Nat.lt_succ_self 5⟩

end RxRing

/-! ## Signals -/

/-- The task is in `emacps_check_rx`. -/
def HandlerPc.inPass : HandlerPc → Bool
  | .polled _ | .received => true
  | _ => false

/-- What it is about to write to `isr_events` when it clears a bit that is not that of the receiver. -/
def HandlerPc.clears : HandlerPc → Option IsrEvents
  | .storeTx events | .storeErr events => some events
  | _ => none

namespace EmacTask

variable {β : Type} [DecidableEq β] {N : Nat} [NeZero N]

/-- The interrupt for a frame does not come then. -/
def Calm (a : EmacAction β) (s : EmacTask β N) : Prop :=
  match a with
  | .isr _ => s.rxIrq = true → s.pc.clears = none
  | _ => True

/-- What is known of a frame that waits. -/
structure Signals (s : EmacTask β N) : Prop where
  pass : s.pc.inPass = !s.ring.pc.isIdle
  clears : ∀ events, s.pc.clears = some events → s.isrEvents.rx = true → events.rx = true
  waiting : s.ring.Waits → s.rxIrq = true ∨ s.isrEvents.rx = true ∨ s.pc = .received

variable {s s' : EmacTask β N}

omit [NeZero N] in
/-- The ring makes one of its own steps, or none. -/
theorem ring_step (a : EmacAction β) (s : EmacTask β N) : (s.step a).ring = s.ring ∨ ∃ b, (s.step a).ring = s.ring.step b := by
  cases a with
  | task queueFull timedOut recv =>
    simp only [step, task]
    cases s.pc with
    | clearRxStatus tx => exact .inr ⟨.check, rfl⟩
    | storeRx events => exact .inr ⟨.check, rfl⟩
    | polled tx => exact .inr ⟨.driver queueFull, rfl⟩
    | received => exact .inr ⟨.driver queueFull, rfl⟩
    | testEvents =>
      dsimp only
      split <;> [skip; split <;> [skip; split]] <;> exact .inl rfl
    | take =>
      dsimp only
      split <;> [skip; split] <;> exact .inl rfl
    | testRx | testTx | testErr | errors =>
      dsimp only
      split <;> exact .inl rfl
    | _ => exact .inl rfl
  | isr | sent | error => exact .inl rfl
  | ring b =>
    cases b with
    | check | driver => exact .inl rfl
    | complete =>
      simp only [step]
      split
      · exact .inr ⟨.complete, rfl⟩
      · exact .inl rfl
    | begin frame => exact .inr ⟨.begin frame, rfl⟩
    | takeEvent => exact .inr ⟨.takeEvent, rfl⟩
    | get => exact .inr ⟨.get, rfl⟩
    | release k => exact .inr ⟨.release k, rfl⟩
    | write k frame => exact .inr ⟨.write k frame, rfl⟩

omit [NeZero N] in
/-- What the actions on the ring keep is kept. -/
theorem ring_invariant {P : RxRing β N → Prop} (hP : ∀ b r, P r → P (r.step b)) (h : P s.ring) (a : EmacAction β) :
    P (s.step a).ring := by
  obtain hring | ⟨b, hring⟩ := ring_step a s <;> rw [hring]
  · exact h
  · exact hP b _ h

omit [NeZero N] in
theorem outcomes_step (a : EmacAction β) (s : EmacTask β N) :
    s.ring.outcomes.length ≤ (s.step a).ring.outcomes.length := by
  obtain hring | ⟨b, hring⟩ := ring_step a s <;> rw [hring]
  exact RxRing.outcomes_step s.ring b

omit [NeZero N] in
theorem arrived_step (a : EmacAction β) (s : EmacTask β N) :
    s.ring.arrived.length ≤ (s.step a).ring.arrived.length := by
  obtain hring | ⟨b, hring⟩ := ring_step a s <;> rw [hring]
  exact RxRing.arrived_step s.ring b

omit [DecidableEq β] [NeZero N] in
/-- The task goes on, and is in no pass. -/
theorem Signals.goto (h : s.Signals) (hring : s'.ring = s.ring) (hirq : s'.rxIrq = s.rxIrq)
    (hrx : s.isrEvents.rx = true → s'.isrEvents.rx = true) (hp : s.pc.inPass = false) (hp' : s'.pc.inPass = false)
    (hclears : ∀ events, s'.pc.clears = some events → events = s'.isrEvents) : s'.Signals := by
  constructor
  case pass => rw [hp', hring, ← h.pass, hp]
  case clears => exact fun events hc hset => by rw [hclears events hc]; exact hset
  case waiting =>
    intro hw
    rw [hring] at hw
    rw [hirq]
    obtain hi | he | hr := h.waiting hw
    · exact .inl hi
    · exact .inr (.inl (hrx he))
    · rw [hr] at hp
      cases hp

omit [NeZero N] in
/-- It calls `emacps_check_rx`. -/
theorem Signals.call (h : s.Signals) (hring : s'.ring = s.ring.step .check) (hirq : s'.rxIrq = s.rxIrq)
    (hp : s.pc.inPass = false) (hp' : s'.pc.inPass = true) (hclears : s'.pc.clears = none)
    (hrx : s.isrEvents.rx = true → s'.isrEvents.rx = true ∨ s'.pc = .received) : s'.Signals := by
  have hidle := h.pass
  rw [hp] at hidle
  cases hat : s.ring.pc with
  | idle =>
    have hcheck : s.ring.step .check = { s.ring with pc := .test s.ring.rxHead } := by simp only [RxRing.step, hat]
    rw [hcheck] at hring
    constructor
    case pass =>
      rw [hp', hring]
      rfl
    case clears => exact fun events hc => by rw [hclears] at hc; cases hc
    case waiting =>
      intro hw
      rw [hring] at hw
      rw [hirq]
      obtain hi | he | hr := h.waiting hw
      · exact .inl hi
      · exact .inr (hrx he)
      · rw [hr] at hp
        cases hp
  | _ =>
    rw [hat] at hidle
    cases hidle

omit [DecidableEq β] in
/-- It is in `emacps_check_rx`. -/
theorem Signals.inside (h : s.Signals) (hinv : ∃ R, s.ring.Inv R) {queueFull : Bool}
    (hring : s'.ring = s.ring.checkRx queueFull) (hirq : s'.rxIrq = s.rxIrq) (hrx : s'.isrEvents = s.isrEvents)
    (hp : s.pc.inPass = true)
    (hend : (s.ring.checkRx queueFull).pc.isIdle = true → s'.pc.inPass = false ∧ s'.pc.clears = none)
    (hgo : (s.ring.checkRx queueFull).pc.isIdle = false → s'.pc = s.pc) : s'.Signals := by
  obtain ⟨R, hinv⟩ := hinv
  have hpass : s.ring.pc.isIdle = false := by simpa [hp] using h.pass
  cases hdone : (s.ring.checkRx queueFull).pc.isIdle with
  | true =>
    obtain ⟨hout, hclears⟩ := hend hdone
    constructor
    case pass => rw [hout, hring, hdone]; rfl
    case clears => exact fun events hc => by rw [hclears] at hc; cases hc
    case waiting => exact fun hw => absurd (hring ▸ hw) (hinv.pass_ends hpass hdone)
  | false =>
    have hpc := hgo hdone
    constructor
    case pass => rw [hpc, hp, hring, hdone]; rfl
    case clears =>
      intro events hc
      rw [hpc] at hc
      rw [hrx]
      exact h.clears events hc
    case waiting =>
      intro hw
      rw [hirq, hrx, hpc]
      refine h.waiting ?_
      rw [hring, RxRing.Waits, RxRing.arrived_checkRx] at hw
      exact (s.ring.outcomes_checkRx queueFull).trans_lt hw

/-- An access of the task. -/
theorem Signals.task (h : s.Signals) (hinv : ∃ R, s.ring.Inv R) (queueFull timedOut recv : Bool) :
    (s.task queueFull timedOut recv).Signals := by
  have hclears := h.clears
  have hno : ∀ {s' : EmacTask β N}, s'.pc.clears = none → ∀ events, s'.pc.clears = some events → events = s'.isrEvents :=
    fun hn _ hc => by rw [hn] at hc; cases hc
  unfold EmacTask.task
  cases hpc : s.pc with
  | readTxStatus | readRxStatus | clearTxStatus | loadRx | loadRecv => exact h.goto rfl rfl id (by rw [hpc]; rfl) rfl (hno rfl)
  | testEvents =>
    dsimp only
    split <;> [skip; split <;> [skip; split]] <;> exact h.goto rfl rfl id (by rw [hpc]; rfl) rfl (hno rfl)
  | take =>
    dsimp only
    split
    · exact h.goto rfl rfl id (by rw [hpc]; rfl) rfl (hno rfl)
    · split
      · exact h.goto rfl rfl id (by rw [hpc]; rfl) rfl (hno rfl)
      · exact h
  | testRx | testTx | testErr | errors =>
    dsimp only
    split <;> exact h.goto rfl rfl id (by rw [hpc]; rfl) rfl (hno rfl)
  | loadTx | loadErr => exact h.goto rfl rfl id (by rw [hpc]; rfl) rfl fun events hc => (Option.some.inj hc).symm
  | storeTx events | storeErr events =>
    exact h.goto rfl rfl (hclears events (by rw [hpc]; rfl)) (by rw [hpc]; rfl) rfl (hno rfl)
  | storeRecv again events => cases again <;> exact h.goto rfl rfl (fun _ => rfl) (by rw [hpc]; rfl) rfl (hno rfl)
  | clearRxStatus tx => exact h.call rfl rfl (by rw [hpc]; rfl) rfl rfl .inl
  | storeRx events => exact h.call rfl rfl (by rw [hpc]; rfl) rfl rfl fun _ => .inr rfl
  | polled tx =>
    refine h.inside hinv rfl rfl rfl (by rw [hpc]; rfl) (fun hend => ?_) fun hgo => ?_
    · dsimp only
      rw [if_pos hend]
      cases tx <;> exact ⟨rfl, rfl⟩
    · dsimp only
      rw [if_neg (by rw [hgo]; decide), hpc]
  | received =>
    refine h.inside hinv rfl rfl rfl (by rw [hpc]; rfl) (fun hend => ?_) fun hgo => ?_
    · dsimp only
      rw [if_pos hend]
      exact ⟨rfl, rfl⟩
    · dsimp only
      rw [if_neg (by rw [hgo]; decide), hpc]

/-- What the actions that are not the task's leave alone. -/
structure Rests (a : EmacAction β) (s s' : EmacTask β N) : Prop where
  pc : s'.pc = s.pc
  ringPc : s'.ring.pc = s.ring.pc
  outcomes : s'.ring.outcomes = s.ring.outcomes
  arrived : s.ring.arrived.length ≤ s'.ring.arrived.length
  waits : s'.ring.Waits → s.ring.Waits ∨ s'.rxIrq = true
  rx : s.isrEvents.rx = true → s'.isrEvents.rx = true
  irq : s.rxIrq = true → s'.rxIrq = true ∨ s'.isrEvents.rx = true
  calm : Calm a s → s.pc.clears ≠ none → s'.isrEvents.rx = true → s.isrEvents.rx = true

omit [DecidableEq β] [NeZero N] in
theorem Rests.of_ring {a : EmacAction β} {r : RxRing β N} (hpc : r.pc = s.ring.pc) (hout : r.outcomes = s.ring.outcomes)
    (harr : r.arrived = s.ring.arrived) : Rests a s { s with ring := r } := by
  constructor
  case pc => rfl
  case ringPc => exact hpc
  case outcomes => exact hout
  case arrived => exact (congrArg List.length harr).ge
  case waits =>
    intro hw
    rw [RxRing.Waits, hout, harr] at hw
    exact .inl hw
  case rx => exact id
  case irq => exact .inl
  case calm => exact fun _ _ h => h

omit [DecidableEq β] [NeZero N] in
theorem Rests.of_flags {a : EmacAction β} (hring : s'.ring = s.ring) (hpc : s'.pc = s.pc) (hirq : s'.rxIrq = s.rxIrq)
    (hev : s'.isrEvents = s.isrEvents) : Rests a s s' := by
  constructor
  case pc => exact hpc
  case ringPc | outcomes => rw [hring]
  case arrived => exact (congrArg (fun r => r.arrived.length) hring).ge
  case waits => exact fun hw => .inl (hring ▸ hw)
  case rx => exact fun h => by rw [hev]; exact h
  case irq => exact fun h => .inl (hirq.trans h)
  case calm => exact fun _ _ h => by rw [← hev]; exact h

omit [NeZero N] in
theorem rests_step {a : EmacAction β} (s : EmacTask β N) (ha : ∀ q t r, a ≠ .task q t r) : Rests a s (s.step a) := by
  cases a with
  | task queueFull timedOut recv => exact absurd rfl (ha queueFull timedOut recv)
  | isr room =>
    constructor
    case pc | ringPc | outcomes => rfl
    case arrived => exact Nat.le_refl _
    case waits => exact .inl
    case rx => exact fun h => Bool.or_eq_true_iff.2 (.inl h)
    case irq => exact fun h => .inr (Bool.or_eq_true_iff.2 (.inr h))
    case calm =>
      intro hcalm hne hset
      exact (Bool.or_eq_true_iff.1 hset).resolve_right fun hirq => hne (hcalm hirq)
  | sent | error => exact .of_flags rfl rfl rfl rfl
  | ring b =>
    cases b with
    | check | driver => exact .of_flags rfl rfl rfl rfl
    | complete =>
      simp only [EmacTask.step, RxRing.complete]
      split
      · constructor
        case pc => rfl
        case ringPc | outcomes => split <;> [split; skip] <;> rfl
        case arrived =>
          split
          · split
            · exact Nat.le_refl _
            · exact (List.length_append ▸ Nat.le_add_right _ _)
          · exact Nat.le_refl _
        case waits => exact fun _ => .inr rfl
        case rx => exact id
        case irq => exact fun _ => .inl rfl
        case calm => exact fun _ _ h => h
      · exact .of_flags rfl rfl rfl rfl
    | begin frame =>
      have hsame : (s.ring.begin frame).pc = s.ring.pc ∧ (s.ring.begin frame).outcomes = s.ring.outcomes ∧
          (s.ring.begin frame).arrived = s.ring.arrived := by
        unfold RxRing.begin
        split <;> [(dsimp only; split <;> [split; skip]); skip] <;> exact ⟨rfl, rfl, rfl⟩
      exact .of_ring hsame.1 hsame.2.1 hsame.2.2
    | takeEvent | get | release k | write k frame =>
      refine .of_ring ?_ ?_ ?_ <;> (simp only [RxRing.step]; split <;> rfl)

omit [DecidableEq β] [NeZero N] in
/-- No interrupt and no frame takes a signal away. -/
theorem Signals.rests {a : EmacAction β} (h : s.Signals) (hr : Rests a s s') (hcalm : Calm a s) : s'.Signals := by
  constructor
  case pass => rw [hr.pc, hr.ringPc, h.pass]
  case clears =>
    intro events hc hset
    rw [hr.pc] at hc
    exact h.clears events hc (hr.calm hcalm (by rw [hc]; exact Option.some_ne_none _) hset)
  case waiting =>
    intro hw
    rw [hr.pc]
    obtain hw | hirq := hr.waits hw
    · obtain hirq | hset | hpc := h.waiting hw
      · exact (hr.irq hirq).imp_right .inl
      · exact .inr (.inl (hr.rx hset))
      · exact .inr (.inr hpc)
    · exact .inl hirq

/-- **One action.** -/
theorem Signals.step (h : s.Signals) (hinv : ∃ R, s.ring.Inv R) {a : EmacAction β} (hcalm : Calm a s) :
    (s.step a).Signals := by
  cases a with
  | task queueFull timedOut recv => exact h.task hinv queueFull timedOut recv
  | _ => exact h.rests (rests_step s fun _ _ _ hne => by cases hne) hcalm

/-! ## Progress -/

/-- How many accesses the task is from its next pass, or from the next frame in this one. -/
def rank (s : EmacTask β N) : Nat :=
  match s.pc with
  | .polled _ | .received => s.ring.pc.rank
  | .storeRx _ | .clearRxStatus _ => 9
  | .loadRx => 10
  | .testRx => 11
  | .clearTxStatus | .take => 12
  | .testEvents _ _ => 13
  | .readRxStatus _ => 14
  | .readTxStatus => 15
  | .storeRecv again _ => 16 + 3 * again.toNat
  | .loadRecv again => 17 + 3 * again.toNat
  | .errors again => 18 + 3 * again.toNat
  | .storeErr _ => 22
  | .loadErr => 23
  | .testErr => 24
  | .storeTx _ => 25
  | .loadTx => 26
  | .testTx => 27

/-- The task makes an access, and does not wait for a notification. -/
def Advances (a : EmacAction β) (s : EmacTask β N) : Prop :=
  match a with
  | .task _ timedOut _ => s.pc = .take → 0 < s.notified ∨ timedOut = true
  | _ => False

/-- The task knows of a frame that waits. -/
structure Ready (s : EmacTask β N) : Prop where
  waits : s.ring.Waits
  knows : s.isrEvents.rx = true ∨ s.pc.inPass = true

omit [DecidableEq β] [NeZero N] in
theorem Ready.rx (h : s.Ready) (hp : s.pc.inPass = false) : s.isrEvents.rx = true :=
  h.knows.resolve_right (by rw [hp]; decide)

/-- A step of the system brings the task closer to a frame, or it has dealt with one. -/
def Closer (a : EmacAction β) (s s' : EmacTask β N) : Prop :=
  s.ring.outcomes.length < s'.ring.outcomes.length ∨
    s'.Ready ∧ s'.rank ≤ s.rank ∧ (Advances a s → s'.rank < s.rank)

omit [DecidableEq β] [NeZero N] in
theorem Ready.goto (h : s.Ready) {a : EmacAction β} (hring : s'.ring = s.ring)
    (hrx : s'.isrEvents.rx = true) (hrank : s'.rank < s.rank) : Closer a s s' :=
  .inr ⟨⟨hring ▸ h.waits, .inl hrx⟩, hrank.le, fun _ => hrank⟩

omit [NeZero N] in
theorem Ready.call (h : s.Ready) (hs : s.Signals) {a : EmacAction β} (hring : s'.ring = s.ring.step .check)
    (hp : s.pc.inPass = false) (hp' : s'.pc.inPass = true) (hrank : s.rank = 9) : Closer a s s' := by
  have hidle := hs.pass
  rw [hp] at hidle
  cases hat : s.ring.pc with
  | idle =>
    have hcheck : s'.ring = { s.ring with pc := .test s.ring.rxHead } := by
      rw [hring]
      simp only [RxRing.step, hat]
    have hrank' : s'.rank = 5 := by
      unfold rank
      cases hpc : s'.pc with
      | polled | received => rw [hcheck]; rfl
      | _ =>
        rw [hpc] at hp'
        cases hp'
    have hlt : s'.rank < s.rank := by rw [hrank, hrank']; decide
    exact .inr ⟨⟨by rw [hcheck]; exact h.waits, .inr hp'⟩, hlt.le, fun _ => hlt⟩
  | _ =>
    rw [hat] at hidle
    cases hidle

omit [DecidableEq β] in
theorem Ready.inside (h : s.Ready) (hs : s.Signals) (hinv : ∃ R, s.ring.Inv R) {a : EmacAction β} {queueFull : Bool}
    (hring : s'.ring = s.ring.checkRx queueFull) (hp : s.pc.inPass = true)
    (hgo : (s.ring.checkRx queueFull).pc.isIdle = false → s'.pc = s.pc) : Closer a s s' := by
  obtain ⟨R, hinv⟩ := hinv
  by_cases hgrow : s.ring.outcomes.length < s'.ring.outcomes.length
  · exact .inl hgrow
  · have hpass : s.ring.pc.isIdle = false := by simpa [hp] using hs.pass
    obtain hgrow' | ⟨hidle, hlt⟩ := hinv.pass_goes queueFull hpass h.waits
    · rw [hring] at hgrow
      exact absurd hgrow' hgrow
    · have hpc := hgo hidle
      have hrank : s'.rank < s.rank := by
        unfold rank
        rw [hpc, hring]
        cases hat : s.pc with
        | polled | received => exact hlt
        | _ =>
          rw [hat] at hp
          cases hp
      refine .inr ⟨⟨?_, .inr (hpc ▸ hp)⟩, hrank.le, fun _ => hrank⟩
      have hw := h.waits
      unfold RxRing.Waits at hw ⊢
      rw [hring, RxRing.arrived_checkRx]
      rw [hring] at hgrow
      exact (Nat.not_lt.1 hgrow).trans_lt hw

/-- An access brings the task closer to the frame. -/
theorem Ready.task (h : s.Ready) (hs : s.Signals) (hinv : ∃ R, s.ring.Inv R) (queueFull timedOut recv : Bool) :
    Closer (.task queueFull timedOut recv) s (s.task queueFull timedOut recv) := by
  have hstep : ∀ {s' : EmacTask β N}, s'.ring = s.ring → (s.isrEvents.rx = true → s'.isrEvents.rx = true) →
      s.pc.inPass = false → s'.rank < s.rank → Closer (.task queueFull timedOut recv) s s' :=
    fun hring hrx hp hrank => h.goto hring (hrx (h.rx hp)) hrank
  have hat : ∀ {pc : HandlerPc}, s.pc = pc → s.rank = ({ s with pc } : EmacTask β N).rank := fun hpc => by
    unfold rank
    rw [hpc]
  unfold EmacTask.task
  cases hpc : s.pc with
  | readTxStatus | readRxStatus | clearTxStatus | loadRx | loadTx | loadErr =>
    exact hstep rfl id (by rw [hpc]; rfl) (by rw [hat hpc]; exact Nat.lt_succ_self _)
  | loadRecv again =>
    exact hstep rfl id (by rw [hpc]; rfl) (by rw [hat hpc]; simp [rank])
  | testEvents tx rx =>
    have hrank : s.rank = 13 := hat hpc
    dsimp only
    split <;> [skip; split <;> [skip; split]] <;>
      exact hstep rfl id (by rw [hpc]; rfl) (by rw [hrank]; simp [rank])
  | take =>
    have hrank : s.rank = 12 := hat hpc
    dsimp only
    split
    · exact hstep rfl id (by rw [hpc]; rfl) (by rw [hrank]; simp [rank])
    · rename_i hnone
      split
      · exact hstep rfl id (by rw [hpc]; rfl) (by rw [hrank]; simp [rank])
      · rename_i htime
        exact .inr ⟨h, Nat.le_refl _, fun hadv => absurd (hadv hpc) (not_or.2 ⟨hnone, htime⟩)⟩
  | testRx =>
    have hrank : s.rank = 11 := hat hpc
    dsimp only
    rw [if_pos (h.rx (by rw [hpc]; rfl))]
    exact hstep rfl id (by rw [hpc]; rfl) (by rw [hrank]; simp [rank])
  | testTx =>
    have hrank : s.rank = 27 := hat hpc
    dsimp only
    split <;> exact hstep rfl id (by rw [hpc]; rfl) (by rw [hrank]; simp [rank])
  | testErr =>
    have hrank : s.rank = 24 := hat hpc
    dsimp only
    split <;> exact hstep rfl id (by rw [hpc]; rfl) (by rw [hrank]; simp [rank])
  | errors again =>
    have hrank : s.rank = 18 + 3 * again.toNat := hat hpc
    dsimp only
    split <;> exact hstep rfl id (by rw [hpc]; rfl) (by rw [hrank]; simp [rank]; try omega)
  | storeTx events | storeErr events =>
    exact hstep rfl (hs.clears events (by rw [hpc]; rfl)) (by rw [hpc]; rfl) (by rw [hat hpc]; exact Nat.lt_succ_self _)
  | storeRecv again events =>
    cases again <;> exact hstep rfl (fun _ => rfl) (by rw [hpc]; rfl) (by rw [hat hpc]; exact Nat.lt_succ_self _)
  | clearRxStatus tx => exact h.call hs rfl (by rw [hpc]; rfl) rfl (hat hpc)
  | storeRx events => exact h.call hs rfl (by rw [hpc]; rfl) rfl (hat hpc)
  | polled tx =>
    refine h.inside hs hinv rfl (by rw [hpc]; rfl) fun hgo => ?_
    dsimp only
    rw [if_neg (by rw [hgo]; decide), hpc]
  | received =>
    refine h.inside hs hinv rfl (by rw [hpc]; rfl) fun hgo => ?_
    dsimp only
    rw [if_neg (by rw [hgo]; decide), hpc]

omit [DecidableEq β] [NeZero N] in
/-- No other action takes it back. -/
theorem Ready.rests {a : EmacAction β} (h : s.Ready) (hr : Rests a s s') : s'.Ready ∧ s'.rank = s.rank := by
  refine ⟨⟨?_, ?_⟩, ?_⟩
  · rw [RxRing.Waits, hr.outcomes]
    exact Nat.lt_of_lt_of_le h.waits hr.arrived
  · rw [hr.pc]
    exact h.knows.imp_left hr.rx
  · unfold rank
    rw [hr.pc, hr.ringPc]

theorem Ready.step (h : s.Ready) (hs : s.Signals) (hinv : ∃ R, s.ring.Inv R) (a : EmacAction β) : Closer a s (s.step a) := by
  have hrest : ∀ {a : EmacAction β}, (∀ q t r, a ≠ .task q t r) → ¬Advances a s → Closer a s (s.step a) := by
    intro a ha hadv
    obtain ⟨hready, hrank⟩ := h.rests (rests_step s ha)
    exact .inr ⟨hready, hrank.le, fun hadv' => absurd hadv' hadv⟩
  cases a with
  | task queueFull timedOut recv => exact h.task hs hinv queueFull timedOut recv
  | _ => exact hrest (fun _ _ _ hne => by cases hne) id

/-! ## Whole runs -/

omit [NeZero N] in
theorem rxIrq_task (s : EmacTask β N) (queueFull timedOut recv : Bool) :
    (s.task queueFull timedOut recv).rxIrq = s.rxIrq := by
  unfold task
  cases s.pc with
  | testEvents =>
    dsimp only
    split <;> [skip; split <;> [skip; split]] <;> rfl
  | take =>
    dsimp only
    split <;> [skip; split] <;> rfl
  | testRx | testTx | testErr | errors =>
    dsimp only
    split <;> rfl
  | _ => rfl

omit [NeZero N] in
/-- A pending interrupt stays pending until it comes. -/
theorem irq_step (hirq : s.rxIrq = true) (a : EmacAction β) :
    ((s.step a).rxIrq = true ∧ ∀ room, a ≠ .isr room) ∨ (s.step a).isrEvents.rx = true := by
  have hrest : ∀ {a : EmacAction β}, (∀ q t r, a ≠ .task q t r) → (∀ room, a ≠ .isr room) →
      ((s.step a).rxIrq = true ∧ ∀ room, a ≠ .isr room) ∨ (s.step a).isrEvents.rx = true :=
    fun ha hne => ((rests_step s ha).irq hirq).imp_left fun hstay => ⟨hstay, hne⟩
  cases a with
  | task queueFull timedOut recv => exact .inl ⟨(rxIrq_task s _ _ _).trans hirq, fun _ hne => by cases hne⟩
  | isr room => exact .inr (Bool.or_eq_true_iff.2 (.inr hirq))
  | sent | error | ring => exact hrest (fun _ _ _ hne => by cases hne) fun _ hne => by cases hne

/-- The task and the interrupt go on. -/
structure Fair (acts : Nat → EmacAction β) (x : Nat → EmacTask β N) : Prop where
  task : ∀ n, ∃ u ≥ n, Advances (acts u) (x u)
  isr : ∀ n, (x n).rxIrq = true → ∃ u ≥ n, ∃ room, acts u = .isr room

section Run

variable {acts : Nat → EmacAction β} {x : Nat → EmacTask β N} (hx : ∀ t, x (t + 1) = (x t).step (acts t))
  (hinv : ∀ t, ∃ R, (x t).ring.Inv R) (hsignals : ∀ t, (x t).Signals) (hfair : Fair acts x)

include hx hinv hsignals hfair

/-- A frame that the task knows of is dealt with, ... -/
theorem ready_served {n c : Nat} (hn : (x n).Ready) (hc : c ≤ (x n).ring.outcomes.length) :
    ∃ u > n, c < (x u).ring.outcomes.length := by
  refine @Clocked.ranked_until (fun u => (x u).Ready ∧ c ≤ (x u).ring.outcomes.length) _
    (fun u => Advances (acts u) (x u)) (fun u => (x u).rank) (fun u _ => hfair.task u) ?_ n ⟨hn, hc⟩
  rintro u ⟨hu, hcu⟩
  rw [hx]
  obtain hmore | ⟨hready, hrank⟩ := hu.step (hsignals u) (hinv u) (acts u)
  · exact .inl (hcu.trans_lt hmore)
  · exact .inr ⟨⟨hready, hcu.trans (outcomes_step (acts u) (x u))⟩, hrank⟩

/-- ... and the task comes to know of every frame. -/
theorem one_served {n : Nat} (hn : (x n).ring.Waits) :
    ∃ u > n, (x n).ring.outcomes.length < (x u).ring.outcomes.length := by
  have hwait : ∀ u ≥ n, (x u).ring.Waits ∧ (x u).rxIrq = true ∧
      (x n).ring.outcomes.length ≤ (x u).ring.outcomes.length →
      (¬(∃ room, acts u = .isr room) ∧ (x (u + 1)).ring.Waits ∧ (x (u + 1)).rxIrq = true ∧
        (x n).ring.outcomes.length ≤ (x (u + 1)).ring.outcomes.length) ∨
      ((x n).ring.outcomes.length < (x (u + 1)).ring.outcomes.length ∨
        (x (u + 1)).Ready ∧ (x n).ring.outcomes.length ≤ (x (u + 1)).ring.outcomes.length) := by
    rintro u - ⟨hw, hi, hle⟩
    rw [hx]
    have hle' := hle.trans (outcomes_step (acts u) (x u))
    by_cases hgrow : (x n).ring.outcomes.length < ((x u).step (acts u)).ring.outcomes.length
    · exact .inr (.inl hgrow)
    · have hw' : ((x u).step (acts u)).ring.Waits :=
        lt_of_le_of_lt ((Nat.not_lt.1 hgrow).trans hle) (hw.trans_le (arrived_step (acts u) (x u)))
      obtain ⟨hi', hne⟩ | hset := irq_step hi (acts u)
      · exact .inl ⟨fun ⟨room, heq⟩ => hne room heq, hw', hi', hle'⟩
      · exact .inr (.inr ⟨⟨hw', .inl hset⟩, hle'⟩)
  obtain hirq | hset | hpc := (hsignals n).waiting hn
  · obtain ⟨u, hu, hmore | ⟨hready, hle⟩⟩ := @Clocked.waits_until
      (fun u => (x u).ring.Waits ∧ (x u).rxIrq = true ∧ (x n).ring.outcomes.length ≤ (x u).ring.outcomes.length)
      (fun u => (x n).ring.outcomes.length < (x u).ring.outcomes.length ∨
        (x u).Ready ∧ (x n).ring.outcomes.length ≤ (x u).ring.outcomes.length)
      (fun u => ∃ room, acts u = .isr room) n ⟨hn, hirq, Nat.le_refl _⟩ (hfair.isr n hirq) hwait
    · exact ⟨u, hu, hmore⟩
    · obtain ⟨v, hv, hmore⟩ := ready_served hx hinv hsignals hfair hready hle
      exact ⟨v, hu.trans hv, hmore⟩
  · exact ready_served hx hinv hsignals hfair ⟨hn, .inl hset⟩ (Nat.le_refl _)
  · exact ready_served hx hinv hsignals hfair ⟨hn, .inr (by rw [hpc]; rfl)⟩ (Nat.le_refl _)

/-- One frame after the other. -/
theorem all_served {n k : Nat} (hk : k < (x n).ring.arrived.length) : ∃ u ≥ n, k < (x u).ring.outcomes.length := by
  obtain ⟨d, hd⟩ : ∃ d, k + 1 ≤ (x n).ring.outcomes.length + d := ⟨k + 1, Nat.le_add_left _ _⟩
  induction d generalizing n with
  | zero => exact ⟨n, Nat.le_refl n, hd⟩
  | succ d ih =>
    by_cases hdone : k < (x n).ring.outcomes.length
    · exact ⟨n, Nat.le_refl n, hdone⟩
    · obtain ⟨u, hu, hmore⟩ := one_served hx hinv hsignals hfair ((Nat.not_lt.1 hdone).trans_lt hk)
      have harrived : (x n).ring.arrived.length ≤ (x u).ring.arrived.length :=
        monotone_nat_of_le_succ (fun t => hx t ▸ arrived_step (acts t) (x t)) hu.le
      obtain ⟨v, hv, hserved⟩ := ih (hk.trans_le harrived) (by omega)
      exact ⟨v, hu.le.trans hv, hserved⟩

end Run

section Reset

variable {pool : List β} (h : N ≤ pool.length) (memory : β → Frame)

theorem safe_run (hpool : pool.Nodup) (acts : Nat → EmacAction β) (n : Nat) :
    (Clocked.run step acts (reset pool h memory : EmacTask β N) n).ring.Safe pool :=
  Clocked.run_invariant (P := fun s : EmacTask β N => s.ring.Safe pool) (RxRing.safe_reset pool memory h)
    (fun a _ hs => ring_invariant (fun b _ hr => hr.step hpool b) hs a) n

omit [DecidableEq β] in
theorem signals_reset : (reset pool h memory : EmacTask β N).Signals :=
  ⟨rfl, fun _ hc => (by cases hc), fun hw => absurd hw (Nat.lt_irrefl 0)⟩

/-- **Every frame is served.** In every run in which no interrupt for a frame comes while the task clears another bit: the
buffers and the frames are accounted for, and every frame that is stored is dealt with while the task and the interrupt
go on. -/
theorem frames_served (hpool : pool.Nodup) (acts : Nat → EmacAction β)
    (hcalm : ∀ t, Calm (acts t) (Clocked.run step acts (reset pool h memory : EmacTask β N) t))
    (hfair : Fair acts (Clocked.run step acts (reset pool h memory : EmacTask β N))) :
    let x := Clocked.run step acts (reset pool h memory : EmacTask β N)
    (∀ n, (x n).ring.Accounted pool) ∧
      ∀ n k, k < (x n).ring.arrived.length → ∃ u ≥ n, k < (x u).ring.outcomes.length := by
  intro x
  have hsafe : ∀ n, (x n).ring.Safe pool := safe_run h memory hpool acts
  have hsignals : ∀ n, (x n).Signals := by
    intro n
    induction n with
    | zero => exact signals_reset h memory
    | succ n ih => exact ih.step (hsafe n).1 (hcalm n)
  exact ⟨fun n => (hsafe n).accounted, fun n k hk => all_served (fun _ => rfl) (fun t => (hsafe t).1) hsignals hfair hk⟩

end Reset

/-! ## Two runs -/

/-- A frame comes in, and the task goes on for ever after its interrupt. -/
def oneFrame : Nat → EmacAction Nat
  | 0 => .ring (.begin RxRing.ipv4Frame)
  | 1 => .ring .complete
  | 2 => .isr true
  | _ => .task false true false

/-- The application at reset. -/
def emacReset : EmacTask Nat 8 := reset (List.range 12) (by decide) fun _ => []

theorem rxIrq_oneFrame (k : Nat) : (Clocked.run step oneFrame emacReset (3 + k)).rxIrq = false := by
  induction k with
  | zero => rfl
  | succ k ih =>
    have hact : oneFrame (3 + k) = .task false true false := by rw [Nat.add_comm]; rfl
    rw [← Nat.add_assoc, Clocked.run_succ, hact]
    exact (rxIrq_task _ _ _ _).trans ih

theorem oneFrame_served : ∃ u ≥ 2, 0 < (Clocked.run step oneFrame emacReset u).ring.outcomes.length := by
  have hcalm : ∀ t, Calm (oneFrame t) (Clocked.run step oneFrame emacReset t)
    | 0 | 1 => trivial
    | 2 => fun _ => rfl
    | _ + 3 => trivial
  have hfair : Fair oneFrame (Clocked.run step oneFrame emacReset) := by
    constructor
    case task => exact fun n => ⟨n + 3, Nat.le_add_right _ _, fun _ => .inr rfl⟩
    case isr =>
      intro n hirq
      by_cases hn : n ≤ 2
      · exact ⟨2, hn, true, rfl⟩
      · obtain ⟨k, rfl⟩ := Nat.exists_eq_add_of_le (Nat.not_le.1 hn)
        rw [rxIrq_oneFrame k] at hirq
        cases hirq
  exact (frames_served (by decide) _ List.nodup_range oneFrame hcalm hfair).2 2 0 (by decide)

/-- The condition is needed. The task has read `isr_events` to clear the bit of the transmitter when the interrupt for a
frame comes. What it writes takes the bit of the receiver away, and the task goes to sleep with the frame in the ring. -/
theorem race_strands_frame :
    let go : List (EmacAction Nat) → EmacTask Nat 8 := List.foldl (fun s a => s.step a) emacReset
    let s := go ([.sent, .isr true] ++ List.replicate 6 (.task false true false) ++
      [.ring (.begin RxRing.ipv4Frame), .ring .complete, .isr true] ++ List.replicate 24 (.task false false false))
    s.ring.arrived.length = 1 ∧ s.ring.outcomes.length = 0 ∧ s.pc = .take ∧ s.isrEvents = ⟨false, false, false⟩ ∧
      s.notified = 0 ∧ s.rxStatus = false ∧ s.rxIrq = false := by
  decide +kernel

end EmacTask

end Vek280Miner.Net
