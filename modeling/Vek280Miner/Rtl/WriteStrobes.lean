import Vek280Miner.Rtl.BusTransfers
import Vek280Miner.Rtl.StopWrite

/-!
# Strobes of a write

A byte of a data register is written if its strobe is set, and `IRQ_CONTROL` is written if the lowest strobe is.
`CONTROL` and `RESULT_STATUS` take their bits from the data whatever the strobes are. So two writes that agree on the
strobed bytes have the same effect unless they differ in a bit of one of these two registers that matters in the state
they find (`strobes_decide_iff`).
-/

namespace Vek280Miner.Rtl

/-! ## Strobed bytes -/

/-- The same bytes where the strobes are set. -/
def AgreeOn (strb : BitVec 4) (d d' : Word) : Prop :=
  ∀ k : Fin 4, strb.getLsbD k = true → byteAt d (k * 8) = byteAt d' (k * 8)

theorem applyWstrb_congr {strb : BitVec 4} {d d' : Word} (h : AgreeOn strb d d') (old : Word) :
    applyWstrb old d strb = applyWstrb old d' strb := by
  have hpick : ∀ k : Fin 4, (if strb.getLsbD k then byteAt d (k * 8) else byteAt old (k * 8)) =
      if strb.getLsbD k then byteAt d' (k * 8) else byteAt old (k * 8) := by
    intro k
    split
    · exact h k ‹_›
    · rfl
  have h0 := hpick 0
  have h1 := hpick 1
  have h2 := hpick 2
  have h3 := hpick 3
  simp only [applyWstrb]
  exact congr (congr (congr (congrArg ofBe h3) h2) h1) h0

/-- Bits of the lowest byte. -/
theorem getLsbD_of_agree {strb : BitVec 4} {d d' : Word} (h : AgreeOn strb d d') (hs : strb.getLsbD 0 = true) {j : Nat}
    (hj : j < 8) : d.getLsbD j = d'.getLsbD j := by
  have hbyte := congrArg (·.getLsbD j) (h 0 hs)
  simpa [byteAt, hj] using hbyte

/-! ## One edge -/

section Edge

variable {α : Type} [Inhabited α] {cfg : MinerCfg} {obs : Engine → α} {s : MinerCore α cfg} {w w' : Write}

/-- The commands of two writes to a register have the same effect. -/
def CommandsAgree (s : MinerCore α cfg) (w w' : Write) : Prop :=
  (w.sel = .control →
      (w.start = w'.start ∨ s.loadStateQ ≠ .idle) ∧ w.stop = w'.stop ∧ w.clearResults = w'.clearResults) ∧
    (w.sel = .resultStatus → (w.clearValid = w'.clearValid ∨ s.resultValidQ = false) ∧
      (w.clearOverflow = w'.clearOverflow ∨ s.overflowQ = false ∨ ∃ c, (s.fifos c).overflowO = true))

omit [Inhabited α] in
/-- They do where the lowest byte is strobed. -/
theorem commandsAgree_of_strobed (hsel : w'.sel = w.sel) (h : AgreeOn w.strb w.data w'.data)
    (hs : w.strb.getLsbD 0 = true) : CommandsAgree s w w' := by
  have hbit : ∀ j < 8, w.data.getLsbD j = w'.data.getLsbD j := fun j hj => getLsbD_of_agree h hs hj
  have h0 := hbit 0 (by decide)
  have h1 := hbit 1 (by decide)
  refine ⟨fun _ => ⟨.inl ?_, ?_, ?_⟩, fun _ => ⟨.inl ?_, .inl ?_⟩⟩
  · rw [Write.start, Write.start, hsel, h0]
  · rw [Write.stop, Write.stop, hsel, h1]
  · rw [Write.clearResults, Write.clearResults, hsel, hbit 2 (by decide)]
  · rw [Write.clearValid, Write.clearValid, hsel, h0]
  · rw [Write.clearOverflow, Write.clearOverflow, hsel, h1]

/-- What an edge takes from the write that is applied at it. -/
theorem step_write_congr (hjob : s.job.write w = s.job.write w')
    (hstart : s.startsLoad (some w) = s.startsLoad (some w'))
    (hstop : w.stop = w'.stop) (hclear : w.clearResults = w'.clearResults)
    (hns : (s.step obs (some w)).nonceStartQ = (s.step obs (some w')).nonceStartQ)
    (hnc : (s.step obs (some w)).nonceCountQ = (s.step obs (some w')).nonceCountQ)
    (hmask : (s.step obs (some w)).irqMaskQ = (s.step obs (some w')).irqMaskQ)
    (hforce : (s.step obs (some w)).irqForceQ = (s.step obs (some w')).irqForceQ)
    (hvalid : (s.step obs (some w)).resultValidQ = (s.step obs (some w')).resultValidQ)
    (hover : (s.step obs (some w)).overflowQ = (s.step obs (some w')).overflowQ) :
    s.step obs (some w) = s.step obs (some w') := by
  refine MinerCore.ext hjob hns hnc ?_ ?_ hover hvalid hmask hforce rfl rfl ?_ ?_ ?_ rfl ?_ rfl rfl ?_ ?_
    rfl rfl rfl rfl rfl rfl rfl
  all_goals simp only [MinerCore.step, Option.any_some, hstart, hstop, hclear]

/-- The flag of the result register after a write of `RESULT_STATUS`. -/
theorem resultValidQ_status (h : w.sel = .resultStatus) : (s.step obs (some w)).resultValidQ =
    if s.capture.isSome then true else if w.clearValid then false else s.resultValidQ := by
  have hstart : w.start = false := by simp [Write.start, h]
  have hclear : w.clearResults = false := by simp [Write.clearResults, h]
  simp only [MinerCore.step, MinerCore.startsLoad, Option.any_some, hstart, hclear, Bool.false_and, Bool.or_false]

theorem overflowQ_status (h : w.sel = .resultStatus) : (s.step obs (some w)).overflowQ =
    if decide (∃ c, (s.fifos c).overflowO = true) then true else if w.clearOverflow then false else s.overflowQ := by
  have hstart : w.start = false := by simp [Write.start, h]
  have hclear : w.clearResults = false := by simp [Write.clearResults, h]
  simp only [MinerCore.step, MinerCore.startsLoad, Option.any_some, hstart, hclear, Bool.false_and, Bool.or_false]

/-- Writes to the same register that agree on the strobed bytes and on the commands leave the same state. -/
theorem step_eq_of_agree (hsel : w'.sel = w.sel) (hstrb : w'.strb = w.strb) (h : AgreeOn w.strb w.data w'.data)
    (hcmd : CommandsAgree s w w') : s.step obs (some w) = s.step obs (some w') := by
  obtain ⟨sel, d, b⟩ := w
  obtain ⟨sel', d', b'⟩ := w'
  obtain rfl : sel' = sel := hsel
  obtain rfl : b' = b := hstrb
  have happly := applyWstrb_congr h
  obtain ⟨hcontrol, hstatus⟩ := hcmd
  cases sel' with
  | midstate i =>
    refine step_write_congr ?_ rfl rfl rfl rfl rfl rfl rfl rfl rfl
    simp only [Latched.write, writeWord, happly]
  | tail i =>
    refine step_write_congr ?_ rfl rfl rfl rfl rfl rfl rfl rfl rfl
    simp only [Latched.write, writeWord, happly]
  | target i =>
    refine step_write_congr ?_ rfl rfl rfl rfl rfl rfl rfl rfl rfl
    simp only [Latched.write, writeWord, happly]
  | control =>
    obtain ⟨hstart, hstop, hclear⟩ := hcontrol rfl
    have hload : s.startsLoad (some ⟨.control, d, b'⟩) = s.startsLoad (some ⟨.control, d', b'⟩) := by
      rcases hstart with hstart | hbusy
      · simp only [MinerCore.startsLoad, Option.any_some, hstart]
      · simp only [MinerCore.startsLoad, beq_false_of_ne hbusy, Bool.and_false]
    refine step_write_congr rfl hload hstop hclear rfl rfl rfl rfl ?_ ?_
    · simp only [MinerCore.step, Option.any_some, hload, hclear]
      rfl
    · simp only [MinerCore.step, Option.any_some, hload, hclear]
      rfl
  | nonceStart => exact step_write_congr rfl rfl rfl rfl (happly _) rfl rfl rfl rfl rfl
  | nonceCount => exact step_write_congr rfl rfl rfl rfl rfl (happly _) rfl rfl rfl rfl
  | resultStatus =>
    obtain ⟨hvalid, hover⟩ := hstatus rfl
    refine step_write_congr rfl rfl rfl rfl rfl rfl rfl rfl ?_ ?_
    · rw [resultValidQ_status rfl, resultValidQ_status rfl]
      rcases hvalid with heq | hlow
      · rw [heq]
      · rw [hlow, ite_self, ite_self]
    · rw [overflowQ_status rfl, overflowQ_status rfl]
      rcases hover with heq | hlow | hcluster
      · rw [heq]
      · rw [hlow, ite_self, ite_self]
      · rw [if_pos (decide_eq_true hcluster), if_pos (decide_eq_true hcluster)]
  | irqControl =>
    refine step_write_congr rfl rfl rfl rfl rfl rfl ?_ ?_ rfl rfl
    · show (if b'.getLsbD 0 then d.getLsbD 0 else _) = if b'.getLsbD 0 then d'.getLsbD 0 else _
      split
      · exact getLsbD_of_agree h ‹_› (by decide)
      · rfl
    · show (if b'.getLsbD 0 then d.getLsbD 1 else _) = if b'.getLsbD 0 then d'.getLsbD 1 else _
      split
      · exact getLsbD_of_agree h ‹_› (by decide)
      · rfl
  | unmapped => exact step_write_congr rfl rfl rfl rfl rfl rfl rfl rfl rfl rfl

/-- And only these: a command that differs and matters leaves a trace. -/
theorem commandsAgree_of_step (hsel : w'.sel = w.sel) (h : s.step obs (some w) = s.step obs (some w')) :
    CommandsAgree s w w' := by
  refine ⟨fun hcontrol => ⟨?_, congrArg MinerCore.stopPulseQ h, congrArg MinerCore.clearResultsQ h⟩,
    fun hstatus => ⟨?_, ?_⟩⟩
  · have hload : (w.start && s.loadStateQ == .idle) = (w'.start && s.loadStateQ == .idle) :=
      congrArg MinerCore.startPulseQ h
    by_cases hidle : s.loadStateQ = .idle
    · simp only [hidle, beq_self_eq_true, Bool.and_true] at hload
      exact .inl hload
    · exact .inr hidle
  · have hvalid := congrArg MinerCore.resultValidQ h
    rw [resultValidQ_status hstatus, resultValidQ_status (hsel.trans hstatus)] at hvalid
    cases hv : s.resultValidQ with
    | false => exact .inr rfl
    | true =>
      have hcapture : s.capture = none := by rw [MinerCore.capture, hv]; rfl
      rw [hcapture, hv] at hvalid
      refine .inl ?_
      revert hvalid
      cases w.clearValid <;> cases w'.clearValid <;> simp
  · have hover := congrArg MinerCore.overflowQ h
    rw [overflowQ_status hstatus, overflowQ_status (hsel.trans hstatus)] at hover
    by_cases hcluster : ∃ c, (s.fifos c).overflowO = true
    · exact .inr (.inr hcluster)
    · rw [decide_eq_false hcluster] at hover
      cases ho : s.overflowQ with
      | false => exact .inr (.inl rfl)
      | true =>
        rw [ho] at hover
        refine .inl ?_
        revert hover
        cases w.clearOverflow <;> cases w'.clearOverflow <;> simp

/-- Without strobes and without bits a write is no write. -/
theorem step_blank (sel : WriteSel) : s.step obs (some ⟨sel, 0, 0⟩) = s.step obs none := by
  have hkeep : ∀ old, applyWstrb old 0 0 = old := ofBe_byteAt
  have hjob : s.job.write ⟨sel, 0, 0⟩ = s.job := by
    cases sel <;> simp only [Latched.write, writeWord, hkeep, Function.update_eq_self]
  have hstart : Write.start ⟨sel, 0, 0⟩ = false := by simp [Write.start]
  have hstop : Write.stop ⟨sel, 0, 0⟩ = false := by simp [Write.stop]
  have hclear : Write.clearResults ⟨sel, 0, 0⟩ = false := by simp [Write.clearResults]
  have hvalid : Write.clearValid ⟨sel, 0, 0⟩ = false := by simp [Write.clearValid]
  have hover : Write.clearOverflow ⟨sel, 0, 0⟩ = false := by simp [Write.clearOverflow]
  refine MinerCore.ext hjob ?_ ?_ ?_ ?_ ?_ ?_ (by cases sel <;> rfl) (by cases sel <;> rfl) rfl rfl ?_ ?_ ?_ rfl ?_
    rfl rfl ?_ ?_ rfl rfl rfl rfl rfl rfl rfl
  · cases sel <;> first | rfl | exact hkeep _
  · cases sel <;> first | rfl | exact hkeep _
  all_goals simp only [MinerCore.step, MinerCore.startsLoad, Option.any_some, Option.any_none, hstart, hstop, hclear,
    hvalid, hover, Bool.false_and, Bool.or_false]

end Edge

/-! ## On the bus -/

namespace MinerAxi

variable {cfg : MinerCfg} {s : MinerAxi cfg} {inp inp' : Nat → AxiIn}

/-- A state with other data in the write pipeline. -/
def withData (s : MinerAxi cfg) (d1 d2 : Word) : MinerAxi cfg :=
  { s with wrStage1DataQ := d1, wrStage2Q := { s.wrStage2Q with data := d2 } }

/-- The data is passed on from stage to stage. -/
theorem step_withData (i : AxiIn) (d d1 d2 : Word)
    (hcore : s.core.step Engine.resultNonceO (s.withData d1 d2).applied = s.core.step Engine.resultNonceO s.applied) :
    (s.withData d1 d2).step { i with wdata := d } =
      (s.step i).withData (if s.writeFire i then d else d1) (if s.writeDecode then d1 else d2) := by
  have hw2 : (if s.writeDecode then (⟨writeSel s.wrStage1AddrQ, d1, s.wrStage1StrbQ⟩ : Write)
      else { s.wrStage2Q with data := d2 }) =
        { (if s.writeDecode then ⟨writeSel s.wrStage1AddrQ, s.wrStage1DataQ, s.wrStage1StrbQ⟩ else s.wrStage2Q) with
          data := if s.writeDecode then d1 else d2 } := by
    split <;> rfl
  unfold withData MinerAxi.step at *
  congr 1

/-- An accepted write moves to the second stage at the next edge and is applied at the one after it. -/
theorem pipeline_of_fire {i : AxiIn} (hfire : s.writeFire i = true) (j k : AxiIn) :
    (s.step i).writeFire j = false ∧ (s.step i).writeDecode = true ∧ (s.step i).applied = none ∧
      ((s.step i).step j).writeFire k = false ∧ ((s.step i).step j).wrStage1ValidQ = false ∧
      ((s.step i).step j).writeApply = true ∧
      ((s.step i).step j).wrStage2Q = ⟨writeSel (wordAddr i.awaddr), i.wdata, i.wstrb⟩ := by
  have hparts := hfire
  simp only [writeFire, Bool.and_eq_true, Bool.not_eq_true'] at hparts
  obtain ⟨⟨⟨⟨-, -⟩, h1⟩, h2⟩, hb⟩ := hparts
  have h1' : (s.step i).wrStage1ValidQ = true := by simp [MinerAxi.step, writeDecode, hfire, h1]
  have h2' : (s.step i).wrStage2ValidQ = false := by simp [MinerAxi.step, writeDecode, writeApply, h1, h2]
  have hb' : (s.step i).bvalid = false := by simp [MinerAxi.step, writeApply, h2, hb]
  have hdecode : (s.step i).writeDecode = true := by simp [writeDecode, h1', h2', hb']
  have happly : (s.step i).writeApply = false := by simp [writeApply, h2']
  have h1'' : ((s.step i).step j).wrStage1ValidQ = false := if_pos hdecode
  have h2'' : ((s.step i).step j).wrStage2ValidQ = true := by
    show (if (s.step i).writeApply then false else if (s.step i).writeDecode then true else _) = true
    rw [happly, hdecode]
    rfl
  have hb'' : ((s.step i).step j).bvalid = false := by
    show (if (s.step i).writeApply then true else if (s.step i).bvalid && j.bready then false
      else (s.step i).bvalid) = false
    rw [happly, hb']
    rfl
  refine ⟨by simp [writeFire, h1'], hdecode, by simp [applied, happly], by simp [writeFire, h2''], h1'',
    by simp [writeApply, h2'', hb''], ?_⟩
  show (if (s.step i).writeDecode then (⟨writeSel (s.step i).wrStage1AddrQ, (s.step i).wrStage1DataQ,
    (s.step i).wrStage1StrbQ⟩ : Write) else _) = _
  rw [if_pos hdecode]
  simp [MinerAxi.step, hfire]

/-- The same requests at every edge, but for the data of the write that is accepted at the first. -/
structure SameRequests (inp inp' : Nat → AxiIn) (s : MinerAxi cfg) : Prop where
  same : ∀ t, inp' t = { inp t with wdata := (inp' t).wdata }
  later : ∀ t, 0 < t → (Clocked.run step inp s t).writeFire (inp t) = true → (inp' t).wdata = (inp t).wdata

/-! ## Two runs -/

/-- Two states that differ in nothing that a later edge looks at. -/
def Twin (s s' : MinerAxi cfg) : Prop :=
  ∃ d1 d2, s' = s.withData d1 d2 ∧ (s.wrStage1ValidQ = true → d1 = s.wrStage1DataQ) ∧
    (s.wrStage2ValidQ = true → d2 = s.wrStage2Q.data)

theorem Twin.step {s' : MinerAxi cfg} (h : Twin s s') (i : AxiIn) (d : Word) (hd : s.writeFire i = true → d = i.wdata) :
    Twin (s.step i) (s'.step { i with wdata := d }) := by
  obtain ⟨d1, d2, rfl, h1, h2⟩ := h
  have happlied : (s.withData d1 d2).applied = s.applied := by
    show (if s.writeApply then some { s.wrStage2Q with data := d2 } else none) =
      if s.writeApply then some s.wrStage2Q else none
    split
    · rename_i happly
      simp only [writeApply, Bool.and_eq_true] at happly
      rw [h2 happly.1]
    · rfl
  refine ⟨_, _, step_withData i d d1 d2 (by rw [happlied]), fun hv => ?_, fun hv => ?_⟩
  · show _ = if s.writeFire i then i.wdata else s.wrStage1DataQ
    split
    · exact hd ‹_›
    · rename_i hfire
      refine h1 ?_
      have hv' : (if s.writeDecode then false else if s.writeFire i then true else s.wrStage1ValidQ) = true := hv
      rw [if_neg hfire] at hv'
      split at hv'
      · cases hv'
      · exact hv'
  · show _ = (if s.writeDecode then (⟨writeSel s.wrStage1AddrQ, s.wrStage1DataQ, s.wrStage1StrbQ⟩ : Write)
      else s.wrStage2Q).data
    split
    · rename_i hdecode
      simp only [writeDecode, Bool.and_eq_true] at hdecode
      exact h1 hdecode.1.1
    · rename_i hdecode
      refine h2 ?_
      have hv' : (if s.writeApply then false else if s.writeDecode then true else s.wrStage2ValidQ) = true := hv
      rw [if_neg hdecode] at hv'
      split at hv'
      · cases hv'
      · exact hv'

/-- The write that is accepted at an edge. -/
def accepted (i : AxiIn) : Write := ⟨writeSel (wordAddr i.awaddr), i.wdata, i.wstrb⟩

/-- Up to the edge at which the write is applied the runs differ in its data only. -/
theorem run_two (h : SameRequests inp inp' s) (hfire : s.writeFire (inp 0) = true) :
    (∀ t ≤ 2, ∃ d1 d2, Clocked.run step inp' s t = (Clocked.run step inp s t).withData d1 d2) ∧
      Clocked.run step inp' s 2 = (Clocked.run step inp s 2).withData (inp' 0).wdata (inp' 0).wdata := by
  obtain ⟨hf1, hd1, ha1, -⟩ := pipeline_of_fire hfire (inp 1) (inp 2)
  have hone : Clocked.run step inp' s 1 = (s.step (inp 0)).withData (inp' 0).wdata
      (if s.writeDecode then s.wrStage1DataQ else s.wrStage2Q.data) := by
    show s.step (inp' 0) = _
    rw [h.same 0]
    have hstep := step_withData (s := s) (inp 0) (inp' 0).wdata s.wrStage1DataQ s.wrStage2Q.data rfl
    rwa [if_pos hfire] at hstep
  have hnone : ∀ d2, ((s.step (inp 0)).withData (inp' 0).wdata d2).applied = none := by
    intro d2
    have happly : (s.step (inp 0)).writeApply = false := by
      rw [← Bool.not_eq_true]
      intro happly
      rw [applied, if_pos happly] at ha1
      cases ha1
    exact if_neg (Bool.eq_false_iff.1 happly)
  have htwo : Clocked.run step inp' s 2 = (Clocked.run step inp s 2).withData (inp' 0).wdata (inp' 0).wdata := by
    show (Clocked.run step inp' s 1).step (inp' 1) = _
    rw [hone, h.same 1, step_withData (inp 1) _ _ _ (by rw [hnone, ha1]), hf1, hd1]
    rfl
  refine ⟨fun t ht => ?_, htwo⟩
  rcases (show t = 0 ∨ t = 1 ∨ t = 2 by omega) with rfl | rfl | rfl
  · exact ⟨_, _, rfl⟩
  · exact ⟨_, _, hone⟩
  · exact ⟨_, _, htwo⟩

theorem accepted_inp' (h : SameRequests inp inp' s) :
    accepted (inp' 0) = { accepted (inp 0) with data := (inp' 0).wdata } := by
  rw [h.same 0]
  rfl

/-- The write that either run applies at the edge after. -/
theorem applied_two (h : SameRequests inp inp' s) (hfire : s.writeFire (inp 0) = true) :
    (Clocked.run step inp s 2).applied = some (accepted (inp 0)) ∧
      ((Clocked.run step inp s 2).withData (inp' 0).wdata (inp' 0).wdata).applied = some (accepted (inp' 0)) := by
  obtain ⟨-, -, -, -, -, happly, hw2⟩ := pipeline_of_fire hfire (inp 1) (inp 2)
  constructor
  · show (if ((s.step (inp 0)).step (inp 1)).writeApply then some ((s.step (inp 0)).step (inp 1)).wrStage2Q
      else none) = _
    rw [if_pos happly, hw2]
    rfl
  · show (if ((s.step (inp 0)).step (inp 1)).writeApply then
      some { ((s.step (inp 0)).step (inp 1)).wrStage2Q with data := (inp' 0).wdata } else none) = _
    rw [if_pos happly, hw2, accepted_inp' h]
    rfl

/-- The registers behind that edge. -/
theorem core_three (h : SameRequests inp inp' s) (hfire : s.writeFire (inp 0) = true) :
    (Clocked.run step inp s 3).core =
        (Clocked.run step inp s 2).core.step Engine.resultNonceO (some (accepted (inp 0))) ∧
      (Clocked.run step inp' s 3).core =
        (Clocked.run step inp s 2).core.step Engine.resultNonceO (some (accepted (inp' 0))) := by
  obtain ⟨happlied, happlied'⟩ := applied_two h hfire
  constructor
  · rw [← happlied]
    rfl
  · rw [← happlied', Clocked.run_succ, (run_two h hfire).2]
    rfl

/-- Both write stages are empty behind that edge, so the runs are twins when the commands agree. -/
theorem twin_three (h : SameRequests inp inp' s) (hfire : s.writeFire (inp 0) = true)
    (hagree : AgreeOn (inp 0).wstrb (inp 0).wdata (inp' 0).wdata)
    (hcmd : CommandsAgree (Clocked.run step inp s 2).core (accepted (inp 0)) (accepted (inp' 0))) :
    Twin (Clocked.run step inp s 3) (Clocked.run step inp' s 3) := by
  obtain ⟨happlied, happlied'⟩ := applied_two h hfire
  obtain ⟨-, -, -, hfire2, hstage1, happly, -⟩ := pipeline_of_fire hfire (inp 1) (inp 2)
  have hcore : (Clocked.run step inp s 2).core.step Engine.resultNonceO
        ((Clocked.run step inp s 2).withData (inp' 0).wdata (inp' 0).wdata).applied =
      (Clocked.run step inp s 2).core.step Engine.resultNonceO (Clocked.run step inp s 2).applied := by
    rw [happlied', happlied]
    exact (step_eq_of_agree (by rw [accepted_inp' h]) (by rw [accepted_inp' h]) hagree hcmd).symm
  have hstep := step_withData (inp 2) (inp' 2).wdata _ _ hcore
  rw [← (run_two h hfire).2, ← h.same 2] at hstep
  have hempty1 : (Clocked.run step inp s 3).wrStage1ValidQ = false := by
    show (if _ then false else if (Clocked.run step inp s 2).writeFire (inp 2) then true else
      (Clocked.run step inp s 2).wrStage1ValidQ) = false
    rw [show (Clocked.run step inp s 2).writeFire (inp 2) = false from hfire2,
      show (Clocked.run step inp s 2).wrStage1ValidQ = false from hstage1]
    simp
  have hempty2 : (Clocked.run step inp s 3).wrStage2ValidQ = false := if_pos happly
  exact ⟨_, _, hstep, fun hv => absurd hv (Bool.eq_false_iff.1 hempty1),
    fun hv => absurd hv (Bool.eq_false_iff.1 hempty2)⟩

/-- Twins stay twins. -/
theorem twin_run (h : SameRequests inp inp' s) (htwin : Twin (Clocked.run step inp s 3) (Clocked.run step inp' s 3)) :
    ∀ u, Twin (Clocked.run step inp s (3 + u)) (Clocked.run step inp' s (3 + u))
  | 0 => htwin
  | u + 1 => by
    have hnext := (twin_run h htwin u).step (inp (3 + u)) (inp' (3 + u)).wdata (h.later (3 + u) (by omega))
    rw [← h.same (3 + u)] at hnext
    exact hnext

/-- A write without strobes. -/
theorem blank_iff (h : SameRequests inp inp' s) (hfire : s.writeFire (inp 0) = true) (hzero : (inp 0).wstrb = 0) :
    (Clocked.run step inp s 3).core = (Clocked.run step inp s 2).core.step Engine.resultNonceO none ↔
      CommandsAgree (Clocked.run step inp s 2).core (accepted (inp 0)) { accepted (inp 0) with data := 0 } := by
  have hnone : (Clocked.run step inp s 2).core.step Engine.resultNonceO none =
      (Clocked.run step inp s 2).core.step Engine.resultNonceO (some { accepted (inp 0) with data := 0 }) := by
    have hblank : { accepted (inp 0) with data := 0 } = (⟨(accepted (inp 0)).sel, 0, 0⟩ : Write) :=
      congrArg (Write.mk _ 0) hzero
    rw [hblank, step_blank]
  rw [(core_three h hfire).1, hnone]
  constructor
  · exact fun heq => commandsAgree_of_step rfl heq
  · intro hcmd
    refine step_eq_of_agree rfl rfl (fun k hk => ?_) hcmd
    rw [show (accepted (inp 0)).strb = 0 from hzero] at hk
    simp at hk

/-- **Strobes.** From any state, two writes to one address with the same strobes and the same bytes where these are set
leave states that differ in the latched data only, if and only if their commands agree in the state in which they are
applied. A write without strobes is no write if and only if its commands agree with no commands. -/
theorem strobes_decide_iff (s : MinerAxi cfg) (h : SameRequests inp inp' s) (hfire : s.writeFire (inp 0) = true)
    (hagree : AgreeOn (inp 0).wstrb (inp 0).wdata (inp' 0).wdata) :
    ((∀ t, ∃ d1 d2, Clocked.run step inp' s t = (Clocked.run step inp s t).withData d1 d2) ↔
        CommandsAgree (Clocked.run step inp s 2).core (accepted (inp 0)) (accepted (inp' 0))) ∧
      ((inp 0).wstrb = 0 →
        ((Clocked.run step inp s 3).core = (Clocked.run step inp s 2).core.step Engine.resultNonceO none ↔
          CommandsAgree (Clocked.run step inp s 2).core (accepted (inp 0)) { accepted (inp 0) with data := 0 })) := by
  refine ⟨⟨fun hall => ?_, fun hcmd t => ?_⟩, blank_iff h hfire⟩
  · obtain ⟨d1, d2, hthree⟩ := hall 3
    obtain ⟨hcore, hcore'⟩ := core_three h hfire
    have hsame : (Clocked.run step inp' s 3).core = (Clocked.run step inp s 3).core := by
      rw [hthree]
      rfl
    rw [hcore, hcore'] at hsame
    exact commandsAgree_of_step (by rw [accepted_inp' h]) hsame.symm
  · rcases Nat.lt_or_ge t 3 with ht | ht
    · exact (run_two h hfire).1 t (by omega)
    · obtain ⟨u, rfl⟩ := Nat.exists_eq_add_of_le ht
      obtain ⟨d1, d2, heq, -⟩ := twin_run h (twin_three h hfire hagree hcmd) u
      exact ⟨d1, d2, heq⟩

/-- One write to `CONTROL`, at the first edge. -/
def controlWrite (strb : BitVec 4) (d : Word) (t : Nat) : AxiIn :=
  ⟨0x000, t == 0, if t = 0 then d else 0, strb, t == 0, true, 0, false, true⟩

theorem sameRequests_control (strb : BitVec 4) (d d' : Word) (s : MinerAxi cfg) :
    SameRequests (controlWrite strb d) (controlWrite strb d') s where
  same := fun _ => rfl
  later := fun t ht _ => by
    show (if t = 0 then d' else 0) = if t = 0 then d else 0
    rw [if_neg (by omega), if_neg (by omega)]

/-- The bytes above the strobed one do not matter to a start. -/
theorem strobed_start : AgreeOn 1 0x00000001 0xffffff01 ∧ ∀ t, ∃ d1 d2,
    Clocked.run step (controlWrite 1 0xffffff01) (reset fun _ => default : MinerAxi twoEngines) t =
      (Clocked.run step (controlWrite 1 0x00000001) (reset fun _ => default) t).withData d1 d2 := by
  have hagree : AgreeOn 1 0x00000001 0xffffff01 := by unfold AgreeOn; decide
  exact ⟨hagree, (strobes_decide_iff _ (sameRequests_control 1 0x00000001 0xffffff01 _) (by decide) hagree).1.2
    (commandsAgree_of_strobed rfl hagree (by decide))⟩

/-- Without a strobe a start starts all the same. -/
theorem unstrobed_start : ¬ ∀ (cfg : MinerCfg) (s : MinerAxi cfg) (inp inp' : Nat → AxiIn), s.Reachable →
    SameRequests inp inp' s → s.writeFire (inp 0) = true → AgreeOn (inp 0).wstrb (inp 0).wdata (inp' 0).wdata →
    ∀ t, ∃ d1 d2, Clocked.run step inp' s t = (Clocked.run step inp s t).withData d1 d2 := by
  intro h
  have hagree : AgreeOn 0 1 0 := by unfold AgreeOn; decide
  obtain ⟨d1, d2, hthree⟩ := h twoEngines (reset fun _ => default) (controlWrite 0 1) (controlWrite 0 0) (.init ⟨_, rfl⟩)
    (sameRequests_control 0 1 0 _) (by decide) hagree 3
  have hpulse := congrArg (fun s : MinerAxi twoEngines => s.core.startPulseQ) hthree
  have hblank : (Clocked.run step (controlWrite 0 0) (reset fun _ => default : MinerAxi twoEngines) 3).core.startPulseQ =
    false := by decide
  have hstart : (Clocked.run step (controlWrite 0 1) (reset fun _ => default : MinerAxi twoEngines) 3).core.startPulseQ =
    true := by decide
  exact Bool.false_ne_true (hblank.symm.trans (hpulse.trans hstart))

end MinerAxi

end Vek280Miner.Rtl
