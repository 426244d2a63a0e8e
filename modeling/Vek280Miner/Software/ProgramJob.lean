import Vek280Miner.Software.MinerRegs

/-!
# What programming a job does to an instance

The worker writes all job registers of all instances and then starts one instance after the other. Seen from one
instance these are twenty writes that leave the job's midstate, tail and target in its registers, the two range
registers, and the start (`writesTo_program`). `Programs J l j` says of pending writes `l` that they end in a start and
bring job registers `j` to the job `J` before it.
-/

namespace Vek280Miner.Sw

open Rtl

variable {K : Nat}

/-- The writes of a list that go to one instance. -/
def writesTo (k : Fin K) (l : List (RegWrite K)) : List Write := (l.filter (·.inst = k)).map RegWrite.write

@[simp] theorem writesTo_nil (k : Fin K) : writesTo k [] = [] := rfl

theorem writesTo_cons_self (w : RegWrite K) (l : List (RegWrite K)) :
    writesTo w.inst (w :: l) = w.write :: writesTo w.inst l := by simp [writesTo]

theorem writesTo_cons_of_ne {k : Fin K} {w : RegWrite K} (h : w.inst ≠ k) (l : List (RegWrite K)) :
    writesTo k (w :: l) = writesTo k l := by simp [writesTo, h]

theorem writesTo_append (k : Fin K) (l l' : List (RegWrite K)) : writesTo k (l ++ l') = writesTo k l ++ writesTo k l' := by
  simp [writesTo]

/-- A loop over instances whose body writes to its own instance only. -/
theorem writesTo_flatMap {f : Fin K → List (RegWrite K)} (hf : ∀ i, ∀ w ∈ f i, w.inst = i) (k : Fin K) :
    ∀ {insts : List (Fin K)}, insts.Nodup →
      writesTo k (insts.flatMap f) = if k ∈ insts then (f k).map RegWrite.write else []
  | [], _ => rfl
  | i :: insts, hn => by
    rw [List.flatMap_cons, writesTo_append, writesTo_flatMap hf k (List.nodup_cons.1 hn).2]
    by_cases hk : i = k
    · subst hk
      have hself : (f i).filter (·.inst = i) = f i := List.filter_eq_self.2 fun w hw => by simp [hf i w hw]
      simp [writesTo, hself, (List.nodup_cons.1 hn).1]
    · have hnone : (f i).filter (·.inst = k) = [] := List.filter_eq_nil_iff.2 fun w hw => by simp [hf i w hw, hk]
      simp [writesTo, hnone, List.mem_cons, Ne.symm hk]

/-! ## The job registers -/

/-- A whole word is written. -/
theorem applyWstrb_full (old new : Word) : applyWstrb old new 0xf = new := ofBe_byteAt new

theorem writeSel_midstate (i : Fin 8) : writeSel (wordOffset minerRegMidstate0 i) = .midstate i := by
  revert i
  decide

theorem writeSel_target (i : Fin 8) : writeSel (wordOffset minerRegTarget0 i) = .target i := by
  revert i
  decide

theorem writeSel_headerTail (i : Fin 4) : writeSel (wordOffset minerRegHeaderTail0 i) = .tail i := by
  revert i
  decide

section Registers

variable (midstate : Words 8) (headerTail : Words 4) (target : Words 8)

/-- The writes of the first loop of `miner_program_job` for the words in `l`. -/
theorem foldl_midstate_target (inst : Fin K) : ∀ (l : List (Fin 8)) (j : Latched),
    ((l.flatMap fun i : Fin 8 => [(⟨inst, wordOffset minerRegMidstate0 i, midstate i⟩ : RegWrite K),
      ⟨inst, wordOffset minerRegTarget0 i, target i⟩]).map RegWrite.write).foldl Latched.write j =
    { j with
      midstate := fun i => if i ∈ l then midstate i else j.midstate i
      target := fun i => if i ∈ l then target i else j.target i }
  | [], j => by simp
  | i :: l, j => by
    simp only [List.flatMap_cons, List.map_append, List.foldl_append]
    rw [foldl_midstate_target inst l]
    simp only [RegWrite.write, writeSel_midstate, writeSel_target, Latched.write, writeWord, applyWstrb_full,
      List.map_cons, List.map_nil, List.foldl_cons, List.foldl_nil, List.mem_cons]
    congr 1 <;> funext x <;> by_cases hx : x = i <;> simp [hx]

/-- The writes of its second loop. -/
theorem foldl_headerTail (inst : Fin K) : ∀ (l : List (Fin 4)) (j : Latched),
    ((l.map fun i : Fin 4 => (⟨inst, wordOffset minerRegHeaderTail0 i, headerTail i⟩ : RegWrite K)).map RegWrite.write).foldl
      Latched.write j = { j with headerTail := fun i => if i ∈ l then headerTail i else j.headerTail i }
  | [], j => by simp
  | i :: l, j => by
    simp only [List.map_cons, List.foldl_cons]
    rw [foldl_headerTail inst l]
    simp only [RegWrite.write, writeSel_headerTail, Latched.write, writeWord, applyWstrb_full, List.mem_cons]
    congr 1
    funext x
    by_cases hx : x = i <;> simp [hx]

/-- **Programming a job.** The job registers hold the job, whatever they held before. -/
theorem foldl_programInstance (inst : Fin K) (j : Latched) :
    ((programInstance midstate headerTail target inst).map RegWrite.write).foldl Latched.write j =
      ⟨midstate, headerTail, target⟩ := by
  rw [programInstance, List.map_append, List.foldl_append, foldl_midstate_target, foldl_headerTail]
  simp

end Registers

/-! ## The writes to one instance -/

theorem writesTo_programJob (midstate : Words 8) (headerTail : Words 4) (target : Words 8) (k : Fin K) :
    writesTo k (minerProgramJob midstate headerTail target) =
      (programInstance midstate headerTail target k).map RegWrite.write := by
  rw [minerProgramJob, writesTo_flatMap _ k (List.nodup_finRange K)]
  · simp
  · intro i w hw
    simp only [programInstance, List.mem_append, List.mem_flatMap, List.mem_map, List.mem_cons, List.not_mem_nil,
      or_false] at hw
    rcases hw with ⟨x, -, rfl | rfl⟩ | ⟨x, -, rfl⟩ <;> rfl

theorem writesTo_startRangeLoop (baseCount remainder : Word) (k : Fin K) :
    ∀ {insts : List (Fin K)}, insts.Nodup → ∀ rangeStart, ∃ start count,
      writesTo k (startRangeLoop baseCount remainder insts rangeStart) =
        if k ∈ insts then (startInstance start count k).map RegWrite.write else []
  | [], _, _ => ⟨0, 0, rfl⟩
  | i :: insts, hn, rangeStart => by
    obtain ⟨hi, hn⟩ := List.nodup_cons.1 hn
    let rangeCount := baseCount + if BitVec.ofNat 32 i < remainder then 1 else 0
    obtain ⟨start, count, h⟩ := writesTo_startRangeLoop baseCount remainder k hn (rangeStart + rangeCount)
    rw [startRangeLoop, writesTo_append, h]
    by_cases hk : i = k
    · subst hk
      exact ⟨rangeStart, rangeCount, by simp [writesTo, startInstance, hi, rangeCount]⟩
    · exact ⟨start, count, by simp [writesTo, startInstance, hk, Ne.symm hk]⟩

/-- Pending writes that bring job registers `j` to `J` and then start. -/
structure Programs (J : Latched) (l : List Write) (j : Latched) : Prop where
  split : ∃ pre v, l = pre ++ [v] ∧ (∀ w ∈ pre, w.start = false) ∧ v.start = true ∧ pre.foldl Latched.write j = J

/-- The first of the pending writes. -/
theorem Programs.cons {J j : Latched} {w : Write} {l : List Write} (h : Programs J (w :: l) j) :
    (l = [] ∧ w.start = true ∧ j = J) ∨ (w.start = false ∧ Programs J l (j.write w)) := by
  obtain ⟨pre, v, hl, hpre, hv, hJ⟩ := h.split
  cases pre with
  | nil =>
    obtain ⟨rfl, rfl⟩ := List.cons_eq_cons.1 hl
    exact .inl ⟨rfl, hv, hJ⟩
  | cons w' pre =>
    obtain ⟨rfl, rfl⟩ := List.cons_eq_cons.1 hl
    exact .inr ⟨hpre w (by simp), ⟨pre, v, rfl, fun x hx => hpre x (by simp [hx]), hv, hJ⟩⟩

/-- Every write of a job's program goes to a job register. -/
theorem start_programInstance {midstate : Words 8} {headerTail : Words 4} {target : Words 8} {inst : Fin K}
    {w : RegWrite K} (h : w ∈ programInstance midstate headerTail target inst) : w.write.start = false := by
  simp only [programInstance, List.mem_append, List.mem_flatMap, List.mem_map, List.mem_cons, List.not_mem_nil,
    or_false] at h
  rcases h with ⟨x, -, rfl | rfl⟩ | ⟨x, -, rfl⟩
  · simp [RegWrite.write, writeSel_midstate, Write.start]
  · simp [RegWrite.write, writeSel_target, Write.start]
  · simp [RegWrite.write, writeSel_headerTail, Write.start]

/-- **The program of an instance.** Whatever its registers hold, the worker's writes bring them to the job and start. -/
theorem programs_writesTo (midstate : Words 8) (headerTail : Words 4) (target : Words 8) (nonceStart nonceCount : Word)
    (k : Fin K) (j : Latched) :
    Programs ⟨midstate, headerTail, target⟩
      (writesTo k (minerProgramJob midstate headerTail target ++ minerStartRange nonceStart nonceCount)) j := by
  obtain ⟨start, count, h⟩ := writesTo_startRangeLoop (nonceCount / BitVec.ofNat 32 K) (nonceCount % BitVec.ofNat 32 K) k
    (List.nodup_finRange K) nonceStart
  rw [writesTo_append, writesTo_programJob, minerStartRange, h, if_pos (List.mem_finRange k)]
  refine ⟨(programInstance midstate headerTail target k).map RegWrite.write ++
    [⟨.nonceStart, start, 0xf⟩, ⟨.nonceCount, count, 0xf⟩], ⟨.control, minerControlStart, 0xf⟩, ?_, ?_, by decide, ?_⟩
  · rw [List.append_assoc]
    rfl
  · intro w hw
    rcases List.mem_append.1 hw with hw | hw
    · obtain ⟨v, hv, rfl⟩ := List.mem_map.1 hw
      exact start_programInstance hv
    · simp only [List.mem_cons, List.not_mem_nil, or_false] at hw
      rcases hw with rfl | rfl <;> rfl
  · rw [List.foldl_append, foldl_programInstance]
    rfl

end Vek280Miner.Sw
