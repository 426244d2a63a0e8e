import Vek280Miner.Rtl.BusTransfers
import Vek280Miner.Rtl.StopWrite
import Vek280Miner.Software.ProgramJob

/-!
# The job registers behind the bus

The driver's writes reach an instance as requests of its bus master. Since the bus takes them one after the other and
whole (`Rtl.MinerAxi.RefinesRegFile`), the engines see the job that `miner_program_job` was called with, however the
requests and responses were delayed on the way.
-/

namespace Vek280Miner.Sw

open Rtl

/-- The request that `miner_write_reg_instance` makes of its instance. -/
def RegWrite.req {K : Nat} (w : RegWrite K) : WriteReq := ⟨w.offset, w.value, 0xf⟩

/-- The requests of a list of writes to one instance. -/
def requestsTo {K : Nat} (k : Fin K) (l : List (RegWrite K)) : List WriteReq := (l.filter (·.inst = k)).map RegWrite.req

theorem wordAddr_wordOffset (i : Fin 8) :
    wordAddr (wordOffset minerRegMidstate0 i) = wordOffset minerRegMidstate0 i ∧
      wordAddr (wordOffset minerRegTarget0 i) = wordOffset minerRegTarget0 i := by
  revert i
  decide

theorem wordAddr_headerTail (i : Fin 4) :
    wordAddr (wordOffset minerRegHeaderTail0 i) = wordOffset minerRegHeaderTail0 i := by
  revert i
  decide

section Program

variable {K : Nat} (midstate : Words 8) (headerTail : Words 4) (target : Words 8)

/-- The driver uses word addresses. -/
theorem decode_req {inst : Fin K} {w : RegWrite K} (hw : w ∈ programInstance midstate headerTail target inst) :
    w.req.decode = w.write := by
  simp only [programInstance, List.mem_append, List.mem_flatMap, List.mem_map, List.mem_cons, List.not_mem_nil,
    or_false] at hw
  rcases hw with ⟨x, -, rfl | rfl⟩ | ⟨x, -, rfl⟩
  · simp only [RegWrite.req, WriteReq.decode, RegWrite.write, wordAddr_wordOffset]
  · simp only [RegWrite.req, WriteReq.decode, RegWrite.write, wordAddr_wordOffset]
  · simp only [RegWrite.req, WriteReq.decode, RegWrite.write, wordAddr_headerTail]

theorem decode_requestsTo (k : Fin K) :
    (requestsTo k (minerProgramJob midstate headerTail target)).map WriteReq.decode =
      (programInstance midstate headerTail target k).map RegWrite.write := by
  rw [← writesTo_programJob, requestsTo, writesTo, List.map_map]
  refine List.map_congr_left fun w hw => ?_
  obtain ⟨inst, -, hw⟩ := List.mem_flatMap.1 (List.mem_filter.1 hw).1
  exact decode_req _ _ _ hw

/-- Whatever was written before, and whatever is written to other registers after it. -/
theorem foldl_requests (k : Fin K) {pre post : List WriteReq}
    (hpost : ∀ r ∈ post, ∀ x : DataReg, wordAddr r.addr = x.addr → x.isJob = false) (j : Latched) :
    ((pre ++ requestsTo k (minerProgramJob midstate headerTail target) ++ post).map WriteReq.decode).foldl Latched.write j =
      ⟨midstate, headerTail, target⟩ := by
  rw [List.map_append, List.map_append, List.foldl_append, List.foldl_append, decode_requestsTo, foldl_programInstance]
  induction post with
  | nil => rfl
  | cons r post ih =>
    rw [List.map_cons, List.foldl_cons, WriteReq.decode_job (hpost r (List.mem_cons_self ..))]
    exact ih fun r' hr' => hpost r' (List.mem_cons_of_mem r hr')

end Program

/-- **Register file.** Under every compliant master the bus interface is an atomic register file; so once it has
accepted the writes of `miner_program_job` to this instance, and until one of those registers is written again, every
engine is given that job. -/
theorem bus_refines_register_file {cfg : MinerCfg} (engines : Fin cfg.numEngines → Engine) (inp : Nat → AxiIn)
    (h : MinerAxi.Compliant inp (MinerAxi.reset engines)) :
    MinerAxi.RefinesRegFile inp (MinerAxi.reset engines) ∧
      ∀ (K : Nat) (k : Fin K) (midstate : Words 8) (headerTail : Words 4) (target : Words 8) (n : Nat)
        (pre post : List WriteReq),
        Clocked.events MinerAxi.step MinerAxi.writeTaken inp (MinerAxi.reset engines) n =
          pre ++ requestsTo k (minerProgramJob midstate headerTail target) ++ post →
        (∀ r ∈ post, ∀ x : DataReg, wordAddr r.addr = x.addr → x.isJob = false) →
        ∀ e, ((Clocked.run MinerAxi.step inp (MinerAxi.reset engines) (n + 1)).core.engineIn e).job =
          ⟨midstate, headerTail, target⟩ := by
  refine ⟨MinerAxi.transfers_atomic h, ?_⟩
  intro K k midstate headerTail target n pre post hacc hpost e
  show (Clocked.run MinerAxi.step inp (MinerAxi.reset engines) (n + 1)).core.job = _
  rw [MinerAxi.job_run h, hacc]
  exact foldl_requests midstate headerTail target k hpost _

/-- A master that makes the requests of `l`, each held for two edges, reads the first word of the midstate alongside,
and takes every response at once. -/
def heldWrites (l : List WriteReq) (t : Nat) : AxiIn :=
  let valid := decide (t % 4 < 2) && decide (t / 4 < l.length)
  let r := l.getD (t / 4) ⟨0, 0, 0⟩
  ⟨r.addr, valid, r.data, r.strb, valid, true, 0x020, valid, true⟩

/-- It is compliant when every request is accepted at its second edge. -/
theorem compliant_heldWrites {cfg : MinerCfg} {l : List WriteReq} {s : MinerAxi cfg}
    (h : ∀ t, t / 4 < l.length → t % 4 = 1 → (Clocked.run MinerAxi.step (heldWrites l) s t).awready = true ∧
      (Clocked.run MinerAxi.step (heldWrites l) s t).wready = true ∧
      (Clocked.run MinerAxi.step (heldWrites l) s t).arready = true) : MinerAxi.Compliant (heldWrites l) s := by
  intro t
  by_cases ht : t % 4 = 0
  · have hdiv : (t + 1) / 4 = t / 4 := by omega
    have hmod : (t + 1) % 4 < 2 := by omega
    constructor <;> intro hv _ <;> simp_all [heldWrites]
  · have hready : (heldWrites l t).awvalid = true → (Clocked.run MinerAxi.step (heldWrites l) s t).awready = true ∧
        (Clocked.run MinerAxi.step (heldWrites l) s t).wready = true ∧
        (Clocked.run MinerAxi.step (heldWrites l) s t).arready = true := by
      intro hv
      simp only [heldWrites, Bool.and_eq_true, decide_eq_true_eq] at hv
      exact h t hv.2 (by omega)
    constructor <;> intro hv hr <;> simp [hready hv] at hr

/-- The job with the words `1`, `2`, ... -/
def countingJob : Latched where
  midstate := fun i => BitVec.ofNat 32 (i + 1)
  headerTail := fun i => BitVec.ofNat 32 (i + 9)
  target := fun i => BitVec.ofNat 32 (i + 13)

/-- The requests of the driver for it. -/
def countingRequests : List WriteReq :=
  requestsTo (0 : Fin 1) (minerProgramJob countingJob.midstate countingJob.headerTail countingJob.target)

theorem countingRequests_accepted :
    Clocked.events MinerAxi.step MinerAxi.writeTaken (heldWrites countingRequests)
        (MinerAxi.reset fun _ : Fin twoEngines.numEngines => default) 80 = countingRequests ∧
      countingRequests.length = 20 ∧
      ((List.range 80).all fun t =>
        let s := Clocked.run MinerAxi.step (heldWrites countingRequests)
          (MinerAxi.reset fun _ : Fin twoEngines.numEngines => default) t
        t % 4 != 1 || (s.awready && s.wready && s.arready)) = true := by
  decide +kernel

/-- A job programmed over a bus on which every write meets a read. -/
theorem counting_job_programmed :
    MinerAxi.RefinesRegFile (heldWrites countingRequests)
        (MinerAxi.reset fun _ : Fin twoEngines.numEngines => default) ∧
      ∀ e, ((Clocked.run MinerAxi.step (heldWrites countingRequests)
        (MinerAxi.reset fun _ : Fin twoEngines.numEngines => default) 81).core.engineIn e).job = countingJob := by
  obtain ⟨hacc, hlen, hready⟩ := countingRequests_accepted
  have hcompliant : MinerAxi.Compliant (heldWrites countingRequests)
      (MinerAxi.reset fun _ : Fin twoEngines.numEngines => default) := by
    refine compliant_heldWrites fun t ht hmod => ?_
    have h := List.all_eq_true.1 hready t (List.mem_range.2 (by omega))
    simpa [hmod, and_assoc] using h
  obtain ⟨hfile, hjob⟩ := bus_refines_register_file _ _ hcompliant
  exact ⟨hfile, hjob 1 0 _ _ _ 80 [] [] (by rw [hacc, List.nil_append, List.append_nil]; rfl) (fun r hr => by cases hr)⟩

end Vek280Miner.Sw
