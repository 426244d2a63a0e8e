import Mathlib.Data.Nat.Log
import Vek280Miner.Lib.Clocked
import Vek280Miner.Rtl.ClusterFifo

/-!
# The result FIFO register by register

`ClusterFifo` has the memories, the pointers and the count of `bitcoin_result_cluster_fifo.sv` as a ring. In the source
the pointers have just the bits that the depth needs, one more for the count, and the constants they are compared with
are bits taken from the parameter. `FifoRegs` has these registers as they are; for every depth an edge of them is an
edge of the ring (`models_step`).
-/

namespace Vek280Miner.Rtl

/-- `PTR_WIDTH`. -/
def ptrWidth (fifoDepth : Nat) : Nat := if fifoDepth ≤ 2 then 1 else Nat.clog 2 fifoDepth

/-- The pointer after `p`: `FIFO_DEPTH[PTR_WIDTH-1:0] - 1` is the last one, also when those bits of the depth are zero.
-/
def nextPtr (fifoDepth : Nat) (p : BitVec (ptrWidth fifoDepth)) : BitVec (ptrWidth fifoDepth) :=
  if p = BitVec.ofNat _ fifoDepth - 1 then 0 else p + 1

/-- The `case` on `{do_push, do_pop}`. -/
def nextCount {w : Nat} (push pop : Bool) (count : BitVec w) : BitVec w :=
  match push, pop with
  | true, false => count + 1
  | false, true => count - 1
  | _, _ => count

/-- A memory read at a pointer. -/
def readMem {β : Type} [Inhabited β] {n w : Nat} (mem : Fin n → β) (p : BitVec w) : β :=
  if h : p.toNat < n then mem ⟨p.toNat, h⟩ else default

/-- A memory written at a pointer. -/
def writeMem {β : Type} {n w : Nat} (mem : Fin n → β) (p : BitVec w) (x : β) : Fin n → β :=
  fun q => if q.val = p.toNat then x else mem q

/-- The registers of `bitcoin_result_cluster_fifo`. -/
structure FifoRegs (α : Type) (cfg : FifoCfg) where
  engineIdMem : Fin cfg.fifoDepth → Word
  nonceMem : Fin cfg.fifoDepth → α
  wrPtrQ : BitVec (ptrWidth cfg.fifoDepth)
  rdPtrQ : BitVec (ptrWidth cfg.fifoDepth)
  countQ : BitVec (ptrWidth cfg.fifoDepth + 1)
  clearQ : Bool
  stage1ValidQ : Fin cfg.clusterSize → Bool
  stage1NonceQ : Fin cfg.clusterSize → α
  stage1OverflowQ : Bool
  stage2ValidQ : Bool
  stage2EngineIdQ : Word
  stage2NonceQ : α
  stage2OverflowQ : Bool
  overflowO : Bool

namespace FifoRegs

variable {α : Type} [Inhabited α] {cfg : FifoCfg}

def validO (r : FifoRegs α cfg) : Bool := r.countQ != 0

def engineIdO (r : FifoRegs α cfg) : Word := readMem r.engineIdMem r.rdPtrQ

def nonceO (r : FifoRegs α cfg) : α := readMem r.nonceMem r.rdPtrQ

def doPop (pop : Bool) (r : FifoRegs α cfg) : Bool := pop && r.countQ != 0

def doPush (pop : Bool) (r : FifoRegs α cfg) : Bool :=
  r.stage2ValidQ && (decide (r.countQ < BitVec.ofNat _ cfg.fifoDepth) || r.doPop pop)

/-- One clock edge out of reset. -/
def step (i : FifoIn α cfg.clusterSize) (r : FifoRegs α cfg) : FifoRegs α cfg :=
  if r.clearQ then
    { r with
      clearQ := i.clear
      wrPtrQ := 0
      rdPtrQ := 0
      countQ := 0
      overflowO := false
      stage1ValidQ := fun _ => false
      stage1OverflowQ := false
      stage2ValidQ := false
      stage2OverflowQ := false }
  else
    { clearQ := i.clear
      stage1ValidQ := i.engineValid
      stage1NonceQ := i.engineNonce
      stage1OverflowQ := decide (1 < validCount i.engineValid)
      stage2ValidQ := (hitIdx r.stage1ValidQ).isSome
      stage2OverflowQ := r.stage1OverflowQ || decide (1 < validCount r.stage1ValidQ)
      stage2EngineIdQ := (hitIdx r.stage1ValidQ).elim 0 (ClusterFifo.engineId cfg)
      stage2NonceQ := (hitIdx r.stage1ValidQ).elim default r.stage1NonceQ
      overflowO := r.overflowO || (r.stage2ValidQ && !r.doPush i.pop) || r.stage2OverflowQ
      engineIdMem := if r.doPush i.pop then writeMem r.engineIdMem r.wrPtrQ r.stage2EngineIdQ else r.engineIdMem
      nonceMem := if r.doPush i.pop then writeMem r.nonceMem r.wrPtrQ r.stage2NonceQ else r.nonceMem
      wrPtrQ := if r.doPush i.pop then nextPtr _ r.wrPtrQ else r.wrPtrQ
      rdPtrQ := if r.doPop i.pop then nextPtr _ r.rdPtrQ else r.rdPtrQ
      countQ := nextCount (r.doPush i.pop) (r.doPop i.pop) r.countQ }

/-- Reset. -/
def reset : FifoRegs α cfg where
  engineIdMem := fun _ => 0
  nonceMem := fun _ => default
  wrPtrQ := 0
  rdPtrQ := 0
  countQ := 0
  clearQ := false
  stage1ValidQ := fun _ => false
  stage1NonceQ := fun _ => default
  stage1OverflowQ := false
  stage2ValidQ := false
  stage2EngineIdQ := 0
  stage2NonceQ := default
  stage2OverflowQ := false
  overflowO := false

/-- The states of the FIFO under any inputs after reset. -/
def Reachable (r : FifoRegs α cfg) : Prop := Clocked.Reachable step (fun r => r = reset) r

end FifoRegs

/-! ## Widths -/

theorem ptrWidth_pos (n : Nat) : 0 < ptrWidth n := by
  unfold ptrWidth
  split
  · exact Nat.one_pos
  · exact Nat.clog_pos (by decide) (by omega)

theorem le_two_pow_ptrWidth (n : Nat) : n ≤ 2 ^ ptrWidth n := by
  unfold ptrWidth
  split
  · assumption
  · exact Nat.le_pow_clog (by decide) n

theorem lt_two_pow_succ_ptrWidth (n : Nat) : n < 2 ^ (ptrWidth n + 1) := by
  have hle := le_two_pow_ptrWidth n
  have hpos := Nat.two_pow_pos (ptrWidth n)
  rw [Nat.pow_succ]
  omega

/-- The last pointer. -/
theorem toNat_lastPtr {n : Nat} (hn : 0 < n) : (BitVec.ofNat (ptrWidth n) n - 1).toNat = n - 1 := by
  have hle := le_two_pow_ptrWidth n
  have hlast : BitVec.ofNat (ptrWidth n) n - 1 = BitVec.ofNat (ptrWidth n) (n - 1) := by
    obtain ⟨k, rfl⟩ := Nat.exists_eq_succ_of_ne_zero (Nat.ne_of_gt hn)
    rw [Nat.succ_eq_add_one, BitVec.ofNat_add]
    exact BitVec.add_sub_cancel _ _
  rw [hlast, BitVec.toNat_ofNat]
  exact Nat.mod_eq_of_lt (by omega)

/-- The pointers wrap at the depth, whether it is a power of two or not. -/
theorem toNat_nextPtr {n : Nat} {p : BitVec (ptrWidth n)} (hp : p.toNat < n) :
    (nextPtr n p).toNat = (p.toNat + 1) % n := by
  have hlast := toNat_lastPtr (Nat.zero_lt_of_lt hp)
  unfold nextPtr
  split
  · rename_i h
    rw [h, hlast, Nat.sub_add_cancel (by omega), Nat.mod_self]
    rfl
  · rename_i h
    have hne : p.toNat ≠ n - 1 := fun he => h (BitVec.eq_of_toNat_eq (he.trans hlast.symm))
    have hle := le_two_pow_ptrWidth n
    have hone : (1 : BitVec (ptrWidth n)).toNat = 1 := by
      simp [Nat.mod_eq_of_lt (Nat.one_lt_two_pow (Nat.ne_of_gt (ptrWidth_pos n)))]
    rw [BitVec.toNat_add, hone, Nat.mod_eq_of_lt (by omega), Nat.mod_eq_of_lt (by omega)]

/-! ## The ring behind the registers -/

/-- The registers hold what the ring holds. -/
structure Models {α : Type} {cfg : FifoCfg} (r : FifoRegs α cfg) (s : ClusterFifo α cfg) : Prop where
  mem : ∀ p, s.ring.mem p = (r.engineIdMem p, r.nonceMem p)
  rdPtr : r.rdPtrQ.toNat = s.ring.rdPtr
  wrPtr : r.wrPtrQ.toNat = s.ring.wrPtr
  count : r.countQ.toNat = s.ring.count
  clear : r.clearQ = s.clearQ
  stage1Valid : r.stage1ValidQ = s.stage1ValidQ
  stage1Nonce : r.stage1NonceQ = s.stage1NonceQ
  stage1Overflow : r.stage1OverflowQ = s.stage1OverflowQ
  stage2Valid : r.stage2ValidQ = s.stage2ValidQ
  stage2EngineId : r.stage2EngineIdQ = s.stage2EngineIdQ
  stage2Nonce : r.stage2NonceQ = s.stage2NonceQ
  stage2Overflow : r.stage2OverflowQ = s.stage2OverflowQ
  overflow : r.overflowO = s.overflowO

section Models

variable {α : Type} {cfg : FifoCfg} {r : FifoRegs α cfg} {s : ClusterFifo α cfg}

theorem Models.count_ne_zero (h : Models r s) : (r.countQ != 0) = (s.ring.count != 0) := by
  rw [← h.count, Bool.eq_iff_iff, bne_iff_ne, bne_iff_ne, ne_eq, BitVec.toNat_eq]
  rfl

theorem Models.validO (h : Models r s) : r.validO = s.validO := h.count_ne_zero

theorem Models.doPop (h : Models r s) (pop : Bool) : r.doPop pop = s.ring.doPop pop := by
  rw [FifoRegs.doPop, Ring.doPop, h.count_ne_zero]

theorem Models.doPush (h : Models r s) (pop : Bool) : r.doPush pop = s.ring.doPush s.stage2 pop := by
  have hlt : r.countQ < BitVec.ofNat _ cfg.fifoDepth ↔ s.ring.count < cfg.fifoDepth := by
    rw [BitVec.lt_def, h.count, BitVec.toNat_ofNat, Nat.mod_eq_of_lt (lt_two_pow_succ_ptrWidth _)]
  have hvalid : s.stage2.isSome = s.stage2ValidQ := by
    unfold ClusterFifo.stage2
    cases s.stage2ValidQ <;> rfl
  rw [FifoRegs.doPush, Ring.doPush, h.doPop, h.stage2Valid, hvalid]
  simp only [hlt]

theorem Models.write (h : Models r s) {β : Type} (mem : Fin cfg.fifoDepth → β) (x : β) :
    writeMem mem r.wrPtrQ x = Function.update mem s.ring.wrPtr x := by
  funext q
  rw [writeMem, Function.update_apply, h.wrPtr]
  simp only [Fin.ext_iff]

/-- The memories after an edge without a clear. -/
theorem Models.mem_update (h : Models r s) (pop : Bool) (p : Fin cfg.fifoDepth) :
    (s.ring.update s.stage2 pop).mem p =
      ((if r.doPush pop then writeMem r.engineIdMem r.wrPtrQ r.stage2EngineIdQ else r.engineIdMem) p,
        (if r.doPush pop then writeMem r.nonceMem r.wrPtrQ r.stage2NonceQ else r.nonceMem) p) := by
  rw [h.doPush, h.write, h.write]
  cases hpush : s.ring.doPush s.stage2 pop with
  | false =>
    have hmem : (s.ring.update s.stage2 pop).mem = s.ring.mem := by
      cases h2 : s.stage2 <;> simp [Ring.update, ← h2, hpush]
    rw [hmem, h.mem]
    rfl
  | true =>
    have hsome : s.stage2.isSome = true := (Bool.and_eq_true_iff.1 hpush).1
    have h2 : s.stage2 = some (r.stage2EngineIdQ, r.stage2NonceQ) := by
      unfold ClusterFifo.stage2 at hsome ⊢
      split
      · rw [h.stage2EngineId, h.stage2Nonce]
      · rename_i hv
        rw [if_neg hv] at hsome
        cases hsome
    have hmem : (s.ring.update s.stage2 pop).mem =
        Function.update s.ring.mem s.ring.wrPtr (r.stage2EngineIdQ, r.stage2NonceQ) := by
      rw [h2] at hpush ⊢
      simp [Ring.update, hpush]
    rw [hmem, if_pos rfl, if_pos rfl, Function.update_apply, Function.update_apply, Function.update_apply, h.mem]
    split <;> rfl

theorem toNat_nextPtr_slot {n : Nat} {p : BitVec (ptrWidth n)} {q : Fin n} (hp : p.toNat = q) :
    (nextPtr n p).toNat = (nextSlot q).val := by
  rw [toNat_nextPtr (by rw [hp]; exact q.isLt), val_nextSlot, hp]

/-- The count after an edge without a clear. -/
theorem Models.count_update (h : Models r s) (pop : Bool) :
    (nextCount (r.doPush pop) (r.doPop pop) r.countQ).toNat = (s.ring.update s.stage2 pop).count := by
  have hle := s.ring.count_le
  have hone : (1 : BitVec (ptrWidth cfg.fifoDepth + 1)).toNat = 1 := by simp
  have hwidth := lt_two_pow_succ_ptrWidth cfg.fifoDepth
  show _ = if s.ring.doPush s.stage2 pop && !s.ring.doPop pop then s.ring.count + 1
    else if !s.ring.doPush s.stage2 pop && s.ring.doPop pop then s.ring.count - 1 else s.ring.count
  rw [← h.doPush, ← h.doPop]
  cases hpush : r.doPush pop with
  | true =>
    cases hpop : r.doPop pop with
    | true => exact h.count
    | false =>
      have hlt : s.ring.count < cfg.fifoDepth := by
        have hroom := hpush
        rw [h.doPush, Ring.doPush, ← h.doPop, hpop] at hroom
        simpa using (Bool.and_eq_true_iff.1 hroom).2
      show (r.countQ + 1).toNat = s.ring.count + 1
      rw [BitVec.toNat_add, hone, h.count, Nat.mod_eq_of_lt (by omega)]
  | false =>
    cases hpop : r.doPop pop with
    | false => exact h.count
    | true =>
      have hne : s.ring.count ≠ 0 := by
        have hany := hpop
        rw [h.doPop, Ring.doPop] at hany
        simpa using (Bool.and_eq_true_iff.1 hany).2
      have hge : (1 : BitVec (ptrWidth cfg.fifoDepth + 1)) ≤ r.countQ := by
        rw [BitVec.le_def, hone, h.count]
        omega
      show (r.countQ - 1).toNat = s.ring.count - 1
      rw [BitVec.toNat_sub_of_le hge, hone, h.count]

variable [Inhabited α]

/-- The outputs are the entry at the read pointer. -/
theorem Models.outputs (h : Models r s) : (r.engineIdO, r.nonceO) = s.ring.head := by
  have hrd : r.rdPtrQ.toNat < cfg.fifoDepth := by
    rw [h.rdPtr]
    exact s.ring.rdPtr.isLt
  have hptr : (⟨r.rdPtrQ.toNat, hrd⟩ : Fin cfg.fifoDepth) = s.ring.rdPtr := Fin.ext h.rdPtr
  rw [Ring.head, h.mem, FifoRegs.engineIdO, FifoRegs.nonceO, readMem, readMem, dif_pos hrd, dif_pos hrd, hptr]

theorem models_reset (h : 0 < cfg.fifoDepth) : Models (FifoRegs.reset : FifoRegs α cfg) (ClusterFifo.reset h) := by
  constructor <;> intros <;> rfl

/-- **One edge.** The registers go on holding what the ring holds. -/
theorem models_step (h : Models r s) (i : FifoIn α cfg.clusterSize) : Models (r.step i) (s.step i) := by
  unfold FifoRegs.step ClusterFifo.step
  rw [h.clear]
  split
  · exact { h with
      rdPtr := rfl
      wrPtr := rfl
      count := rfl
      clear := rfl
      stage1Valid := rfl
      stage1Overflow := rfl
      stage2Valid := rfl
      stage2Overflow := rfl
      overflow := rfl }
  · constructor
    case mem => exact h.mem_update i.pop
    case rdPtr =>
      show (if r.doPop i.pop then nextPtr _ r.rdPtrQ else r.rdPtrQ).toNat =
        (if s.ring.doPop i.pop then nextSlot s.ring.rdPtr else s.ring.rdPtr).val
      rw [h.doPop]
      split
      · exact toNat_nextPtr_slot h.rdPtr
      · exact h.rdPtr
    case wrPtr =>
      show (if r.doPush i.pop then nextPtr _ r.wrPtrQ else r.wrPtrQ).toNat =
        (if s.ring.doPush s.stage2 i.pop then nextSlot s.ring.wrPtr else s.ring.wrPtr).val
      rw [h.doPush]
      split
      · exact toNat_nextPtr_slot h.wrPtr
      · exact h.wrPtr
    case count => exact h.count_update i.pop
    case overflow => simp only [h.overflow, h.stage2Valid, h.doPush, h.stage2Overflow]
    all_goals simp only [h.stage1Valid, h.stage1Nonce, h.stage1Overflow]

/-- **A run.** The registers hold what the ring holds, whatever comes in. -/
theorem models_run (h : Models r s) (inp : Nat → FifoIn α cfg.clusterSize) :
    ∀ n, Models (Clocked.run FifoRegs.step inp r n) (Clocked.run ClusterFifo.step inp s n)
  | 0 => h
  | n + 1 => models_step (models_run h inp n) (inp n)

end Models

end Vek280Miner.Rtl
