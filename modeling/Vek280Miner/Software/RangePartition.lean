import Mathlib.Algebra.BigOperators.Fin
import Mathlib.Data.List.Nodup
import Vek280Miner.Rtl.StartWrite
import Vek280Miner.Software.ProgramJob

/-!
# The partition of the nonce range

`miner_start_range` cuts a range into consecutive parts, one for each instance, and an instance deals its part out to
its engines in strides. The parts of the instances follow one another without gaps (`flatMap_segment`), and the shares
of the engines are the part of their instance in another order (`instanceNonces_perm`). So the nonces that all engines
scan are the nonces of the range, each of them once (`range_partition`), also when the range wraps around.
-/

namespace Vek280Miner.Sw

open Rtl

/-! ## What the engines scan -/

/-- `NONCE_START` and `NONCE_COUNT` after some writes. -/
def rangeRegs (old : Word × Word) (l : List Write) : Word × Word :=
  l.foldl (fun r w => match w.sel with
    | .nonceStart => (applyWstrb r.1 w.data w.strb, r.2)
    | .nonceCount => (r.1, applyWstrb r.2 w.data w.strb)
    | _ => r) old

/-- The range registers of instance `k` after `miner_start_range`. -/
def rangeOf {K : Nat} (old : Fin K → Word × Word) (nonceStart nonceCount : Word) (k : Fin K) : Word × Word :=
  rangeRegs (old k) (writesTo k (minerStartRange nonceStart nonceCount))

/-- The nonces that engine `e` of an instance scans. -/
def engineNonces (cfg : MinerCfg) (range : Word × Word) (e : Fin cfg.numEngines) : List Word :=
  (List.range (share cfg range.2 e).toNat).map (scanNonce cfg.engine (range.1 + BitVec.ofNat 32 e))

/-- The nonces that the engines of an instance scan. -/
def instanceNonces (cfg : MinerCfg) (range : Word × Word) : List Word :=
  (List.finRange cfg.numEngines).flatMap (engineNonces cfg range)

/-- The nonces that all engines scan. -/
def scannedNonces (host : HostCfg) (cfg : MinerCfg) (old : Fin host.instances → Word × Word) (nonceStart nonceCount : Word) :
    List Word :=
  (List.finRange host.instances).flatMap fun k => instanceNonces cfg (rangeOf old nonceStart nonceCount k)

/-- The nonces of a range in order. -/
def segment (range : Word × Word) : List Word := (List.range range.2.toNat).map fun i => range.1 + BitVec.ofNat 32 i

theorem nodup_segment (range : Word × Word) : (segment range).Nodup := by
  refine (List.nodup_map_iff_inj_on List.nodup_range).2 fun x hx y hy hxy => ?_
  have hlt := range.2.isLt
  have hx := List.mem_range.1 hx
  have hy := List.mem_range.1 hy
  have hof : BitVec.ofNat 32 x = BitVec.ofNat 32 y := (BitVec.add_right_inj _).1 hxy
  have hnat := congrArg BitVec.toNat hof
  rw [BitVec.toNat_ofNat, BitVec.toNat_ofNat, Nat.mod_eq_of_lt (by omega), Nat.mod_eq_of_lt (by omega)] at hnat
  exact hnat

/-- Two ranges of which one follows the other. -/
theorem segment_append (start count : Word) (n : Nat) :
    segment (start, count) ++ (List.range n).map (fun i => start + count + BitVec.ofNat 32 i) =
      (List.range (count.toNat + n)).map fun i => start + BitVec.ofNat 32 i := by
  rw [segment, List.range_add, List.map_append, List.map_map]
  congr 1
  refine List.map_congr_left fun i _ => ?_
  show start + count + BitVec.ofNat 32 i = start + BitVec.ofNat 32 (count.toNat + i)
  rw [BitVec.ofNat_add, BitVec.ofNat_toNat, BitVec.setWidth_eq, BitVec.add_assoc]

/-! ## The engines of an instance -/

/-- The indices that the engines get are the indices of the range. -/
theorem indices_perm (cfg : MinerCfg) (count : Word) :
    ((List.finRange cfg.numEngines).flatMap fun e =>
      (List.range (share cfg count e).toNat).map fun j => e.val + j * cfg.numEngines).Perm (List.range count.toNat) := by
  have hN := cfg.numEngines_pos
  have hmod : ∀ (e : Fin cfg.numEngines) (j : Nat), (e.val + j * cfg.numEngines) % cfg.numEngines = e := by
    intro e j
    rw [Nat.add_mul_mod_self_right, Nat.mod_eq_of_lt e.isLt]
  refine (List.perm_ext_iff_of_nodup (List.nodup_flatMap.2 ⟨fun e _ => ?_, ?_⟩) List.nodup_range).2 fun k => ?_
  · refine (List.nodup_map_iff_inj_on List.nodup_range).2 fun i _ j _ hij => ?_
    exact Nat.eq_of_mul_eq_mul_right hN (Nat.add_left_cancel hij)
  · -- different engines have different remainders
    refine (List.nodup_finRange _).imp fun {e e'} hne => ?_
    intro x hx hx'
    obtain ⟨j, -, rfl⟩ := List.mem_map.1 hx
    obtain ⟨j', -, hj'⟩ := List.mem_map.1 hx'
    exact hne (Fin.ext (by rw [← hmod e j, ← hj', hmod]))
  · simp only [List.mem_flatMap, List.mem_map, List.mem_range, List.mem_finRange, true_and]
    constructor
    · rintro ⟨e, j, hj, rfl⟩
      exact share_index_lt hj
    · intro hk
      obtain ⟨e, j, hj, rfl⟩ := exists_share_index cfg hk
      exact ⟨e, j, hj, rfl⟩

/-- The engines of an instance scan its range. -/
theorem instanceNonces_perm (cfg : MinerCfg) (range : Word × Word) : (instanceNonces cfg range).Perm (segment range) := by
  have h := (indices_perm cfg range.2).map fun i => range.1 + BitVec.ofNat 32 i
  rw [List.map_flatMap] at h
  simp only [List.map_map, Function.comp_def] at h
  have he : engineNonces cfg range = fun e => (List.range (share cfg range.2 e).toNat).map fun j =>
      range.1 + BitVec.ofNat 32 (e.val + j * cfg.numEngines) := by
    funext e
    exact List.map_congr_left fun j _ => scanNonce_engine _ _ _
  rwa [instanceNonces, he]

/-- The shares of the engines make up the range. -/
theorem sum_share (cfg : MinerCfg) (count : Word) : ∑ e, (share cfg count e).toNat = count.toNat := by
  have h := (indices_perm cfg count).length_eq
  simp only [List.length_flatMap, List.length_map, List.length_range] at h
  rw [← List.sum_ofFn, ← h, List.ofFn_eq_map]

/-! ## The instances -/

section Instances

variable {K : Nat} (old : Fin K → Word × Word)

/-- What a start leaves in the range registers. -/
theorem rangeRegs_startInstance (r : Word × Word) (start count : Word) (k : Fin K) :
    rangeRegs r ((startInstance start count k).map RegWrite.write) = (start, count) := by
  have h1 : writeSel minerRegNonceStart = .nonceStart := by decide
  have h2 : writeSel minerRegNonceCount = .nonceCount := by decide
  have h3 : writeSel minerRegControl = .control := by decide
  simp only [startInstance, List.map_cons, List.map_nil, RegWrite.write, rangeRegs, List.foldl_cons, List.foldl_nil, h1, h2,
    h3, applyWstrb_full]

theorem writesTo_startInstance (start count : Word) (k k' : Fin K) :
    writesTo k (startInstance start count k') = if k' = k then (startInstance start count k').map RegWrite.write else [] := by
  by_cases h : k' = k <;> simp [writesTo, startInstance, h]

theorem writesTo_startRangeLoop_of_not_mem (baseCount remainder : Word) {k : Fin K} {insts : List (Fin K)}
    (h : k ∉ insts) (start : Word) : writesTo k (startRangeLoop baseCount remainder insts start) = [] := by
  induction insts generalizing start with
  | nil => rfl
  | cons i insts ih =>
    obtain ⟨hi, hn⟩ := List.ne_and_not_mem_of_not_mem_cons h
    rw [startRangeLoop, writesTo_append, writesTo_startInstance, if_neg (Ne.symm hi), List.nil_append, ih hn]

/-- The number of nonces of instance `k`. -/
def instanceCount (baseCount remainder : Word) (k : Fin K) : Word :=
  baseCount + if BitVec.ofNat 32 k < remainder then 1 else 0

theorem rangeRegs_loop_cons {baseCount remainder start : Word} {i : Fin K} {insts : List (Fin K)} (hi : i ∉ insts)
    (r : Word × Word) :
    rangeRegs r (writesTo i (startRangeLoop baseCount remainder (i :: insts) start)) =
      (start, instanceCount baseCount remainder i) := by
  rw [startRangeLoop, writesTo_append, writesTo_startInstance, if_pos rfl, writesTo_startRangeLoop_of_not_mem _ _ hi,
    List.append_nil]
  exact rangeRegs_startInstance r _ _ _

theorem writesTo_loop_cons {baseCount remainder start : Word} {i k : Fin K} {insts : List (Fin K)} (h : i ≠ k) :
    writesTo k (startRangeLoop baseCount remainder (i :: insts) start) =
      writesTo k (startRangeLoop baseCount remainder insts (start + instanceCount baseCount remainder i)) := by
  rw [startRangeLoop, writesTo_append, writesTo_startInstance, if_neg h]
  rfl

/-- The parts of the instances follow one another. -/
theorem flatMap_segment (baseCount remainder : Word) : ∀ {insts : List (Fin K)}, insts.Nodup → ∀ start : Word,
    (insts.flatMap fun k => segment (rangeRegs (old k) (writesTo k (startRangeLoop baseCount remainder insts start)))) =
      (List.range (insts.map fun k => (instanceCount baseCount remainder k).toNat).sum).map fun i => start + BitVec.ofNat 32 i
  | [], _, _ => rfl
  | i :: insts, hn, start => by
    obtain ⟨hi, hn⟩ := List.nodup_cons.1 hn
    have hrest : ∀ k ∈ insts,
        segment (rangeRegs (old k) (writesTo k (startRangeLoop baseCount remainder (i :: insts) start))) =
          segment (rangeRegs (old k) (writesTo k
            (startRangeLoop baseCount remainder insts (start + instanceCount baseCount remainder i)))) := by
      intro k hk
      have hne : i ≠ k := fun hik => hi (hik ▸ hk)
      rw [writesTo_loop_cons hne]
    rw [List.flatMap_cons, rangeRegs_loop_cons hi, List.flatMap_congr hrest, flatMap_segment baseCount remainder hn,
      List.map_cons, List.sum_cons]
    exact segment_append _ _ _

/-- The counts in the range registers. -/
theorem rangeRegs_count (baseCount remainder : Word) {k : Fin K} : ∀ {insts : List (Fin K)}, insts.Nodup → k ∈ insts →
    ∀ start : Word, (rangeRegs (old k) (writesTo k (startRangeLoop baseCount remainder insts start))).2 =
      instanceCount baseCount remainder k
  | i :: insts, hn, hk, start => by
    obtain ⟨hi, hn⟩ := List.nodup_cons.1 hn
    by_cases hik : i = k
    · subst hik
      rw [rangeRegs_loop_cons hi]
    · rw [writesTo_loop_cons hik]
      exact rangeRegs_count baseCount remainder hn ((List.mem_cons.1 hk).resolve_left (Ne.symm hik)) _

end Instances

/-! ## The quotient and the remainder -/

/-- The counts of the instances do not wrap around. -/
theorem toNat_instanceCount {K : Nat} (hK : K < 2 ^ 32) (nonceCount : Word) (k : Fin K) :
    (instanceCount (nonceCount / BitVec.ofNat 32 K) (nonceCount % BitVec.ofNat 32 K) k).toNat =
      nonceCount.toNat / K + if k.val < nonceCount.toNat % K then 1 else 0 := by
  have hlt := nonceCount.isLt
  have hk := k.isLt
  have hKn : (BitVec.ofNat 32 K).toNat = K := by rw [BitVec.toNat_ofNat, Nat.mod_eq_of_lt hK]
  have hkn : (BitVec.ofNat 32 k.val).toNat = k.val := by rw [BitVec.toNat_ofNat, Nat.mod_eq_of_lt (by omega)]
  have hdiv : (nonceCount / BitVec.ofNat 32 K).toNat = nonceCount.toNat / K := by rw [BitVec.toNat_udiv, hKn]
  have hcond : BitVec.ofNat 32 k.val < nonceCount % BitVec.ofNat 32 K ↔ k.val < nonceCount.toNat % K := by
    rw [BitVec.lt_def, BitVec.toNat_umod, hKn, hkn]
  have hdm := Nat.div_add_mod nonceCount.toNat K
  have hle : nonceCount.toNat / K ≤ K * (nonceCount.toNat / K) := Nat.le_mul_of_pos_left _ (by omega)
  unfold instanceCount
  by_cases h : k.val < nonceCount.toNat % K
  · rw [if_pos (hcond.2 h), if_pos h, BitVec.toNat_add, hdiv, show (1 : Word).toNat = 1 from rfl, Nat.mod_eq_of_lt (by omega)]
  · rw [if_neg (fun hc => h (hcond.1 hc)), if_neg h, BitVec.toNat_add, hdiv, show (0 : Word).toNat = 0 from rfl,
      Nat.mod_eq_of_lt (by omega)]

/-- The instances share the range. -/
theorem sum_instanceCount {K : Nat} (hpos : 0 < K) (hK : K < 2 ^ 32) (nonceCount : Word) :
    ∑ k : Fin K, (instanceCount (nonceCount / BitVec.ofNat 32 K) (nonceCount % BitVec.ofNat 32 K) k).toNat =
      nonceCount.toNat := by
  have hmod := Nat.mod_lt nonceCount.toNat hpos
  have hdm := Nat.div_add_mod nonceCount.toNat K
  simp only [toNat_instanceCount hK]
  rw [Finset.sum_add_distrib, Finset.sum_const, Finset.card_univ, Fintype.card_fin, smul_eq_mul, Finset.sum_boole,
    Fin.card_filter_val_lt, Nat.min_eq_right hmod.le]
  exact hdm

/-! ## The partition -/

section Partition

variable (host : HostCfg) (cfg : MinerCfg) (old : Fin host.instances → Word × Word) (nonceStart nonceCount : Word)

theorem rangeOf_count (k : Fin host.instances) : (rangeOf old nonceStart nonceCount k).2 =
    instanceCount (nonceCount / BitVec.ofNat 32 host.instances) (nonceCount % BitVec.ofNat 32 host.instances) k :=
  rangeRegs_count old _ _ (List.nodup_finRange _) (List.mem_finRange k) _

theorem sum_rangeOf : ∑ k, (rangeOf old nonceStart nonceCount k).2.toNat = nonceCount.toNat := by
  simp only [rangeOf_count]
  exact sum_instanceCount host.instances_pos host.instances_lt nonceCount

/-- The nonces of all instances are the nonces of the range. -/
theorem scannedNonces_perm :
    (scannedNonces host cfg old nonceStart nonceCount).Perm (segment (nonceStart, nonceCount)) := by
  have hparts := flatMap_segment old (nonceCount / BitVec.ofNat 32 host.instances)
    (nonceCount % BitVec.ofNat 32 host.instances) (List.nodup_finRange _) nonceStart
  rw [← List.ofFn_eq_map, List.sum_ofFn, sum_instanceCount host.instances_pos host.instances_lt] at hparts
  have hperm := List.Perm.flatMap (List.Perm.refl (List.finRange host.instances))
    fun k _ => instanceNonces_perm cfg (rangeOf old nonceStart nonceCount k)
  exact hperm.trans (.of_eq hparts)

/-- **Partition.** The engines of all instances together scan every nonce of the range once and no other; neither
subtraction of `engine_work_count` wraps around; and the counts of the engines and of the instances add up. -/
theorem range_partition :
    (scannedNonces host cfg old nonceStart nonceCount).Perm
        ((List.range nonceCount.toNat).map fun i => nonceStart + BitVec.ofNat 32 i) ∧
      (scannedNonces host cfg old nonceStart nonceCount).Nodup ∧
      (∀ k (e : Fin cfg.numEngines), BitVec.ofNat 32 e < (rangeOf old nonceStart nonceCount k).2 →
        BitVec.usubOverflow (rangeOf old nonceStart nonceCount k).2 1 = false ∧
        BitVec.usubOverflow ((rangeOf old nonceStart nonceCount k).2 - 1) (BitVec.ofNat 32 e) = false) ∧
      (∀ k, ∑ e, (share cfg (rangeOf old nonceStart nonceCount k).2 e).toNat =
        (rangeOf old nonceStart nonceCount k).2.toNat) ∧
      ∑ k, (rangeOf old nonceStart nonceCount k).2.toNat = nonceCount.toNat := by
  have hperm := scannedNonces_perm host cfg old nonceStart nonceCount
  refine ⟨hperm, hperm.nodup_iff.2 (nodup_segment _), fun k e he => ?_, fun k => sum_share cfg _,
    sum_rangeOf host old nonceStart nonceCount⟩
  generalize (rangeOf old nonceStart nonceCount k).2 = count at he ⊢
  have hlt := count.isLt
  rw [BitVec.lt_def] at he
  have hsub : (count - 1).toNat = count.toNat - 1 := by
    rw [BitVec.toNat_sub, show (1 : Word).toNat = 1 from rfl]
    omega
  refine ⟨?_, ?_⟩
  · simp only [BitVec.usubOverflow, show (1 : Word).toNat = 1 from rfl, decide_eq_false_iff_not]
    omega
  · simp only [BitVec.usubOverflow, hsub, decide_eq_false_iff_not]
    omega

end Partition

end Vek280Miner.Sw
