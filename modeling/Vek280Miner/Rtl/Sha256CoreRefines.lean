import Vek280Miner.Lib.Clocked
import Vek280Miner.Rtl.Sha256Core
import Vek280Miner.Software.Sha256

/-!
# The core computes `sha256_compress`

`CoreAt cfg m h t p s` says what every register holds in phase `p` of round `t` of the compression of `m` from `h`; an
edge goes to the next phase (`step_phase`), from the last phase to the next round (`step_round`), and from the last
round to the digest (`step_last`), whatever the inputs are. So a start accepted by an idle core is followed, after
exactly `coreCycles cfg` edges, by one pulse of `done_o` with the compression of the accepted block (`coreAge_run`,
`coreAge_done`).
-/

namespace Vek280Miner.Rtl

open Sha256 (Vars sched vars temp1 temp2)

/-! ## The ring of schedule words -/

section Ring

variable {m : Words 16} {t : Nat} {wMem : BitVec 4 → Word}

theorem k_eq (ht : t < 64) : k (BitVec.ofNat 7 t) = Sw.roundConst t := by
  have h7 : (BitVec.ofNat 7 t).toNat = t := by rw [BitVec.toNat_ofNat]; omega
  rw [k, h7]
  rfl

theorem ofNat_lt_sixteen (ht : t < 64) : BitVec.ofNat 7 t < 16 ↔ t < 16 := by
  rw [BitVec.lt_def, BitVec.toNat_ofNat, Nat.mod_eq_of_lt (by omega)]
  rfl

theorem ofNat_eq_last (ht : t < 64) : BitVec.ofNat 7 t = 64 - 1 ↔ t = 63 := by
  constructor
  · intro h
    have h7 := congrArg BitVec.toNat h
    rw [BitVec.toNat_ofNat, Nat.mod_eq_of_lt (by omega)] at h7
    simpa using h7
  · rintro rfl
    rfl

theorem setWidth_ofNat : (BitVec.ofNat 7 t).setWidth 4 = BitVec.ofNat 4 t := by
  apply BitVec.eq_of_toNat_eq
  simp only [BitVec.toNat_setWidth, BitVec.toNat_ofNat]
  omega

/-- A slot behind the current one. -/
theorem ring_back (hr : ∀ j, j < max t 16 → t ≤ j + 16 → wMem (BitVec.ofNat 4 j) = sched m j) (ht : 16 ≤ t) {d : Nat}
    (hd : d ≤ 16) (hd1 : 1 ≤ d) : wMem ((BitVec.ofNat 7 t).setWidth 4 - BitVec.ofNat 4 d) = sched m (t - d) := by
  rw [← hr (t - d) (by omega) (by omega)]
  congr 1
  apply BitVec.eq_of_toNat_eq
  simp only [BitVec.toNat_sub, BitVec.toNat_setWidth, BitVec.toNat_ofNat]
  omega

/-- The word of a later round takes the place of the oldest. -/
theorem ring_advance (hr : ∀ j, j < max t 16 → t ≤ j + 16 → wMem (BitVec.ofNat 4 j) = sched m j) (ht : t < 64)
    {wNew : Word} (hnew : 16 ≤ t → wNew = sched m t) {j : Nat} (hj : j < max (t + 1) 16) (hj' : t + 1 ≤ j + 16) :
    (if 16 ≤ BitVec.ofNat 7 t then Function.update wMem ((BitVec.ofNat 7 t).setWidth 4) wNew else wMem)
      (BitVec.ofNat 4 j) = sched m j := by
  have h16 := ofNat_lt_sixteen ht
  by_cases hlt : t < 16
  · rw [if_neg (by rw [BitVec.not_le]; exact h16.2 hlt)]
    exact hr j (by omega) (by omega)
  · rw [if_pos (by rw [← BitVec.not_lt]; exact mt h16.1 hlt), setWidth_ofNat, hnew (by omega)]
    by_cases hjt : j = t
    · rw [hjt, Function.update_self]
    · rw [Function.update_of_ne, hr j (by omega) (by omega)]
      intro heq
      have h4 := congrArg BitVec.toNat heq
      simp only [BitVec.toNat_ofNat] at h4
      omega

end Ring

/-! ## What the registers hold during a compression -/

/-- Clock edges per round. -/
def phases (cfg : CoreCfg) : Nat := if cfg.fourPhase then 4 else 5

/-- The registers in phase `p` of round `t` of the compression of `m` from the chaining value `h`. -/
structure CoreAt (cfg : CoreCfg) (m : Words 16) (h : Words 8) (t p : Nat) (s : Sha256Core) : Prop where
  busy : s.busyQ = true
  done : s.doneO = false
  round : s.roundQ = BitVec.ofNat 7 t
  phase : s.phaseQ = BitVec.ofNat 3 p
  chain : s.hQ = h
  var : s.vQ = vars Sw.roundConst m h t
  ring : ∀ j, j < max t 16 → t ≤ j + 16 → s.wMem (BitVec.ofNat 4 j) = sched m j
  t2 : 1 ≤ p → s.t2Q = temp2 s.vQ
  t1a : 1 ≤ p → p ≤ 3 → s.t1AQ = s.vQ.h + Sha256.bigSigma1 s.vQ.e
  t1b : 1 ≤ p → p ≤ 3 → s.t1BQ = Sha256.ch s.vQ.e s.vQ.f s.vQ.g + Sw.roundConst t
  t1c : 1 ≤ p → p ≤ 3 → t < 16 → s.t1CQ = sched m t
  operands : p = 1 → 16 ≤ t → s.wS1Q = Sha256.smallSigma1 (sched m (t - 2)) ∧ s.wM7Q = sched m (t - 7) ∧
    s.wS0Q = Sha256.smallSigma0 (sched m (t - 15)) ∧ s.wM16Q = sched m (t - 16)
  sums : p = 2 → 16 ≤ t → s.wAbQ + s.wCdQ = sched m t
  new : 3 ≤ p → 16 ≤ t → s.wNewQ = sched m t
  t1 : p + 1 = phases cfg → s.t1Q = temp1 s.vQ (Sw.roundConst t) (sched m t)

section Rounds

variable {c : CoreCfg} {m : Words 16} {h : Words 8} {t p : Nat} {s : Sha256Core}

theorem wNewAdd_eq (c : CoreCfg) (s : Sha256Core) : s.wNewAdd c = s.wAbQ + s.wCdQ := by
  simp [Sha256Core.wNewAdd, dsp58Add32]

theorem t1TotalAdd_eq (c : CoreCfg) (s : Sha256Core) : s.t1TotalAdd c = s.t1AQ + s.t1BQ + s.t1WAdd c := by
  simp [Sha256Core.t1TotalAdd, Sha256Core.t1AbAdd, dsp58Add32]

theorem roundQ_lt_iff (hs : CoreAt c m h t p s) (ht : t < 64) : s.roundQ < 16 ↔ t < 16 := by
  rw [hs.round]
  exact ofNat_lt_sixteen ht

/-- A slot of the ring behind the current one. -/
theorem wMem_back (hs : CoreAt c m h t p s) (ht : 16 ≤ t) {d : Nat} (hd : d ≤ 16) (hd1 : 1 ≤ d) :
    s.wMem (s.wIdx - BitVec.ofNat 4 d) = sched m (t - d) := by
  rw [Sha256Core.wIdx, hs.round]
  exact ring_back hs.ring ht hd hd1

theorem step_busy (hb : s.busyQ = true) (i : CoreIn) : s.step c i =
    if s.phaseQ = 0 then
      { s with
        doneO := false
        t1AQ := s.vQ.h + bigSigma1 s.vQ.e
        t1BQ := ch s.vQ.e s.vQ.f s.vQ.g + k s.roundQ
        t1CQ := s.wMem s.wIdx
        t2Q := bigSigma0 s.vQ.a + maj s.vQ.a s.vQ.b s.vQ.c
        wS1Q := smallSigma1 (s.wMem (s.wIdx - 2))
        wM7Q := s.wMem (s.wIdx - 7)
        wS0Q := smallSigma0 (s.wMem (s.wIdx - 15))
        wM16Q := s.wMem (s.wIdx - 0)
        phaseQ := 1 }
    else if s.phaseQ = 1 then
      { s with doneO := false, wAbQ := s.wAbAdd c, wCdQ := s.wCdAdd c, phaseQ := 2 }
    else if s.phaseQ = 2 then
      { s with
        doneO := false, wNewQ := s.wNewAdd c, phaseQ := 3
        t1Q := if c.fourPhase then s.t1TotalAdd c else s.t1Q }
    else if s.phaseQ = 3 then
      if c.fourPhase then s.finishRound { s with doneO := false }
      else
        { s with
          doneO := false, phaseQ := 4
          t1Q := s.t1AQ + s.t1BQ + (if s.roundQ < 16 then s.t1CQ else s.wNewQ) }
    else s.finishRound { s with doneO := false } := by
  simp [Sha256Core.step, hb]

theorem step_phase0 (hs : CoreAt c m h t 0 s) (ht : t < 64) (i : CoreIn) : CoreAt c m h t 1 (s.step c i) := by
  have hp : s.phaseQ = 0 := hs.phase
  rw [step_busy hs.busy, if_pos hp]
  refine { hs with
    phase := rfl, done := rfl
    t2 := fun _ => rfl, t1a := fun _ _ => rfl, t1b := fun _ _ => ?_, t1c := fun _ _ h16 => ?_
    operands := fun _ h16 => ?_
    sums := fun h => by omega, new := fun h => by omega
    t1 := fun h => by unfold phases at h; split at h <;> omega }
  · show ch _ _ _ + k s.roundQ = _
    rw [hs.round, k_eq ht]
    rfl
  · show s.wMem s.wIdx = _
    rw [← hs.ring t (by omega) (by omega), Sha256Core.wIdx, hs.round, setWidth_ofNat]
  · have h2 := wMem_back hs h16 (d := 2) (by omega) (by omega)
    have h7 := wMem_back hs h16 (d := 7) (by omega) (by omega)
    have h15 := wMem_back hs h16 (d := 15) (by omega) (by omega)
    have hm := wMem_back hs h16 (d := 16) (by omega) (by omega)
    exact ⟨congrArg smallSigma1 h2, h7, congrArg smallSigma0 h15, hm⟩

theorem step_phase1 (hs : CoreAt c m h t 1 s) (i : CoreIn) : CoreAt c m h t 2 (s.step c i) := by
  have hp : s.phaseQ = 1 := hs.phase
  rw [step_busy hs.busy, if_neg (by rw [hp]; decide), if_pos hp]
  refine { hs with
    phase := rfl, done := rfl
    t2 := fun _ => hs.t2 (by omega), t1a := fun _ _ => hs.t1a (by omega) (by omega)
    t1b := fun _ _ => hs.t1b (by omega) (by omega), t1c := fun _ _ => hs.t1c (by omega) (by omega)
    operands := fun h => by omega
    sums := fun _ h16 => ?_, new := fun h => by omega
    t1 := fun h => by unfold phases at h; split at h <;> omega }
  obtain ⟨h1, h7, h0, h16'⟩ := hs.operands rfl h16
  show s.wAbAdd c + s.wCdAdd c = _
  simp only [Sha256Core.wAbAdd, Sha256Core.wCdAdd, dsp58Add32, ite_self, h1, h7, h0, h16', Sha256.sched_later m h16]
  ac_rfl

/-- The sum that either core forms for `T_1`. -/
theorem t1_sum (hs : CoreAt c m h t p s) (hp1 : 1 ≤ p) (hp3 : p ≤ 3) {w : Word} (hw : w = sched m t) :
    s.t1AQ + s.t1BQ + w = temp1 s.vQ (Sw.roundConst t) (sched m t) := by
  rw [hs.t1a hp1 hp3, hs.t1b hp1 hp3, hw, temp1]
  ac_rfl

theorem step_phase2 (hs : CoreAt c m h t 2 s) (ht : t < 64) (i : CoreIn) : CoreAt c m h t 3 (s.step c i) := by
  have hp : s.phaseQ = 2 := hs.phase
  rw [step_busy hs.busy, if_neg (by rw [hp]; decide), if_neg (by rw [hp]; decide), if_pos hp]
  refine { hs with
    phase := rfl, done := rfl
    t2 := fun _ => hs.t2 (by omega), t1a := fun _ _ => hs.t1a (by omega) (by omega)
    t1b := fun _ _ => hs.t1b (by omega) (by omega), t1c := fun _ _ => hs.t1c (by omega) (by omega)
    operands := fun h => by omega, sums := fun h => by omega
    new := fun _ h16 => (wNewAdd_eq c s).trans (hs.sums rfl h16)
    t1 := fun h => ?_ }
  have h4 : c.fourPhase = true := by unfold phases at h; split at h <;> [assumption; omega]
  show (if c.fourPhase then s.t1TotalAdd c else s.t1Q) = _
  rw [if_pos h4, t1TotalAdd_eq]
  apply t1_sum hs (by omega) (by omega)
  rw [Sha256Core.t1WAdd]
  split
  · rename_i h16
    exact hs.t1c (by omega) (by omega) ((roundQ_lt_iff hs ht).1 h16)
  · rename_i h16
    rw [wNewAdd_eq]
    exact hs.sums rfl (by have := mt (roundQ_lt_iff hs ht).2 h16; omega)

theorem step_phase3 (hs : CoreAt c m h t 3 s) (ht : t < 64) (h5 : c.fourPhase = false) (i : CoreIn) :
    CoreAt c m h t 4 (s.step c i) := by
  have hp : s.phaseQ = 3 := hs.phase
  rw [step_busy hs.busy, if_neg (by rw [hp]; decide), if_neg (by rw [hp]; decide), if_neg (by rw [hp]; decide),
    if_pos hp, if_neg (by simp [h5])]
  refine { hs with
    phase := rfl, done := rfl
    t2 := fun _ => hs.t2 (by omega), t1a := fun _ h => by omega, t1b := fun _ h => by omega
    t1c := fun _ h => by omega, operands := fun h => by omega, sums := fun h => by omega
    new := fun _ => hs.new (by omega), t1 := fun _ => ?_ }
  apply t1_sum hs (by omega) (by omega)
  split
  · rename_i h16
    exact hs.t1c (by omega) (by omega) ((roundQ_lt_iff hs ht).1 h16)
  · rename_i h16
    exact hs.new (by omega) (by have := mt (roundQ_lt_iff hs ht).2 h16; omega)

/-- Every phase but the last leads to the next, whatever the inputs are. -/
theorem step_phase (hs : CoreAt c m h t p s) (ht : t < 64) (hp : p + 1 < phases c) (i : CoreIn) :
    CoreAt c m h t (p + 1) (s.step c i) := by
  have h5 : p = 3 → c.fourPhase = false := by
    intro h3
    unfold phases at hp
    split at hp
    · omega
    · simpa using ‹¬ c.fourPhase = true›
  have hle : p ≤ 3 := by unfold phases at hp; split at hp <;> omega
  interval_cases p
  · exact step_phase0 hs ht i
  · exact step_phase1 hs i
  · exact step_phase2 hs ht i
  · exact step_phase3 hs ht (h5 rfl) i

theorem step_lastPhase (hs : CoreAt c m h t p s) (hp : p + 1 = phases c) (i : CoreIn) :
    s.step c i = s.finishRound { s with doneO := false } := by
  have hph := hs.phase
  rw [step_busy hs.busy]
  cases h4 : c.fourPhase with
  | true =>
    obtain rfl : p = 3 := by simp [phases, h4] at hp; omega
    simp [hph]
  | false =>
    obtain rfl : p = 4 := by simp [phases, h4] at hp; omega
    simp [hph]

theorem roundQ_last_iff (hs : CoreAt c m h t p s) (ht : t < 64) : s.roundQ = 64 - 1 ↔ t = 63 := by
  rw [hs.round]
  exact ofNat_eq_last ht

/-- The working variables that the last phase of a round stores. -/
theorem vars_next (hs : CoreAt c m h t p s) (hp : p + 1 = phases c) :
    (⟨s.aNext, s.vQ.a, s.vQ.b, s.vQ.c, s.eNext, s.vQ.e, s.vQ.f, s.vQ.g⟩ : Vars) =
      vars Sw.roundConst m h (t + 1) := by
  have h1 : 1 ≤ p := by unfold phases at hp; split at hp <;> omega
  rw [Sha256Core.aNext, Sha256Core.eNext, hs.t2 h1, hs.t1 hp, hs.var]
  rfl

/-- The ring after the last phase of a round. -/
theorem ring_next (hs : CoreAt c m h t p s) (hp : p + 1 = phases c) (ht : t < 64) {j : Nat} (hj : j < max (t + 1) 16)
    (hj' : t + 1 ≤ j + 16) :
    (if 16 ≤ s.roundQ then Function.update s.wMem s.wIdx s.wNewQ else s.wMem) (BitVec.ofNat 4 j) = sched m j := by
  have hp3 : 3 ≤ p := by unfold phases at hp; split at hp <;> omega
  rw [Sha256Core.wIdx, hs.round]
  exact ring_advance hs.ring ht (hs.new hp3) hj hj'

/-- The last phase of a round leads to the next round. -/
theorem step_round (hs : CoreAt c m h t p s) (ht : t < 63) (hp : p + 1 = phases c) (i : CoreIn) :
    CoreAt c m h (t + 1) 0 (s.step c i) := by
  have hlast : ¬ s.roundQ = 64 - 1 := by rw [roundQ_last_iff hs (by omega)]; omega
  rw [step_lastPhase hs hp, Sha256Core.finishRound, if_neg hlast]
  refine ⟨hs.busy, rfl, ?_, rfl, hs.chain, vars_next hs hp, fun j hj hj' => ring_next hs hp (by omega) hj hj',
    fun h => by omega, fun h => by omega, fun h => by omega, fun h => by omega, fun h => by omega, fun h => by omega,
    fun h => by omega, fun h => by unfold phases at h; split at h <;> omega⟩
  show s.roundQ + 1 = _
  rw [hs.round]
  exact (BitVec.ofNat_add t 1).symm

/-- The core has just finished with digest `d`. -/
structure CoreDone (d : Words 8) (s : Sha256Core) : Prop where
  busy : s.busyQ = false
  done : s.doneO = true
  digest : s.digestO = d

/-- The last phase of the last round leads to the digest. -/
theorem step_last (hs : CoreAt c m h 63 p s) (hp : p + 1 = phases c) (i : CoreIn) :
    CoreDone (Sha256.compress Sw.roundConst h m) (s.step c i) := by
  have hlast : s.roundQ = 64 - 1 := (roundQ_last_iff hs (by omega)).2 rfl
  have hv := vars_next hs hp
  rw [step_lastPhase hs hp, Sha256Core.finishRound, if_pos hlast]
  refine ⟨rfl, rfl, funext fun j => ?_⟩
  rw [Sha256.compress, ← hv, ← hs.chain]
  fin_cases j <;> rfl

/-! ## Ages -/

/-- Clock edges of a compression. -/
def coreCycles (c : CoreCfg) : Nat := 64 * phases c

/-- The registers `n` edges after the edge that accepted a start. -/
def CoreAge (c : CoreCfg) (m : Words 16) (h : Words 8) (n : Nat) (s : Sha256Core) : Prop :=
  CoreAt c m h (n / phases c) (n % phases c) s

theorem phases_cases (c : CoreCfg) : phases c = 4 ∨ phases c = 5 := by
  unfold phases
  split <;> simp

/-- An idle core accepts a start. -/
theorem coreAge_start (hs : s.busyQ = false) {i : CoreIn} (hi : i.start = true) :
    CoreAge c i.block i.h 0 (s.step c i) := by
  have hst : s.step c i = { s with
      doneO := false, wMem := fun j => i.block j.toFin, hQ := i.h, vQ := Vars.ofWords i.h
      roundQ := 0, phaseQ := 0, busyQ := true } := by
    simp [Sha256Core.step, hs, hi]
  rw [CoreAge, Nat.zero_div, Nat.zero_mod, hst]
  refine ⟨rfl, rfl, rfl, rfl, rfl, rfl, ?_, fun h => by omega, fun h => by omega, fun h => by omega, fun h => by omega,
    fun h => by omega, fun h => by omega, fun h => by omega, fun h => by unfold phases at h; split at h <;> omega⟩
  intro j hj _
  have hj16 : j < 16 := by simpa using hj
  rw [Sha256.sched_input _ hj16]
  exact congrArg i.block (Fin.ext (Nat.mod_eq_of_lt hj16))

/-- A busy core gets older, whatever the inputs are. -/
theorem coreAge_step {n : Nat} (hs : CoreAge c m h n s) (hn : n + 1 < coreCycles c) (i : CoreIn) :
    CoreAge c m h (n + 1) (s.step c i) := by
  unfold CoreAge at hs ⊢
  unfold coreCycles at hn
  rcases phases_cases c with hp | hp <;> rw [hp] at hs ⊢ hn
  · by_cases hl : n % 4 + 1 = 4
    · rw [show (n + 1) / 4 = n / 4 + 1 by omega, show (n + 1) % 4 = 0 by omega]
      exact step_round hs (by omega) (by omega) i
    · rw [show (n + 1) / 4 = n / 4 by omega, show (n + 1) % 4 = n % 4 + 1 by omega]
      exact step_phase hs (by omega) (by omega) i
  · by_cases hl : n % 5 + 1 = 5
    · rw [show (n + 1) / 5 = n / 5 + 1 by omega, show (n + 1) % 5 = 0 by omega]
      exact step_round hs (by omega) (by omega) i
    · rw [show (n + 1) / 5 = n / 5 by omega, show (n + 1) % 5 = n % 5 + 1 by omega]
      exact step_phase hs (by omega) (by omega) i

/-- At the last age the next edge delivers the digest. -/
theorem coreAge_last {n : Nat} (hs : CoreAge c m h n s) (hn : n + 1 = coreCycles c) (i : CoreIn) :
    CoreDone (Sha256.compress Sw.roundConst h m) (s.step c i) := by
  unfold CoreAge at hs
  unfold coreCycles at hn
  rcases phases_cases c with hp | hp <;> rw [hp] at hs hn
  · rw [show n / 4 = 63 by omega, show n % 4 = 3 by omega] at hs
    exact step_last hs (by omega) i
  · rw [show n / 5 = 63 by omega, show n % 5 = 4 by omega] at hs
    exact step_last hs (by omega) i

theorem CoreAge.busy {n : Nat} (hs : CoreAge c m h n s) : s.busyQ = true := CoreAt.busy hs

theorem CoreAge.done {n : Nat} (hs : CoreAge c m h n s) : s.doneO = false := CoreAt.done hs

/-- A core that is not busy has no pulse after an edge. -/
theorem step_idle_done (hs : s.busyQ = false) (i : CoreIn) : (s.step c i).doneO = false := by
  simp only [Sha256Core.step, hs]
  split <;> simp

theorem coreCycles_pos (c : CoreCfg) : 0 < coreCycles c := by
  have := phases_cases c
  unfold coreCycles
  omega

/-- The age of a core along a run that starts with an accepted start. -/
theorem coreAge_run (hs : s.busyQ = false) {inp : Nat → CoreIn} (hi : (inp 0).start = true) {n : Nat}
    (hn : n < coreCycles c) :
    CoreAge c (inp 0).block (inp 0).h n (Clocked.run (Sha256Core.step c) inp s (n + 1)) := by
  induction n with
  | zero => exact coreAge_start hs hi
  | succ n ih => exact coreAge_step (ih (by omega)) hn _

/-- The digest appears when the compression has taken all its edges. -/
theorem coreAge_done (hs : s.busyQ = false) {inp : Nat → CoreIn} (hi : (inp 0).start = true) :
    CoreDone (Sha256.compress Sw.roundConst (inp 0).h (inp 0).block)
      (Clocked.run (Sha256Core.step c) inp s (coreCycles c + 1)) := by
  have hc := coreCycles_pos c
  obtain ⟨n, hn⟩ : ∃ n, coreCycles c = n + 1 := ⟨coreCycles c - 1, by omega⟩
  have hl := coreAge_last (coreAge_run hs hi (n := n) (by omega)) hn.symm (inp (n + 1))
  rw [hn]
  exact hl

end Rounds

/-! ## The core computes `sha256_compress` -/

/-- **Refinement.** From any register contents with the core idle, an accepted start is followed by exactly `64 * 4` or
`64 * 5` busy cycles without a pulse, then by one cycle of `done_o` with `sha256_compress` of the accepted words; what
the inputs do in between does not matter, and any two configurations agree. -/
theorem core_refines_sha256Compress (cfg : CoreCfg) (s : Sha256Core) (inp : Nat → CoreIn) (hs : s.busyQ = false)
    (hi : (inp 0).start = true) :
    let T := if cfg.fourPhase then 64 * 4 else 64 * 5
    let st := Clocked.run (Sha256Core.step cfg) inp s
    (∀ n, 1 ≤ n → n ≤ T → (st n).busyQ = true ∧ (st n).doneO = false) ∧
      (st (T + 1)).busyQ = false ∧ (st (T + 1)).doneO = true ∧ (st (T + 2)).doneO = false ∧
      (st (T + 1)).digestO = Sw.sha256Compress (inp 0).h (wordsBytes (inp 0).block) ∧
      ∀ (cfg' : CoreCfg) (s' : Sha256Core) (inp' : Nat → CoreIn), s'.busyQ = false → (inp' 0).start = true →
        (inp' 0).block = (inp 0).block → (inp' 0).h = (inp 0).h →
          (Clocked.run (Sha256Core.step cfg') inp' s' ((if cfg'.fourPhase then 64 * 4 else 64 * 5) + 1)).digestO =
            (st (T + 1)).digestO := by
  have hT : ∀ cfg : CoreCfg, (if cfg.fourPhase then 64 * 4 else 64 * 5) = coreCycles cfg := by
    intro cfg
    unfold coreCycles phases
    split <;> rfl
  have hdone := coreAge_done (c := cfg) hs hi
  simp only [hT]
  refine ⟨fun n h1 hn => ?_, hdone.busy, hdone.done, step_idle_done hdone.busy _, ?_, ?_⟩
  · obtain ⟨j, rfl⟩ : ∃ j, n = j + 1 := ⟨n - 1, by omega⟩
    have ha := coreAge_run (c := cfg) hs hi (n := j) (by omega)
    exact ⟨ha.busy, ha.done⟩
  · rw [hdone.digest, Sw.sha256Compress_wordsBytes]
  · intro cfg' s' inp' hs' hi' hb hh
    rw [hdone.digest, (coreAge_done (c := cfg') hs' hi').digest, hb, hh]

/-- The core out of reset with an arbitrary constant input. -/
theorem core_refines_at_reset : (Clocked.run (Sha256Core.step sha256CoreDspExplicit) (fun _ => ⟨true, 0, 0⟩)
    (Sha256Core.reset ⟨fun _ => 0, 0, ⟨0, 0, 0, 0, 0, 0, 0, 0⟩, 5, 3, true, 0, 0, 0, 0, 0, 0, 0, 0, 0, 0, 0, 0, true, 0⟩)
    257).digestO = Sw.sha256Compress 0 (wordsBytes (0 : Words 16)) :=
  (core_refines_sha256Compress sha256CoreDspExplicit _ (fun _ => ⟨true, 0, 0⟩) rfl rfl).2.2.2.2.1

end Vek280Miner.Rtl
