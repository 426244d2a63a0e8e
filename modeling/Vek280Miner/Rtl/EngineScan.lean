import Mathlib.Algebra.Order.Group.Nat
import Vek280Miner.Lib.Events
import Vek280Miner.Rtl.StartWrite

/-!
# What a scan puts out

The nonces that an engine evaluates and those that it reports, in order. An evaluation takes its decision at the edge
before its last age and reports at the last one (`EvalAt.evaluated`, `EvalAt.reported`), so after `t` edges of a scan
the nonces with numbers below `(t + 1) / evalCycles` have been evaluated, and those below `t / evalCycles` have been
reported if their digests allow it (`ScanAt.events`).
-/

namespace Vek280Miner.Rtl

open Clocked (run run_succ run_succ' events events_succ Reachable)

namespace Engine

/-- The nonce and the digest that the decision is about. -/
def evaluated (s : Engine) : Option (Word × Words 8) :=
  if s.stateQ = .compare ∧ s.cmpIdxQ = 7 then some (s.nonceQ, s.digestQ) else none

/-- The nonce that is reported. -/
def reported (s : Engine) : Option Word := if s.resultValidO then some s.resultNonceO else none

end Engine

/-- The digest of the nonce is at most the target. -/
def IsShare (L : Latched) (n : Word) : Prop := beValue (engineDigest L n) ≤ beValue L.target

instance (L : Latched) (n : Word) : Decidable (IsShare L n) := inferInstanceAs (Decidable (_ ≤ _))

section Scan

variable {cfg : EngineCfg} {L : Latched} {n c r : Word} {d : Words 8} {a t : Nat} {s : Engine}

theorem EvalAt.evaluated (h : EvalAt cfg L n r d a s) :
    s.evaluated = if a = 13 + 2 * coreCycles cfg.core then some (n, pass2Digest d) else none := by
  by_cases ha : a = 13 + 2 * coreCycles cfg.core
  · subst ha
    obtain ⟨hst, hidx, hdg⟩ := evalAt_decides h
    rw [if_pos rfl, Engine.evaluated, if_pos ⟨hst, hidx⟩, h.frame.nonce, hdg]
  · rw [if_neg ha, Engine.evaluated, if_neg]
    rintro ⟨hst, hidx⟩
    cases h with
    | compare j _ _ _ _ _ _ _ hcmp =>
      rw [hcmp.idx] at hidx
      subst hidx
      exact ha (by simp; omega)
    | _ => simp_all

theorem EvalAt.reported (h : EvalAt cfg L n r d a s) : s.reported =
    if a = 14 + 2 * coreCycles cfg.core ∧ beValue (pass2Digest d) ≤ beValue L.target then some n else none := by
  rw [Engine.reported]
  by_cases hv : s.resultValidO = true
  · rw [if_pos hv, if_pos (h.valid_iff.1 hv), h.nonce_of_valid hv]
  · rw [if_neg hv, if_neg (mt h.valid_iff.2 hv)]

/-- The number of periods that have ended one edge later. -/
theorem div_succ {E : Nat} (hE : 0 < E) (t : Nat) : (t + 1) / E = if t % E = E - 1 then t / E + 1 else t / E := by
  have hmod := Nat.mod_lt t hE
  have hdm := Nat.div_add_mod t E
  split <;> rename_i h
  · have hsucc : t + 1 = E * (t / E + 1) := by rw [Nat.mul_add]; omega
    rw [hsucc, Nat.mul_div_cancel_left _ hE]
  · exact Nat.div_eq_of_lt_le (by rw [Nat.mul_comm]; omega) (by rw [Nat.add_mul, Nat.mul_comm]; omega)

theorem ScanAt.evaluated (h : ScanAt cfg L n c t s) : s.evaluated =
    if (t + 1) % evalCycles cfg = evalCycles cfg - 1 then
      some (scanNonce cfg n ((t + 1) / evalCycles cfg), engineDigest L (scanNonce cfg n ((t + 1) / evalCycles cfg)))
    else none := by
  have hev : evalCycles cfg = 2 * coreCycles cfg.core + 15 := rfl
  have hmod := Nat.mod_lt t (evalCycles_pos cfg)
  rw [EvalAt.evaluated h, div_succ (evalCycles_pos cfg), Nat.add_mod, Nat.mod_eq_of_lt (by omega : 1 < evalCycles cfg)]
  by_cases ha : t % evalCycles cfg = 13 + 2 * coreCycles cfg.core
  · rw [if_pos ha, if_pos (by rw [ha, Nat.mod_eq_of_lt] <;> omega), if_neg (by omega)]
    rfl
  · rw [if_neg ha, if_neg]
    by_cases hl : t % evalCycles cfg + 1 = evalCycles cfg
    · rw [hl, Nat.mod_self]
      omega
    · rw [Nat.mod_eq_of_lt (by omega)]
      omega

theorem ScanAt.reported (h : ScanAt cfg L n c t s) : s.reported =
    if t % evalCycles cfg = evalCycles cfg - 1 ∧ IsShare L (scanNonce cfg n (t / evalCycles cfg)) then
      some (scanNonce cfg n (t / evalCycles cfg))
    else none := by
  have hev : evalCycles cfg - 1 = 14 + 2 * coreCycles cfg.core := by unfold evalCycles; omega
  rw [EvalAt.reported h, hev]
  rfl

/-- **What a scan has put out after `t` edges.** -/
theorem scan_events {inp : Nat → EngineIn} (hscan : ∀ u < t, ScanAt cfg L n c u (run (Engine.step cfg) inp s u)) :
    events (Engine.step cfg) (fun _ s => s.evaluated) inp s t =
        (List.range ((t + 1) / evalCycles cfg)).map (fun j => (scanNonce cfg n j, engineDigest L (scanNonce cfg n j))) ∧
      events (Engine.step cfg) (fun _ s => s.reported) inp s t =
        ((List.range (t / evalCycles cfg)).map (scanNonce cfg n)).filter (fun x => IsShare L x) := by
  have hE := evalCycles_pos cfg
  have hev : evalCycles cfg = 2 * coreCycles cfg.core + 15 := rfl
  induction t with
  | zero =>
    rw [Nat.div_eq_of_lt (by omega : 0 + 1 < evalCycles cfg), Nat.zero_div]
    exact ⟨rfl, rfl⟩
  | succ t ih =>
    obtain ⟨hevaluated, hreported⟩ := ih fun u hu => hscan u (by omega)
    have hs := hscan t (Nat.lt_succ_self t)
    rw [events_succ, events_succ, hevaluated, hreported, hs.evaluated, hs.reported]
    refine ⟨?_, ?_⟩
    · rw [div_succ hE (t + 1)]
      split
      · rw [List.range_succ, List.map_append]
        rfl
      · exact List.append_nil _
    · rw [div_succ hE t]
      by_cases hl : t % evalCycles cfg = evalCycles cfg - 1
      · rw [if_pos hl, List.range_succ, List.map_append, List.filter_append]
        by_cases hshare : IsShare L (scanNonce cfg n (t / evalCycles cfg))
        · simp [hl, hshare]
        · simp [hl, hshare]
      · rw [if_neg hl, if_neg fun hc => hl hc.1]
        exact List.append_nil _

end Scan

/-! ## The theorem -/

/-- A state that an engine reaches from reset. -/
def Engine.Reachable (cfg : EngineCfg) (s : Engine) : Prop :=
  Clocked.Reachable (Engine.step cfg) (fun s => ∃ s₀, s = Engine.reset s₀) s

theorem Engine.Reachable.ok {cfg : EngineCfg} {s : Engine} (h : Engine.Reachable cfg s) : EngineOk s := by
  refine Clocked.Reachable.invariant ?_ (fun i s hs => engineOk_step hs) h
  rintro _ ⟨s₀, rfl⟩
  exact ⟨fun _ => rfl, fun hl => by cases hl⟩

/-- **An engine scans exactly its range.** After a start that an idle engine accepts, and as long as it is not stopped,
the nonces evaluated and reported so far are the first ones of the range, in order, reported if they are shares; the
engine stays busy without `done_o` until the whole range has been evaluated, and then returns to idle with it. -/
theorem engine_scans_range (cfg : EngineCfg) (s : Engine) (inp : Nat → EngineIn) (hr : Engine.Reachable cfg s)
    (hidle : s.busyO = false) (hs : (inp 0).start = true) (hc : (inp 0).nonceCount ≠ 0) :
    let L := (inp 0).job
    let nonce := scanNonce cfg (inp 0).nonceStart
    let count := (inp 0).nonceCount.toNat
    let state := run (Engine.step cfg) (fun t => inp (t + 1)) (s.step cfg (inp 0))
    let evaluated := events (Engine.step cfg) (fun _ s => s.evaluated) (fun t => inp (t + 1)) (s.step cfg (inp 0))
    let reported := events (Engine.step cfg) (fun _ s => s.reported) (fun t => inp (t + 1)) (s.step cfg (inp 0))
    ∀ t ≤ count * evalCycles cfg, (∀ u ≤ t, (inp u).stop = false) →
      evaluated t = (List.range ((t + 1) / evalCycles cfg)).map (fun j => (nonce j, engineDigest L (nonce j))) ∧
      reported t = ((List.range (t / evalCycles cfg)).map nonce).filter (fun x => IsShare L x) ∧
      (t < count * evalCycles cfg → (state t).stateQ ≠ .idle ∧ (state t).doneO = false) ∧
      (t = count * evalCycles cfg → (state t).stateQ = .idle ∧ (state t).doneO = true ∧
        evaluated t = (List.range count).map (fun j => (nonce j, engineDigest L (nonce j))) ∧
        reported t = ((List.range count).map nonce).filter (fun x => IsShare L x)) := by
  intro L nonce count state evaluated reported t ht hstop
  obtain ⟨hstate, hbusy⟩ : s.stateQ = .idle ∧ s.core.busyQ = false := by simpa [Engine.busyO] using hidle
  have hfree : (s.step cfg (inp 0)).core.busyQ = false := by
    rw [step_core]
    exact core_stays_idle hbusy (hr.ok.idle hstate)
  have hE := evalCycles_pos cfg
  have hscan : ∀ u < count * evalCycles cfg, u ≤ t → ScanAt cfg L (inp 0).nonceStart (inp 0).nonceCount u (state u) :=
    fun u hu hut => by
      have h := scan_run_until hstate hs hc hfree u (fun v hv => hstop v (by omega)) hu
      rwa [run_succ'] at h
  obtain ⟨hevaluated, hreported⟩ := scan_events (t := t) fun u hu => hscan u (by omega) (by omega)
  refine ⟨hevaluated, hreported, fun hlt => ?_, fun hend => ?_⟩
  · have h := hscan t hlt (Nat.le_refl t)
    exact ⟨EvalAt.not_idle h, EvalAt.not_done h⟩
  · have hcount : 0 < count := Nat.pos_of_ne_zero fun h0 => hc (BitVec.eq_of_toNat_eq h0)
    have hpos : 0 < count * evalCycles cfg := Nat.mul_pos hcount hE
    obtain ⟨v, hv⟩ : ∃ v, t = v + 1 := ⟨t - 1, by omega⟩
    have hlast := scanAt_finish (hscan v (by omega) (by omega)) (hstop (v + 1) (by omega)) (hv.symm.trans hend)
    have hE1 : 1 < evalCycles cfg := by unfold evalCycles; omega
    have hfirst : (t + 1) / evalCycles cfg = count := by
      rw [hend, Nat.mul_comm, Nat.mul_add_div hE, Nat.div_eq_of_lt hE1, Nat.add_zero]
    have hsecond : t / evalCycles cfg = count := by rw [hend, Nat.mul_div_cancel _ hE]
    refine ⟨?_, ?_, hevaluated.trans (by rw [hfirst]), hreported.trans (by rw [hsecond])⟩
    · rw [hv]
      exact hlast.1
    · rw [hv]
      exact hlast.2

/-- Two nonces from 5 on, for all-zero job registers. -/
def twoNonces : EngineIn := ⟨true, false, ⟨0, 0, midTarget⟩, 5, 2⟩

/-- The second of three engines, out of reset, with two nonces to scan. -/
theorem engine_scans_two : events (Engine.step ⟨3, false⟩) (fun _ s => s.evaluated) (fun _ => twoNonces)
    ((Engine.reset default).step ⟨3, false⟩ twoNonces) (2 * evalCycles ⟨3, false⟩) =
      [(5, engineDigest ⟨0, 0, midTarget⟩ 5), (8, engineDigest ⟨0, 0, midTarget⟩ 8)] := by
  have h := engine_scans_range ⟨3, false⟩ (Engine.reset default) (fun _ => twoNonces) (.init ⟨_, rfl⟩) rfl rfl
    (by decide) (2 * evalCycles ⟨3, false⟩) (Nat.le_refl _) (fun _ _ => rfl)
  exact (h.2.2.2 rfl).2.2.1

end Vek280Miner.Rtl
