import Vek280Miner.Rtl.BridgeTransfers

/-!
# Progress of the bridge

While both clocks run and the slave answers, every transaction ends: the slave takes an active request and answers it
(`write_finishes`, `read_finishes`), so the M side is free for the other kind again and again (`free_of_read`,
`free_of_write`), and the link does the rest. With what `BridgeTransfers` says of every run, each transfer crosses the
bridge exactly once (`bridge_delivers_once`).
-/

namespace Vek280Miner.Rtl.Bridge

variable {w : Nat}

section Progress

variable {inp : Nat → BridgeTick w}

/-- The registers of the M side wait for its next edge. -/
theorem next_edge (hm : ∀ t, ∃ u ≥ t, (inp u).m.isSome = true) (t : Nat) :
    ∃ u ≥ t, (inp u).m.isSome = true ∧ (Clocked.run step inp reset u).m = (Clocked.run step inp reset t).m := by
  obtain ⟨u, hu, hedge⟩ := hm t
  obtain ⟨n, rfl⟩ := Nat.exists_eq_add_of_le hu
  clear hu
  induction n generalizing t with
  | zero => exact ⟨t, le_rfl, hedge, rfl⟩
  | succ n ih =>
    cases hk : (inp t).m with
    | some i => exact ⟨t, le_rfl, by rw [hk]; rfl, rfl⟩
    | none =>
      obtain ⟨u, hu, hu', hsame⟩ := ih (t + 1) (by rwa [Nat.add_right_comm, Nat.add_assoc])
      refine ⟨u, by omega, hu', hsame.trans ?_⟩
      simp [Clocked.run_succ, step, hk]

/-- Once a write is with the slave, the bridge is ready for the response from the next edge on. -/
theorem bready_step {k : BridgeTick w} {b : Bridge w} (hnone : b.mB k = none) (hactive : b.m.writeActiveQ = true)
    (haw : b.m.awvalid = false) (hw : b.m.wvalid = false) (h : k.m.isSome = true ∨ b.m.bready = true) :
    (b.step k).m.bready = true := by
  cases hk : k.m with
  | none => simpa [step, hk] using h
  | some i =>
    have hb : i.bvalid = true → b.m.bready = false := by simpa [mB, hk] using hnone
    cases hv : i.bvalid with
    | false => simp [step, BridgeM.step, hk, hv, hactive, haw, hw]
    | true => simp [step, BridgeM.step, hk, hb hv, hactive, haw, hw]

variable (hm : ∀ t, ∃ u ≥ t, (inp u).m.isSome = true) (hslave : SlaveAnswers inp reset)

include hm hslave

/-- The slave answers an active write. -/
theorem write_finishes {t : Nat} (h : (Clocked.run step inp reset t).m.writeActiveQ = true) :
    ∃ u ≥ t, ((Clocked.run step inp reset u).mB (inp u)).isSome = true := by
  by_contra hnever
  have hnone : ∀ u ≥ t, (Clocked.run step inp reset u).mB (inp u) = none := fun u hu => by
    by_contra hn
    exact hnever ⟨u, hu, Option.isSome_iff_ne_none.2 hn⟩
  have hopen := Link.stays_active (l := fun u => (Clocked.run step inp reset u).writeLink)
    (k := fun u => (Clocked.run step inp reset u).writeTick (inp u)) (fun u => (ok_run inp u).write)
    (fun u => writeLink_step _ _) h hnone
  have hactive : ∀ u ≥ t, (Clocked.run step inp reset u).m.writeActiveQ = true := fun u hu => (hopen u hu).1
  -- the slave takes the address and the data, ...
  obtain ⟨a, ha, haw⟩ : ∃ a ≥ t, ∀ v ≥ a, (Clocked.run step inp reset v).awSlot.valid = false := by
    refine Slot.empties (fun u hu => ?_) hslave.awready
    rw [Clocked.run_succ, awSlot_step (ok_run inp u), (hopen u hu).2]
    rfl
  obtain ⟨c, hc, hw⟩ : ∃ c ≥ a, ∀ v ≥ c, (Clocked.run step inp reset v).wSlot.valid = false := by
    refine Slot.empties (fun u hu => ?_) hslave.wready
    rw [Clocked.run_succ, wSlot_step (ok_run inp u), (hopen u (by omega)).2]
    rfl
  -- ... the bridge becomes ready for the response, ...
  obtain ⟨d, hd, hvalid⟩ := hslave.bvalid c (hactive c (by omega)) (haw c hc) (hw c le_rfl)
  obtain ⟨e, he, hedge⟩ := hm d
  have hready : ∀ u ≥ e + 1, (Clocked.run step inp reset u).m.bready = true := by
    intro u hu
    induction u, hu using Nat.le_induction with
    | base =>
      exact bready_step (hnone e (by omega)) (hactive e (by omega)) (haw e (by omega)) (hw e (by omega)) (.inl hedge)
    | succ u hu ih =>
      exact bready_step (hnone u (by omega)) (hactive u (by omega)) (haw u (by omega)) (hw u (by omega)) (.inr ih)
  -- ... and takes it
  obtain ⟨v, hv, hedge'⟩ := hm (e + 1)
  obtain ⟨i, hi⟩ := Option.isSome_iff_exists.1 hedge'
  have hb := hvalid v (by omega) (fun x hx _ => hnone x (by omega)) i hi
  have htaken := hnone v (by omega)
  simp [mB, hi, hb, hready v hv] at htaken

/-- The slave answers an active read. -/
theorem read_finishes {t : Nat} (h : (Clocked.run step inp reset t).m.readActiveQ = true) :
    ∃ u ≥ t, ((Clocked.run step inp reset u).mR (inp u)).isSome = true := by
  by_contra hnever
  have hnone : ∀ u ≥ t, (Clocked.run step inp reset u).mR (inp u) = none := fun u hu => by
    by_contra hn
    exact hnever ⟨u, hu, Option.isSome_iff_ne_none.2 hn⟩
  have hopen := Link.stays_active (l := fun u => (Clocked.run step inp reset u).readLink)
    (k := fun u => (Clocked.run step inp reset u).readTick (inp u)) (fun u => (ok_run inp u).read)
    (fun u => readLink_step _ _) h hnone
  have hactive : ∀ u ≥ t, (Clocked.run step inp reset u).m.readActiveQ = true := fun u hu => (hopen u hu).1
  obtain ⟨a, ha, har⟩ : ∃ a ≥ t, ∀ v ≥ a, (Clocked.run step inp reset v).arSlot.valid = false := by
    refine Slot.empties (fun u hu => ?_) hslave.arready
    rw [Clocked.run_succ, arSlot_step (ok_run inp u), (hopen u hu).2]
    rfl
  obtain ⟨d, hd, hvalid⟩ := hslave.rvalid a (hactive a (by omega)) (har a le_rfl)
  obtain ⟨v, hv, hedge⟩ := hm d
  obtain ⟨i, hi⟩ := Option.isSome_iff_exists.1 hedge
  have hr := hvalid v hv (fun x hx _ => hnone x (by omega)) i hi
  have hready : (Clocked.run step inp reset v).m.rready = true := by
    have hav : (Clocked.run step inp reset v).m.readActiveQ = true := hactive v (by omega)
    have harv : (Clocked.run step inp reset v).m.arvalid = false := har v (by omega)
    rw [(ok_run inp v).rready, hav, harv]
    rfl
  have htaken := hnone v (by omega)
  simp [mR, hi, hr, hready] at htaken

theorem free_of_read (t : Nat) :
    ∃ u ≥ t, (inp u).m.isSome = true ∧ (Clocked.run step inp reset u).m.readActiveQ = false := by
  obtain ⟨a, ha, hfree⟩ := Link.free_again (l := fun u => (Clocked.run step inp reset u).readLink)
    (k := fun u => (Clocked.run step inp reset u).readTick (inp u)) (fun u => readLink_step _ _)
    (fun u hu => read_finishes hm hslave hu) t
  obtain ⟨u, hu, hedge, hsame⟩ := next_edge hm a
  exact ⟨u, by omega, hedge, by rw [hsame]; exact hfree⟩

theorem free_of_write (t : Nat) :
    ∃ u ≥ t, (inp u).m.isSome = true ∧ (Clocked.run step inp reset u).m.writeActiveQ = false := by
  obtain ⟨a, ha, hfree⟩ := Link.free_again (l := fun u => (Clocked.run step inp reset u).writeLink)
    (k := fun u => (Clocked.run step inp reset u).writeTick (inp u)) (fun u => writeLink_step _ _)
    (fun u hu => write_finishes hm hslave hu) t
  obtain ⟨u, hu, hedge, hsame⟩ := next_edge hm a
  exact ⟨u, by omega, hedge, by rw [hsame]; exact hfree⟩

end Progress

/-- Every write ends. -/
theorem write_ends {inp : Nat → BridgeTick w} (hs : ∀ t, ∃ u ≥ t, (inp u).s.isSome = true)
    (hm : ∀ t, ∃ u ≥ t, (inp u).m.isSome = true) (hslave : SlaveAnswers inp reset) (t : Nat) :
    ∃ u ≥ t, (Clocked.run step inp reset u).s.writeBusyQ = false := by
  refine Link.transaction_ends (l := fun u => (Clocked.run step inp reset u).writeLink)
    (k := fun u => (Clocked.run step inp reset u).writeTick (inp u)) (fun u => (ok_run inp u).write)
    (fun u => (ok_run inp u).allowed_write) (fun u => writeLink_step _ _) hs (fun u => ?_)
    (fun u hu => write_finishes hm hslave hu) t
  obtain ⟨v, hv, hedge, hfree⟩ := free_of_read hm hslave u
  refine ⟨v, hv, hedge, fun hactive => ?_⟩
  have hwrite : (Clocked.run step inp reset v).m.writeActiveQ = false := hactive
  simp [writeTick, BridgeM.idle, hfree, hwrite]

/-- Every read ends. -/
theorem read_ends {inp : Nat → BridgeTick w} (hs : ∀ t, ∃ u ≥ t, (inp u).s.isSome = true)
    (hm : ∀ t, ∃ u ≥ t, (inp u).m.isSome = true) (hslave : SlaveAnswers inp reset) (t : Nat) :
    ∃ u ≥ t, (Clocked.run step inp reset u).s.readBusyQ = false := by
  refine Link.transaction_ends (l := fun u => (Clocked.run step inp reset u).readLink)
    (k := fun u => (Clocked.run step inp reset u).readTick (inp u)) (fun u => (ok_run inp u).read)
    (fun u => (ok_run inp u).allowed_read) (fun u => readLink_step _ _) hs (fun u => ?_)
    (fun u hu => read_finishes hm hslave hu) t
  obtain ⟨v, hv, hedge, hfree⟩ := free_of_write hm hslave u
  refine ⟨v, hv, hedge, fun hactive => ?_⟩
  have hread : (Clocked.run step inp reset v).m.readActiveQ = false := hactive
  simp [readTick, BridgeM.idle, hfree, hread]

/-- **Exactly once.** In every interleaving of the two clocks the slave gets the transfers of the master, and the master
the responses of the slave, in order, each once. -/
theorem bridge_delivers_once (inp : Nat → BridgeTick w) : DeliversOnce inp reset where
  together := fun n => ⟨Clocked.events_map (fun _ => sAw_eq) n, Clocked.events_map (fun _ => sW_eq) n⟩
  writeAddr := fun n => ⟨_, writeAddr_conserved inp n,
    (ok_run inp n).write.length_requests_offered _ (ok_run inp n).awvalid⟩
  writeData := fun n => ⟨_, writeData_conserved inp n,
    (ok_run inp n).write.length_requests_offered _ (ok_run inp n).wvalid⟩
  readAddr := fun n => ⟨_, readAddr_conserved inp n,
    (ok_run inp n).read.length_requests_offered _ (ok_run inp n).arvalid⟩
  writeRsp := fun n => ⟨_, writeRsp_conserved inp n, (ok_run inp n).write.length_responses_offered (ok_run inp n).bvalid⟩
  readRsp := fun n => ⟨_, readRsp_conserved inp n, (ok_run inp n).read.length_responses_offered (ok_run inp n).rvalid⟩
  writeMatch := fun _ h => write_matched inp h
  readMatch := fun _ h => read_matched inp h
  writeReply := fun _ h => write_replied inp h
  readReply := fun _ h => read_replied inp h
  progress := fun hs hm hslave t => ⟨write_ends hs hm hslave t, read_ends hs hm hslave t⟩

end Vek280Miner.Rtl.Bridge
