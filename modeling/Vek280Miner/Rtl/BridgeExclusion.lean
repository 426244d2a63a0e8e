import Vek280Miner.Rtl.BridgeTransfers

/-!
# Transactions of the bridge at the same time

Neither ready signal of the S side looks at the requests of the other kind, so an idle bridge accepts a write and a read
that are presented at the same edge, and the M side then issues both. This is the only way to have two transactions
open: the bridge has one outstanding transaction throughout a run exactly when no such edge occurs in it
(`one_outstanding_iff`).
-/

namespace Vek280Miner.Rtl.Bridge

variable {w : Nat}

/-- At most one transaction is open on either side. -/
def OneOutstanding (b : Bridge w) : Prop :=
  ¬(b.m.writeActiveQ = true ∧ b.m.readActiveQ = true) ∧ ¬(b.s.writeBusyQ = true ∧ b.s.readBusyQ = true)

/-- The S side finds a write and a read at an edge at which it is idle. -/
def Collides (k : BridgeTick w) (b : Bridge w) : Prop :=
  ∃ i, k.s = some i ∧ b.s.idle = true ∧ i.awvalid = true ∧ i.wvalid = true ∧ i.arvalid = true

/-- The S side of an edge that finds at most one request. -/
theorem busy_step {k : BridgeTick w} {b : Bridge w} (h : ¬(b.s.writeBusyQ = true ∧ b.s.readBusyQ = true))
    (hk : ¬Collides k b) : ¬((b.step k).s.writeBusyQ = true ∧ (b.step k).s.readBusyQ = true) := by
  cases hs : k.s with
  | none => simpa [step, hs] using h
  | some i =>
    have hone : ¬(b.s.idle = true ∧ i.awvalid = true ∧ i.wvalid = true ∧ i.arvalid = true) :=
      fun hc => hk ⟨i, hs, hc⟩
    simp only [step, hs, Option.elim_some, BridgeS.step, BridgeS.acceptsWrite, BridgeS.acceptsRead, BridgeS.awready,
      BridgeS.wready, BridgeS.arready, BridgeS.idle] at hone ⊢
    grind

/-- An edge that finds both opens both. -/
theorem busy_of_collides {k : BridgeTick w} {b : Bridge w} (hk : Collides k b) :
    (b.step k).s.writeBusyQ = true ∧ (b.step k).s.readBusyQ = true := by
  obtain ⟨i, hs, hidle, haw, hw, har⟩ := hk
  have hquiet := hidle
  simp only [BridgeS.idle, Bool.and_eq_true, Bool.not_eq_true'] at hquiet
  simp [step, hs, BridgeS.step, BridgeS.acceptsWrite, BridgeS.acceptsRead, BridgeS.awready, BridgeS.wready,
    BridgeS.arready, BridgeS.writeAnswered, BridgeS.readAnswered, hidle, haw, hw, har, hquiet]

/-- **One outstanding transaction.** A run keeps to it exactly when no edge of it finds a write and a read together at
an idle bridge. -/
theorem one_outstanding_iff (inp : Nat → BridgeTick w) :
    (∀ n, (Clocked.run step inp reset n).OneOutstanding) ↔ ∀ n, ¬Collides (inp n) (Clocked.run step inp reset n) := by
  constructor
  · intro h n hk
    exact (h (n + 1)).2 (busy_of_collides hk)
  · intro h n
    have hbusy : ¬((Clocked.run step inp reset n).s.writeBusyQ = true ∧
        (Clocked.run step inp reset n).s.readBusyQ = true) := by
      induction n with
      | zero => exact fun hb => by simp [reset, BridgeS.reset] at hb
      | succ n ih => exact busy_step ih (h n)
    refine ⟨fun hactive => hbusy ⟨?_, ?_⟩, hbusy⟩
    · exact (ok_run inp n).write.busy_of_active hactive.1
    · exact (ok_run inp n).read.busy_of_active hactive.2

/-! ## A write and a read together -/

/-- The master presents at the next S edge, `j`, what it presented without being accepted. -/
structure MasterHolds (i : BridgeSIn w) (s : BridgeS w) (j : BridgeSIn w) : Prop where
  aw : i.awvalid = true → s.awready i = false → j.awvalid = true ∧ j.awaddr = i.awaddr
  w : i.wvalid = true → s.wready i = false → j.wvalid = true ∧ j.wdata = i.wdata ∧ j.wstrb = i.wstrb
  ar : i.arvalid = true → s.arready = false → j.arvalid = true ∧ j.araddr = i.araddr

/-- An AXI-compliant master, which holds its requests from one S edge to the next. -/
def MasterCompliant (inp : Nat → BridgeTick w) : Prop :=
  ∀ t u i j, t < u → (inp t).s = some i → (inp u).s = some j → (∀ x, t < x → x < u → (inp x).s = none) →
    MasterHolds i (Clocked.run step inp reset t).s j

/-- A write and a read presented at the first edge, and nothing after it; the clocks tick together. -/
def bothAtOnce (t : Nat) : BridgeTick 12 :=
  let valid := t == 0
  ⟨some ⟨0x020, valid, 1, 0xf, valid, true, 0x004, valid, true⟩, some ⟨false, false, 0, false, false, 0, 0, false⟩⟩

theorem bothAtOnce_compliant : MasterCompliant bothAtOnce := by
  intro t u i j _ hi _ _
  cases hi
  cases t with
  | zero => constructor <;> intro _ hr <;> cases hr
  | succ t => constructor <;> intro hv <;> cases hv

/-- Both are accepted at that edge and issued four edges later. -/
theorem bothAtOnce_collides :
    ((Clocked.run step bothAtOnce reset 1).s.writeBusyQ = true ∧ (Clocked.run step bothAtOnce reset 1).s.readBusyQ = true) ∧
      (Clocked.run step bothAtOnce reset 4).m.writeActiveQ = true ∧
      (Clocked.run step bothAtOnce reset 4).m.readActiveQ = true := by
  decide

theorem two_outstanding : ¬∀ (w : Nat) (inp : Nat → BridgeTick w), MasterCompliant inp →
    ∀ n, (Clocked.run step inp reset n).OneOutstanding := by
  intro h
  exact (h 12 bothAtOnce bothAtOnce_compliant 4).1 bothAtOnce_collides.2

end Vek280Miner.Rtl.Bridge
