import Vek280Miner.Board.WorkDispatch
import Vek280Miner.Lib.LongDivision
import Vek280Miner.Software.Coinbase

/-!
# Fresh work for every job

`extranonce2` is the counter of the session in as many bytes as the pool has asked for. The counter advances with every
call of `make_extranonce2`, whether or not the job can be built, and starts anew with a connection. A run of the client
in which the calls on a connection are counted (`Numbered`) shows that every job has the number of its call in its
`extranonce2` (`fresh_work`).
-/

namespace Vek280Miner

open Rtl Sw

/-! ## The text of `extranonce2` -/

namespace Sw

theorem extranonce2Bytes_succ (size : Nat) (value : Word) : extranonce2Bytes (size + 1) value =
    (if size < 4 then byteAt value (size * 8) else 0) :: extranonce2Bytes size value := by
  rw [extranonce2Bytes, List.range_succ_eq_map, List.map_cons, List.map_map]
  refine congrArg (_ :: ·) (List.map_congr_left fun p hp => ?_)
  have hp' := List.mem_range.1 hp
  rw [Function.comp_apply, show size + 1 - 1 - Nat.succ p = size - 1 - p by omega]

/-- The bytes are the last bytes of the counter, most significant first. -/
theorem digitsNat_extranonce2Bytes (size : Nat) (value : Word) :
    digitsNat 256 ((extranonce2Bytes size value).map BitVec.toNat) = value.toNat % 256 ^ min size 4 := by
  induction size with
  | zero => simp [extranonce2Bytes, digitsNat, Nat.mod_one]
  | succ size ih =>
    rw [extranonce2Bytes_succ, List.map_cons, digitsNat_cons, ih, List.length_map, length_extranonce2Bytes]
    split
    · rename_i hlt
      rw [Nat.min_eq_left (by omega), Nat.min_eq_left hlt, toNat_byteAt, Nat.mod_pow_succ,
        show 2 ^ (size * 8) = 256 ^ size by rw [Nat.mul_comm, Nat.pow_mul]]
      ring
    · rename_i hge
      rw [Nat.min_eq_right (by omega), Nat.min_eq_right (by omega)]
      simp

/-- The text of a counter value decodes to its bytes. -/
theorem hexToBytes_extranonce2 (size : Nat) (value : Word) :
    hexToBytes (bytesToHex (extranonce2Bytes size value)) size = some (extranonce2Bytes size value) :=
  hexToBytes_bytesToHex (length_extranonce2Bytes size value).le

/-- Two counter values that are less than a round of the bytes apart have different texts. -/
theorem extranonce2_ne {size size' : Nat} {value value' : Word} (hne : value.toNat ≠ value'.toNat)
    (h : value.toNat < value'.toNat + 256 ^ min size 4) (h' : value'.toNat < value.toNat + 256 ^ min size 4) :
    bytesToHex (extranonce2Bytes size value) ≠ bytesToHex (extranonce2Bytes size' value') := by
  intro heq
  have hlen := congrArg List.length heq
  rw [length_bytesToHex, length_bytesToHex, length_extranonce2Bytes, length_extranonce2Bytes] at hlen
  obtain rfl : size = size' := by omega
  have hbytes : extranonce2Bytes size value = extranonce2Bytes size value' := by
    have hdec := hexToBytes_extranonce2 size value
    rw [heq, hexToBytes_extranonce2] at hdec
    exact (Option.some.inj hdec).symm
  have hmod := congrArg (fun bytes => digitsNat 256 (bytes.map BitVec.toNat)) hbytes
  simp only [digitsNat_extranonce2Bytes] at hmod
  -- congruent and less than the modulus apart
  have hdiv := Nat.div_add_mod value.toNat (256 ^ min size 4)
  have hdiv' := Nat.div_add_mod value'.toNat (256 ^ min size 4)
  rw [hmod] at hdiv
  rcases Nat.lt_trichotomy (value.toNat / 256 ^ min size 4) (value'.toNat / 256 ^ min size 4) with hlt | hq | hlt
  · have hle := Nat.mul_le_mul_left (256 ^ min size 4) hlt
    rw [Nat.succ_eq_add_one, Nat.mul_add] at hle
    omega
  · rw [hq] at hdiv
    omega
  · have hle := Nat.mul_le_mul_left (256 ^ min size 4) hlt
    rw [Nat.succ_eq_add_one, Nat.mul_add] at hle
    omega

/-- Whether `build_job` gets to `make_extranonce2`. -/
def StratumState.ready (state : StratumState) : Bool := state.haveTarget && state.subscribed && state.authorized

theorem buildJob_counter (notify : StratumNotify) (state : StratumState) :
    (buildJob notify state).2.extranonce2Counter = state.extranonce2Counter + if state.ready then 1 else 0 := by
  cases hready : state.ready with
  | false =>
    rw [buildJob_blocked hready]
    exact (BitVec.add_zero _).symm
  | true =>
    simp only [StratumState.ready, Bool.and_eq_true] at hready
    rw [buildJob, if_neg (by simp [hready]), makeExtranonce2_eq]
    rfl

end Sw

namespace Client

variable {α : Type} {host : HostCfg} {cfg : MinerCfg}

/-! ## Calls of `make_extranonce2` -/

/-- The notify for which a step calls `build_job`. -/
def building (a : ClientAction host.instances) (s : Client α host cfg) : Option StratumNotify :=
  match a with
  | .task _ =>
    if s.board.isr.isSome then none
    else
      match s.pc with
      | .dispatchPending => s.session.pendingNotify
      | .dispatchCurrent => s.session.currentNotify
      | _ => none
  | _ => none

/-- The calls of `make_extranonce2` in a step. -/
def extranonce2Calls (a : ClientAction host.instances) (s : Client α host cfg) : Nat :=
  if (s.building a).isSome && s.session.state.ready then 1 else 0

/-- A client, the calls of `make_extranonce2` on its connection, and the jobs built so far, each with the number of
calls before its own. -/
structure Numbered (α : Type) (host : HostCfg) (cfg : MinerCfg) where
  client : Client α host cfg
  calls : Nat
  jobs : List (Built × Nat)

/-- A step of the client; the calls are counted anew on a new connection. -/
def Numbered.step [Inhabited α] (obs : Engine → α) (view : α → Word) (strtod : List Char → Rat)
    (a : ClientAction host.instances) (s : Numbered α host cfg) : Numbered α host cfg :=
  let client := s.client.step obs view strtod a
  { client
    calls := if client.conn = s.client.conn then s.calls + s.client.extranonce2Calls a else 0
    jobs := s.jobs ++ (client.built.drop s.client.built.length).map fun b => (b, s.calls) }

/-- What a step does to the work of the connection: nothing, a new connection, or a call of `build_job`. -/
inductive Works (s s' : Client α host cfg) : Option StratumNotify → Prop where
  | rests (conn : s'.conn = s.conn) (built : s'.built = s.built)
      (counter : s'.session.state.extranonce2Counter = s.session.state.extranonce2Counter) : Works s s' none
  | accepts (conn : s'.conn = s.conn + 1) (built : s'.built = s.built)
      (counter : s'.session.state.extranonce2Counter = 0) : Works s s' none
  | builds {notify : StratumNotify} (conn : s'.conn = s.conn)
      (built : s'.built = s.built ++
        (buildJob notify s.session.state).1.toList.map fun job => ⟨s.conn, notify, s.session.state, job⟩)
      (counter : s'.session.state.extranonce2Counter =
        (buildJob notify s.session.state).2.extranonce2Counter) : Works s s' (some notify)

/-- The jobs of a run and the calls that made them. -/
structure Fresh (s : Numbered α host cfg) : Prop where
  counter : s.client.session.state.extranonce2Counter = BitVec.ofNat 32 s.calls
  built : s.jobs.map Prod.fst = s.client.built
  made : ∀ x ∈ s.jobs, (buildJob x.1.notify x.1.state).1 = some x.1.job ∧
    x.1.state.extranonce2Counter = BitVec.ofNat 32 x.2
  past : ∀ x ∈ s.jobs, x.1.conn ≤ s.client.conn ∧ (x.1.conn = s.client.conn → x.2 < s.calls)
  increasing : s.jobs.Pairwise fun x y => x.1.conn = y.1.conn → x.2 < y.2

/-- Before the first connection. -/
def Numbered.reset [Inhabited α] (engines : Fin host.instances → Fin cfg.numEngines → Engine) (config : StratumConfig)
    (mem : LineMem) : Numbered α host cfg := ⟨Client.reset engines config mem, 0, []⟩

theorem fresh_reset [Inhabited α] (engines : Fin host.instances → Fin cfg.numEngines → Engine) (config : StratumConfig)
    (mem : LineMem) : Fresh (Numbered.reset engines config mem : Numbered α host cfg) where
  counter := rfl
  built := rfl
  made := by simp [Numbered.reset]
  past := by simp [Numbered.reset]
  increasing := .nil

/-- A step that builds nothing. -/
theorem Fresh.no_job {s s' : Numbered α host cfg} (h : Fresh s) (hjobs : s'.jobs = s.jobs)
    (hbuilt : s'.client.built = s.client.built)
    (hcounter : s'.client.session.state.extranonce2Counter = BitVec.ofNat 32 s'.calls)
    (hpast : ∀ x ∈ s.jobs, x.1.conn ≤ s'.client.conn ∧ (x.1.conn = s'.client.conn → x.2 < s'.calls)) :
    Fresh s' where
  counter := hcounter
  built := by rw [hjobs, h.built, hbuilt]
  made := by rw [hjobs]; exact h.made
  past := by rw [hjobs]; exact hpast
  increasing := by rw [hjobs]; exact h.increasing

/-! ## Runs -/

section Step

variable {obs : Engine → α} {view : α → Word} {strtod : List Char → Rat} {s : Client α host cfg}

/-- A line leaves the counter alone. -/
theorem handle_counter (line : List Char) :
    (s.handle strtod line).session.state.extranonce2Counter = s.session.state.extranonce2Counter := by
  show (handleStratumLine strtod line s.session s.debug).1.state.extranonce2Counter = _
  rw [handle_store, StratumSession.store]
  cases (Stores.ofLine strtod line).subscription <;> cases (Stores.ofLine strtod line).target <;> rfl

theorem receive_works (ch : Char) : Works s (s.receive strtod ch) none := by
  unfold Client.receive
  split
  · exact .rests rfl rfl rfl
  · rename_i buffer line _
    exact .rests rfl rfl (handle_counter (s := { s with buffer }) line)

theorem Works.goto {s' : Client α host cfg} {o : Option StratumNotify} (h : Works s s' o) (pc : ClientPc host.instances) :
    Works s { s' with pc } o := by
  cases h with
  | rests conn built counter => exact .rests conn built counter
  | accepts conn built counter => exact .accepts conn built counter
  | builds conn built counter => exact .builds conn built counter

variable [Inhabited α]

theorem dispatch_works (notify : StratumNotify) (cleanJob : Bool) :
    Works s (s.dispatch obs view notify cleanJob).2 (some notify) := by
  unfold Client.dispatch dispatchNotifyWork
  cases hjob : (buildJob notify s.session.state).1 with
  | none => exact .builds rfl (by rw [hjob]; exact (List.append_nil _).symm) rfl
  | some job => exact .builds rfl (by rw [hjob]; rfl) rfl

theorem dispatchPending_works : Works s (s.dispatchPending obs view) s.session.pendingNotify := by
  unfold Client.dispatchPending
  cases s.session.pendingNotify with
  | none => exact .rests rfl rfl rfl
  | some notify =>
    have h : Works s (s.dispatch obs view notify notify.cleanJobs).2 (some notify) := dispatch_works notify _
    dsimp only
    cases hd : s.dispatch obs view notify notify.cleanJobs with
    | mk o s' =>
      rw [hd] at h
      cases o with
      | none => exact h
      | some job =>
        cases h with
        | builds conn built counter => exact .builds conn built counter

theorem dispatchCurrent_works : Works s (s.dispatchCurrent obs view) s.session.currentNotify := by
  unfold Client.dispatchCurrent
  cases s.session.currentNotify with
  | none => exact .rests rfl rfl rfl
  | some notify => exact dispatch_works notify false

/-- **One step.** -/
theorem step_works (a : ClientAction host.instances) : Works s (s.step obs view strtod a) (s.building a) := by
  cases a with
  | board a => cases a <;> exact .rests rfl rfl rfl
  | requestConnect => exact .rests rfl rfl rfl
  | requestDisconnect => exact .rests rfl rfl rfl
  | setConfig config => exact .rests rfl rfl rfl
  | task net =>
    simp only [Client.step, building]
    split
    · exact .rests rfl rfl rfl
    · unfold Client.task
      cases s.pc with
      | connect =>
        cases net with
        | accept mem =>
          dsimp only
          split
          · exact .accepts rfl rfl rfl
          · exact .rests rfl rfl rfl
        | recv event => exact .rests rfl rfl rfl
        | error => exact .rests rfl rfl rfl
      | recv =>
        dsimp only
        split
        · exact .rests rfl rfl rfl
        · cases net with
          | accept mem => exact .rests rfl rfl rfl
          | error => exact .rests rfl rfl rfl
          | recv event =>
            cases event with
            | timeout => exact .rests rfl rfl rfl
            | char ch => exact receive_works ch
      | clear l => cases l <;> exact .rests rfl rfl rfl
      | dispatchPending => exact dispatchPending_works.goto .drain
      | drain =>
        dsimp only
        split
        · exact .rests rfl rfl rfl
        · split <;> exact .rests rfl rfl rfl
      | refill inst acc =>
        dsimp only
        split
        · exact .rests rfl rfl rfl
        · split <;> exact .rests rfl rfl rfl
      | dispatchCurrent => exact dispatchCurrent_works.goto .recv

/-- Steps that build nothing keep the jobs. -/
theorem jobs_step {s : Numbered α host cfg} {a : ClientAction host.instances}
    (h : (s.client.step obs view strtod a).built = s.client.built) : (s.step obs view strtod a).jobs = s.jobs := by
  simp [Numbered.step, h]

theorem Fresh.step {s : Numbered α host cfg} (h : Fresh s) (a : ClientAction host.instances) :
    Fresh (s.step obs view strtod a) := by
  have hwork : Works s.client (s.client.step obs view strtod a) (s.client.building a) := step_works a
  cases ho : s.client.building a with
  | none =>
    rw [ho] at hwork
    cases hwork with
    | rests conn built counter =>
      have hcalls : (s.step obs view strtod a).calls = s.calls := by simp [Numbered.step, conn, extranonce2Calls, ho]
      have hconn : (s.step obs view strtod a).client.conn = s.client.conn := conn
      refine h.no_job (jobs_step built) built (counter.trans ?_) ?_
      · rw [h.counter, hcalls]
      · rw [hcalls, hconn]
        exact h.past
    | accepts conn built counter =>
      have hcalls : (s.step obs view strtod a).calls = 0 := by simp [Numbered.step, conn]
      have hconn : (s.step obs view strtod a).client.conn = s.client.conn + 1 := conn
      refine h.no_job (jobs_step built) built (counter.trans ?_) ?_
      · rw [hcalls]
        rfl
      · -- all jobs are those of earlier connections
        rw [hconn]
        intro x hx
        have hle := (h.past x hx).1
        exact ⟨by omega, fun heq => by omega⟩
  | some notify =>
    rw [ho] at hwork
    cases hwork with
    | builds conn built counter =>
      have hconn : (s.step obs view strtod a).client.conn = s.client.conn := conn
      have hcalls : (s.step obs view strtod a).calls = s.calls + if s.client.session.state.ready then 1 else 0 := by
        simp [Numbered.step, conn, extranonce2Calls, ho]
      have hcounter : (s.step obs view strtod a).client.session.state.extranonce2Counter =
          BitVec.ofNat 32 (s.step obs view strtod a).calls := by
        rw [hcalls]
        refine counter.trans ?_
        rw [buildJob_counter, h.counter]
        split
        · exact (BitVec.ofNat_add _ 1).symm
        · exact BitVec.add_zero _
      cases hjob : (buildJob notify s.client.session.state).1 with
      | none =>
        rw [hjob] at built
        have hbuilt := built.trans (List.append_nil _)
        refine h.no_job (jobs_step hbuilt) hbuilt hcounter ?_
        rw [hconn, hcalls]
        intro x hx
        exact ⟨(h.past x hx).1, fun heq => Nat.lt_add_right _ ((h.past x hx).2 heq)⟩
      | some job =>
        rw [hjob] at built
        have hready : s.client.session.state.ready = true := by
          obtain ⟨h1, h2, h3, -⟩ := buildJob_isSome_iff.1 (show (buildJob notify s.client.session.state).1.isSome by
            rw [hjob]; rfl)
          simp [StratumState.ready, h1, h2, h3]
        have hjobs : (s.step obs view strtod a).jobs =
            s.jobs ++ [(⟨s.client.conn, notify, s.client.session.state, job⟩, s.calls)] := by
          simp [Numbered.step, built]
        rw [hready, if_pos rfl] at hcalls
        refine ⟨hcounter, ?_, ?_, ?_, ?_⟩
        · rw [hjobs, List.map_append, h.built]
          exact built.symm
        · rw [hjobs]
          intro x hx
          rcases List.mem_append.1 hx with hx | hx
          · exact h.made x hx
          · obtain rfl := List.mem_singleton.1 hx
            exact ⟨hjob, h.counter⟩
        · rw [hjobs, hconn, hcalls]
          intro x hx
          rcases List.mem_append.1 hx with hx | hx
          · exact ⟨(h.past x hx).1, fun heq => Nat.lt_succ_of_lt ((h.past x hx).2 heq)⟩
          · obtain rfl := List.mem_singleton.1 hx
            exact ⟨le_rfl, fun _ => Nat.lt_succ_self _⟩
        · rw [hjobs, List.pairwise_append]
          refine ⟨h.increasing, List.pairwise_singleton _ _, fun x hx y hy heq => ?_⟩
          obtain rfl := List.mem_singleton.1 hy
          exact (h.past x hx).2 heq

theorem client_run (acts : Nat → ClientAction host.instances) (s : Numbered α host cfg) (n : Nat) :
    (Clocked.run (Numbered.step obs view strtod) acts s n).client =
      Clocked.run (Client.step obs view strtod) acts s.client n := by
  induction n with
  | zero => rfl
  | succ n ih => rw [Clocked.run_succ, Clocked.run_succ, ← ih, Numbered.step]

/-- The text of a job is that of the counter of its state. -/
theorem extranonce2_job {notify : StratumNotify} {state : StratumState} {job : MinerJob}
    (h : (buildJob notify state).1 = some job) :
    job.extranonce2.1 = bytesToHex (extranonce2Bytes state.extranonce2Size state.extranonce2Counter) := by
  obtain ⟨header, -, rfl⟩ := buildJob_some h
  have hsize := state.extranonce2Size_le
  have hlen := length_jobExtranonce2 state
  exact List.take_of_length_le (by omega)

/-- The text of the job is the counter of its state in as many bytes as the pool has asked for. -/
structure HoldsCounter (b : Built) : Prop where
  decodes : ∃ bytes, hexToBytes b.job.extranonce2 b.state.extranonce2Size = some bytes ∧
    bytes.length = b.state.extranonce2Size ∧ digitsNat 256 (bytes.map BitVec.toNat) =
      b.state.extranonce2Counter.toNat % 256 ^ min b.state.extranonce2Size 4

/-- **Fresh work.** In every run of the client, from reset on and across connections, with the calls of
`make_extranonce2` on a connection counted: the text of a job decodes to the counter; the job that call `n` has made has
the counter value `n`, in 32 bits; jobs of one connection are made by different calls, and by different counter values
unless `2 ^ 32` calls lie between them; and jobs whose counter values are less than a round of the bytes apart have
different texts. -/
theorem fresh_work (obs : Engine → α) (view : α → Word) (strtod : List Char → Rat)
    (engines : Fin host.instances → Fin cfg.numEngines → Engine) (config : StratumConfig) (mem : LineMem)
    (acts : Nat → ClientAction host.instances) (n : Nat) :
    let s := Clocked.run (Numbered.step obs view strtod) acts (Numbered.reset engines config mem : Numbered α host cfg) n
    s.client = Clocked.run (Client.step obs view strtod) acts (Client.reset engines config mem) n ∧
      s.jobs.map Prod.fst = s.client.built ∧
      (∀ x ∈ s.jobs, HoldsCounter x.1 ∧ x.1.state.extranonce2Counter = BitVec.ofNat 32 x.2) ∧
      (s.jobs.Pairwise fun x y => x.1.conn = y.1.conn → x.2 < y.2 ∧
        (y.2 < x.2 + 2 ^ 32 → x.1.state.extranonce2Counter ≠ y.1.state.extranonce2Counter)) ∧
      ∀ x ∈ s.jobs, ∀ y ∈ s.jobs,
        let c := x.1.state.extranonce2Counter.toNat
        let c' := y.1.state.extranonce2Counter.toNat
        let round := 256 ^ min x.1.state.extranonce2Size 4
        c ≠ c' → c < c' + round → c' < c + round → x.1.job.extranonce2 ≠ y.1.job.extranonce2 := by
  intro s
  have h : Fresh s := Clocked.run_invariant (fresh_reset engines config mem) (fun a _ h => h.step a) n
  refine ⟨client_run acts _ n, h.built, fun x hx => ?_, ?_, ?_⟩
  · obtain ⟨hjob, hcounter⟩ := h.made x hx
    refine ⟨⟨_, ?_, length_extranonce2Bytes _ _, digitsNat_extranonce2Bytes _ _⟩, hcounter⟩
    rw [extranonce2_job hjob]
    exact hexToBytes_extranonce2 _ _
  · refine h.increasing.imp_of_mem fun {x y} hx hy hlt hconn => ⟨hlt hconn, fun hwrap heq => ?_⟩
    rw [(h.made x hx).2, (h.made y hy).2] at heq
    have hmod := congrArg BitVec.toNat heq
    rw [BitVec.toNat_ofNat, BitVec.toNat_ofNat] at hmod
    have hlt' := hlt hconn
    omega
  · intro x hx y hy c c' round hne hlt hlt' heq
    have htext := congrArg Subtype.val heq
    rw [extranonce2_job (h.made x hx).1, extranonce2_job (h.made y hy).1] at htext
    exact extranonce2_ne hne hlt hlt' htext

end Step

end Client

end Vek280Miner
