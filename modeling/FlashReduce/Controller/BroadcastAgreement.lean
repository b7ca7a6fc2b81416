import FlashReduce.Controller.BroadcastIndex

/-!
# Agreement of Broadcast

All ranks make the same sequence of `Broadcast` calls: the `k`-th call of every
rank names the same root `root k`, and rank `r` passes `value r k`.

* `Agreement` is the property under study: a `k`-th call that returns, returns
  `value (root k) k`.
* `broadcast_agreement` shows that it holds in every run in which a call starts
  only while no operation at or before a held position has served every rank.
* `broadcast_disagreement` is a run of two ranks in which the root reads the
  value of the next operation.
-/

namespace FlashReduce
namespace Controller
namespace Broadcast

open Library

variable {n : Nat} (value : Nat → Nat → UInt64) (root : Nat → Fin n)

/-- The request of a rank's `k`-th call. -/
def scriptRequest (rank k : Nat) : Request := ⟨value rank k, rank, n, root k⟩

/-- Each of `n` ranks makes its calls one at a time, in the order of the script. -/
def ScriptCalls (s : System) : Action → Prop
  | .enter request =>
      request.rank < n ∧
        request = scriptRequest value root request.rank (s.callsOf request.rank).length ∧
        s.Idle request.rank
  | .resume _ => True

instance (s : System) : ∀ action, Decidable (ScriptCalls value root s action)
  | .enter request => inferInstanceAs (Decidable (request.rank < n ∧
      request = scriptRequest value root request.rank (s.callsOf request.rank).length ∧
      s.Idle request.rank))
  | .resume _ => inferInstanceAs (Decidable True)

/-- A `k`-th call that returns, returns what the root passed in its own `k`-th
call. -/
def Agreement (s : System) : Prop :=
  ∀ rank k (call : Call) result, (s.callsOf rank)[k]? = some call →
    call.phase = .returned result → result = value (root k) k

/-- The calls allowed by the script, after the calls made so far. -/
def Scripted (calls : List Call) (request : Request) : Prop :=
  request = scriptRequest value root request.rank (joinedOps calls request.rank).length

/-- The operation the call is done waiting for has its value. -/
def Call.isReady (call : Call) : Bool :=
  match call.phase with
  | .woken _ => true
  | .served _ => true
  | _ => false

/-- Every stored or returned value is the right one, the flag of an operation
tells whether it has a value, and nobody is done waiting for an operation
without a value. -/
structure Valued (l : Ledger) : Prop where
  stored : ∀ e ∈ l.entries, ∀ v, e.value = some v → v = value (root e.event) e.event
  flags : ∀ e ∈ l.entries, l.flags[e.event]? = some e.value.isSome
  ready : ∀ call ∈ l.calls, call.isReady = true →
    ∀ e ∈ l.entries, call.joined = some e.event → e.value.isSome = true
  returned : ∀ call ∈ l.calls, ∀ v op, call.phase = .returned v → call.joined = some op →
    v = value (root op) op

variable {value root}

theorem Valued.initial : Valued value root ⟨[], [], []⟩ := by
  constructor <;> simp

/-- **Every scripted move keeps the values right.** -/
theorem Valued.move {l l' : Ledger} (hval : Valued value root l) (hinv : Inv n l)
    (hmove : Move n (Scripted value root) l l') : Valued value root l' := by
  cases hmove with
  | cleanup hkept =>
      exact ⟨fun e he => hval.stored e (List.mem_of_mem_filter he),
        fun e he => hval.flags e (List.mem_of_mem_filter he),
        fun call hcall hready e he => hval.ready call hcall hready e (List.mem_of_mem_filter he),
        hval.returned⟩
  | @create entries flags calls =>
      refine ⟨forall_mem_snoc hval.stored (fun v h => by cases h), ?_, ?_, hval.returned⟩
      · refine forall_mem_snoc (fun e he => ?_) (by simp [Entry.fresh])
        rw [List.getElem?_append_left (hinv.created e he)]
        exact hval.flags e he
      · intro call hcall hready
        refine forall_mem_snoc (hval.ready call hcall hready) (fun hjoined => ?_)
        -- no call can have joined the new operation
        have hlt := hinv.joined_lt hcall hjoined
        have hcount := hinv.counted call.request.rank
        simp only [Entry.fresh] at hlt hcount
        omega
  | @fill entries flags calls idx e request he hallowed hroot hevent =>
      have hmem := List.mem_of_getElem? he
      have hright : request.value = value (root e.event) e.event := by
        have hrequest : request = scriptRequest value root request.rank e.event :=
          hevent ▸ hallowed
        rw [hrequest] at hroot ⊢
        exact congrArg (value · e.event) hroot
      refine ⟨?_, ?_, ?_, hval.returned⟩
      · refine forall_mem_set hval.stored (fun v hv => ?_)
        rw [← Option.some.inj hv]
        exact hright
      · intro e' he'
        rcases hinv.increasing.mem_set he he' with rfl | ⟨hold, hne⟩
        · rw [Entry.fill_event, List.getElem?_set_self (hinv.created e hmem)]
          rfl
        · rw [List.getElem?_set_ne (Ne.symm hne)]
          exact hval.flags e' hold
      · intro call hcall hready
        exact forall_mem_set (hval.ready call hcall hready) (fun _ => rfl)
  | @join entries flags calls idx e request phase he hallowed hrank hevent hphase =>
      refine ⟨hval.stored, hval.flags, ?_, ?_⟩
      · refine forall_mem_snoc hval.ready (fun hready e' he' hjoined => ?_)
        rcases hphase with rfl | ⟨rfl, hvalue⟩
        · cases hready
        · have hevents : e.event = e'.event := Option.some.inj hjoined
          rw [← hinv.increasing.eq_of_event (List.mem_of_getElem? he) he' hevents]
          exact Option.isSome_iff_ne_none.mpr hvalue
      · refine forall_mem_snoc hval.returned (fun v op hreturned => ?_)
        rcases hphase with rfl | ⟨rfl, -⟩ <;> cases hreturned
  | @wake entries flags calls i call idx event hcall hphase hflag =>
      -- the flag that woke the call says that the value is there
      have hmem := List.mem_of_getElem? hcall
      refine ⟨hval.stored, hval.flags, ?_, forall_mem_set hval.returned (fun v op h => by cases h)⟩
      refine forall_mem_set hval.ready (fun _ e he hjoined => ?_)
      have hevent : some event = some e.event :=
        (hinv.waits call hmem idx event hphase).symm.trans hjoined
      have hvalue := hval.flags e he
      rw [← Option.some.inj hevent, hflag] at hvalue
      exact (Option.some.inj hvalue).symm
  | @mark entries flags calls i call idx e hcall hphase he =>
      have hmem := List.mem_of_getElem? hcall
      have hready : call.isReady = true := by simp [Call.isReady, hphase]
      refine ⟨?_, ?_, ?_, forall_mem_set hval.returned (fun v op h => by cases h)⟩
      · exact forall_mem_set hval.stored (hval.stored e (List.mem_of_getElem? he))
      · exact forall_mem_set hval.flags (hval.flags e (List.mem_of_getElem? he))
      · refine forall_mem_set (fun c hc hcready => ?_) (fun _ => ?_)
        · exact forall_mem_set (hval.ready c hc hcready)
            (hval.ready c hc hcready e (List.mem_of_getElem? he))
        · exact forall_mem_set (hval.ready call hmem hready)
            (hval.ready call hmem hready e (List.mem_of_getElem? he))
  | @read entries flags calls i call idx e hcall hphase he =>
      have hmem := List.mem_of_getElem? hcall
      have hentry := List.mem_of_getElem? he
      -- the position still denotes the operation that the call joined
      obtain ⟨e', he', hjoined⟩ := hinv.positions call hmem idx (Call.position_served hphase)
      cases he.symm.trans he'
      have hvalue := hval.ready call hmem (by simp [Call.isReady, hphase]) e hentry hjoined
      obtain ⟨v, hv⟩ := Option.isSome_iff_exists.mp hvalue
      refine ⟨hval.stored, hval.flags, forall_mem_set hval.ready (fun h => by cases h), ?_⟩
      refine forall_mem_set hval.returned (fun w op hreturned hop => ?_)
      have hop : e.event = op := Option.some.inj (hjoined.symm.trans hop)
      rw [hv] at hreturned
      cases hreturned
      rw [← hop]
      exact hval.stored e hentry v hv

theorem ScriptCalls.rankCalls {s : System} {action : Action} (h : ScriptCalls value root s action) :
    RankCalls n s action := by
  cases action with
  | enter request =>
      obtain ⟨hrank, hrequest, hidle⟩ := h
      refine ⟨by rw [hrequest]; rfl, hrank, ?_, hidle⟩
      rw [hrequest]
      exact (root _).isLt
  | resume index => trivial

theorem ScriptCalls.scripted {l : Ledger} {request : Request}
    (h : ScriptCalls value root l.system (.enter request)) :
    Scripted value root l.calls request := by
  obtain ⟨-, hrequest, -⟩ := h
  simpa [Scripted, joinedOps, System.callsOf, Ledger.system] using hrequest

/-- The right values in every ledger reached. -/
theorem reachable_valued {s : System}
    (hreach : machine.Reachable
      (fun s action => ScriptCalls value root s action ∧ PositionsKept s action) s) :
    ∃ l : Ledger, s = l.system ∧ Inv n l ∧ Valued value root l := by
  refine hreach.invariant
    (fun s => ∃ l : Ledger, s = l.system ∧ Inv n l ∧ Valued value root l) ?_ ?_
  · exact fun s hinit => ⟨_, eq_system_of_init hinit, Inv.initial n, Valued.initial⟩
  · rintro _ action s' ⟨l, rfl, hinv, hval⟩ ⟨hcalls, hkept⟩ hstep
    have henter : ∀ request, action = .enter request → request.numWorkers = n ∧
        request.rank < n ∧ l.Idle request.rank ∧ Scripted value root l.calls request ∧
        Kept l.entries l.calls := by
      rintro request rfl
      obtain ⟨hworkers, hrank, -, hidle⟩ := hcalls.rankCalls
      exact ⟨hworkers, hrank, hidle, hcalls.scripted, kept_of_positionsKept hkept⟩
    obtain ⟨l', hl', hmoves⟩ := hinv.step_moves _ henter hstep
    refine ⟨l', hl', ?_⟩
    clear hl' hstep
    induction hmoves with
    | refl => exact ⟨hinv, hval⟩
    | tail _ hmove ih => exact ⟨ih.1.move hmove, ih.2.move ih.1 hmove⟩

/-- **Broadcast agreement**, in every run in which a call starts only while no
operation at or before a held position has served every rank. -/
theorem broadcast_agreement {s : System}
    (hreach : machine.Reachable
      (fun s action => ScriptCalls value root s action ∧ PositionsKept s action) s) :
    Agreement value root s := by
  obtain ⟨l, rfl, hinv, hval⟩ := reachable_valued hreach
  intro rank k call result hcall hreturned
  have hjoined : call.joined = some k := by
    have hops : (joinedOps l.calls rank)[k]? = some call.joined := by
      rw [joinedOps, List.getElem?_map]
      exact congrArg (Option.map Call.joined) hcall
    rw [hinv.numbered] at hops
    simp only [List.getElem?_map, Option.map_eq_some_iff] at hops
    obtain ⟨op, hop, hsome⟩ := hops
    obtain ⟨hlt, hget⟩ := List.getElem?_eq_some_iff.mp hop
    rw [← hsome, ← hget, List.getElem_range]
  have hmem : call ∈ l.calls := (List.mem_filter.mp (List.mem_of_getElem? hcall)).1
  exact hval.returned call hmem result k hreturned hjoined

/-- The value of the witness runs: rank `r` passes `10 * k + r + 1` in its
`k`-th call. -/
def tens (rank k : Nat) : UInt64 := UInt64.ofNat (10 * k + rank + 1)

/-- The root of the witness runs alternates. -/
def alternating (k : Nat) : Fin 2 := ⟨k % 2, Nat.mod_lt k Nat.two_pos⟩

/-- Rank `1` waits for the root of the first call; both return its value. -/
theorem broadcast_agreement_two_ranks :
    ∃ s : System, s.calls.map Call.phase = [.returned 1, .returned 1] ∧
      Agreement tens alternating s := by
  have hrun := Machine.run_of_exec machine
    (fun s action => ScriptCalls tens alternating s action ∧ PositionsKept s action)
    ⟨.initial, []⟩
    [.enter ⟨2, 1, 2, 0⟩, .enter ⟨1, 0, 2, 0⟩, .resume 0, .resume 0, .resume 0, .resume 1] rfl rfl
  exact ⟨_, rfl, broadcast_agreement hrun.reachable⟩

/-- Without the condition agreement fails: rank `1` returns from its first call
and starts the second one, whose root it is; its cleanup removes the first
operation, and the root of the first call reads the value of the second. -/
theorem broadcast_disagreement :
    ¬ ∀ s : System, machine.Reachable (ScriptCalls tens alternating) s →
      Agreement tens alternating s := by
  intro h
  have hrun := Machine.run_of_exec machine (ScriptCalls tens alternating) ⟨.initial, []⟩
    [.enter ⟨1, 0, 2, 0⟩, .enter ⟨2, 1, 2, 0⟩, .resume 1, .enter ⟨12, 1, 2, 1⟩, .resume 0] rfl rfl
  have hagree := h _ hrun.reachable 0 0 _ 12 rfl rfl
  exact absurd hagree (by decide)

end Broadcast
end Controller
end FlashReduce
