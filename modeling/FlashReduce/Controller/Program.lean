import FlashReduce.Controller.Lockstep
import FlashReduce.Controller.BroadcastAgreement
import FlashReduce.Controller.Executor
import FlashReduce.Controller.SessionExchange
import FlashReduce.Library.Product

/-!
# Programs of a group of workers

`n` workers run the same sequence of collective operations on one controller: in
each step of the program either every worker makes a call of the rendezvous
(`Barrier` or `RdmaSession`), or every worker calls `Broadcast` with the same
root.  A worker makes its calls one at a time.  The controller serves both kinds of
calls from disjoint fields, so its state is a pair, and a step belongs to one
component.

* `Program` is such a sequence in which two `Broadcast` steps never follow each
  other directly.
* `Placed` is what the calls have to do with the program: every call sits at one
  position of it, and only the last call of a worker may be in progress.
* `Placed.everyone_at` is the argument that all later results rest on: a worker
  that is about to call `Broadcast` has left a rendezvous, which every worker has
  entered, so nobody is still inside an earlier `Broadcast` step.
-/

namespace FlashReduce
namespace Controller

open Library

variable {n : Nat}

/-! ### Programs -/

/-- One step of a program, with the call of each worker. -/
inductive Collective (n : Nat)
  | rendezvous (rpc : Fin n → Rpc)
  | broadcast (root : Fin n) (value : Fin n → UInt64)

def Collective.isBroadcast : Collective n → Bool
  | .rendezvous _ => false
  | .broadcast _ _ => true

/-- The worker's call of the rendezvous. -/
def Collective.rpcOf (client : Fin n) : Collective n → Option Rpc
  | .rendezvous rpc => some (rpc client)
  | .broadcast _ _ => none

/-- The worker's `Broadcast` request. -/
def Collective.requestOf (rank : Fin n) : Collective n → Option Broadcast.Request
  | .rendezvous _ => none
  | .broadcast root value => some ⟨value rank, rank, n, root⟩

/-- A program of `n` workers.  Between two `Broadcast` steps there is a rendezvous. -/
structure Program (n : Nat) where
  steps : List (Collective n)
  workers : ∀ step ∈ steps, ∀ client, (step.rpcOf client).all fun rpc => rpc.numWorkers = n
  separated : steps.IsChain fun a b => !(a.isBroadcast && b.isBroadcast)

/-- The queue pair that `grpc_test` passes to `RdmaSession`, with the GID of its device. -/
def grpcTestQpInfo (gidSubnetPrefix gidInterfaceId : UInt64) (rank : Fin 2) : QpInfo where
  rkey := 102 + UInt32.ofNat rank
  raddr := 0x1000 + UInt64.ofNat rank * 0x100
  qpNum := 200 + UInt32.ofNat rank
  psn := 300 + UInt32.ofNat rank
  gidSubnetPrefix := gidSubnetPrefix
  gidInterfaceId := gidInterfaceId
  lid := 400 + UInt16.ofNat rank

/-- The calls of `grpc_test`: rank 1 is the root of the session. -/
def grpcTestSteps (gidSubnetPrefix gidInterfaceId : UInt64) : List (Collective 2) :=
  [.rendezvous fun _ => .barrier ⟨2⟩,
    .broadcast ⟨0, Nat.zero_lt_two⟩ fun _ => 42,
    .rendezvous fun rank => .rdmaSession
      (clientRequest 1 rank 2 rank 0 0 (grpcTestQpInfo gidSubnetPrefix gidInterfaceId rank))]

theorem grpcTestSteps_workers (gidSubnetPrefix gidInterfaceId : UInt64) :
    ∀ step ∈ grpcTestSteps gidSubnetPrefix gidInterfaceId, ∀ client,
      (step.rpcOf client).all fun rpc => rpc.numWorkers = 2 := by
  simp [grpcTestSteps, Collective.rpcOf, Rpc.numWorkers, clientRequest]

theorem grpcTestSteps_separated (gidSubnetPrefix gidInterfaceId : UInt64) :
    (grpcTestSteps gidSubnetPrefix gidInterfaceId).IsChain fun a b =>
      !(a.isBroadcast && b.isBroadcast) := by
  simp [grpcTestSteps, Collective.isBroadcast]

/-- The program that the two ranks of `grpc_test` run. -/
def grpcTest (gidSubnetPrefix gidInterfaceId : UInt64) : Program 2 where
  steps := grpcTestSteps gidSubnetPrefix gidInterfaceId
  workers := grpcTestSteps_workers gidSubnetPrefix gidInterfaceId
  separated := grpcTestSteps_separated gidSubnetPrefix gidInterfaceId

/-- How many of the first `q` steps are `Broadcast` steps. -/
def Program.broadcastsBefore (p : Program n) (q : Nat) : Nat :=
  (p.steps.take q).countP Collective.isBroadcast

section Positions

variable {p : Program n} {q q' : Nat} {step : Collective n}

theorem Program.broadcastsBefore_zero (p : Program n) : p.broadcastsBefore 0 = 0 := rfl

theorem Program.broadcastsBefore_succ (h : p.steps[q]? = some step) :
    p.broadcastsBefore (q + 1) = p.broadcastsBefore q + if step.isBroadcast then 1 else 0 := by
  unfold Program.broadcastsBefore
  rw [List.take_add_one, h, List.countP_append]
  simp [List.countP_cons]

theorem Program.broadcastsBefore_le_add (p : Program n) (q k : Nat) :
    p.broadcastsBefore q ≤ p.broadcastsBefore (q + k) ∧
      p.broadcastsBefore (q + k) ≤ p.broadcastsBefore q + k := by
  unfold Program.broadcastsBefore
  rw [List.take_add, List.countP_append]
  have hcount := List.countP_le_length (p := Collective.isBroadcast)
    (l := (p.steps.drop q).take k)
  have hlength : ((p.steps.drop q).take k).length ≤ k := List.length_take_le ..
  omega

theorem Program.broadcastsBefore_le (p : Program n) (q : Nat) : p.broadcastsBefore q ≤ q := by
  have h := p.broadcastsBefore_le_add 0 q
  rw [Nat.zero_add, p.broadcastsBefore_zero] at h
  omega

theorem Program.broadcastsBefore_mono (p : Program n) (hle : q ≤ q') :
    p.broadcastsBefore q ≤ p.broadcastsBefore q' ∧
      p.broadcastsBefore q' + q ≤ p.broadcastsBefore q + q' := by
  obtain ⟨k, rfl⟩ := Nat.exists_eq_add_of_le hle
  have h := p.broadcastsBefore_le_add q k
  omega

/-- Past a step of the rendezvous there are more steps of the rendezvous. -/
theorem Program.rendezvous_lt (h : p.steps[q]? = some step) (hkind : step.isBroadcast = false)
    (hlt : q < q') : p.broadcastsBefore q' + q < p.broadcastsBefore q + q' := by
  have hsucc := p.broadcastsBefore_succ h
  have hmono := p.broadcastsBefore_mono (show q + 1 ≤ q' from hlt)
  rw [hkind] at hsucc
  simp only [Bool.false_eq_true, if_false] at hsucc
  omega

/-- A step of the rendezvous is determined by the number of those before it. -/
theorem Program.rendezvous_unique {step' : Collective n} (h : p.steps[q]? = some step)
    (hkind : step.isBroadcast = false) (h' : p.steps[q']? = some step')
    (hkind' : step'.isBroadcast = false)
    (hsame : q + p.broadcastsBefore q' = q' + p.broadcastsBefore q) : q = q' := by
  rcases Nat.lt_trichotomy q q' with hbefore | hequal | hafter
  · have := p.rendezvous_lt h hkind hbefore
    omega
  · exact hequal
  · have := p.rendezvous_lt h' hkind' hafter
    omega

/-- The step before a `Broadcast` step is a rendezvous. -/
theorem Program.rendezvous_before (h : p.steps[q + 1]? = some step)
    (hkind : step.isBroadcast = true) :
    ∃ before, p.steps[q]? = some before ∧ before.isBroadcast = false := by
  obtain ⟨hlt, rfl⟩ := List.getElem?_eq_some_iff.mp h
  have hpair := List.isChain_iff_getElem.mp p.separated q hlt
  refine ⟨p.steps[q], List.getElem?_eq_getElem (by omega), ?_⟩
  simpa [hkind] using hpair

end Positions

/-! ### The workers -/

/-- The controller's two groups of fields with the calls made so far. -/
abbrev Workers (n : Nat) := System (Fin n) × Broadcast.System

abbrev WorkersAction (n : Nat) := Action (Fin n) ⊕ Broadcast.Action

def workersMachine (n : Nat) : Machine (Workers n) (WorkersAction n) :=
  (rendezvousMachine (Fin n)).product Broadcast.machine

/-- How many calls of both kinds a worker has made. -/
def made (s : Workers n) (client : Fin n) : Nat :=
  s.1.rounds client + (s.2.callsOf client).length

/-- All calls of the worker have returned. -/
def Free (s : Workers n) (client : Fin n) : Prop :=
  s.1.Idle client ∧ s.2.Idle client

instance (s : Workers n) (client : Fin n) : Decidable (Free s client) :=
  inferInstanceAs (Decidable (s.1.Idle client ∧ s.2.Idle client))

/-- A worker makes the next call of the program when its earlier calls have returned. -/
def Program.Follows (p : Program n) (s : Workers n) : WorkersAction n → Prop
  | .inl (.enter client rpc) =>
      Free s client ∧ p.steps[made s client]?.bind (Collective.rpcOf client) = some rpc
  | .inr (.enter request) => ∃ h : request.rank < n, Free s ⟨request.rank, h⟩ ∧
      p.steps[made s ⟨request.rank, h⟩]?.bind (Collective.requestOf ⟨request.rank, h⟩) =
        some request
  | .inl (.resume _) => True
  | .inr (.resume _) => True

instance (p : Program n) (s : Workers n) : ∀ action, Decidable (p.Follows s action)
  | .inl (.enter client rpc) => inferInstanceAs (Decidable
      (Free s client ∧ p.steps[made s client]?.bind (Collective.rpcOf client) = some rpc))
  | .inr (.enter request) => inferInstanceAs (Decidable
      (∃ h : request.rank < n, Free s ⟨request.rank, h⟩ ∧
        p.steps[made s ⟨request.rank, h⟩]?.bind (Collective.requestOf ⟨request.rank, h⟩) =
          some request))
  | .inl (.resume _) => inferInstanceAs (Decidable True)
  | .inr (.resume _) => inferInstanceAs (Decidable True)

theorem Collective.rpcOf_eq_some {client : Fin n} {step : Collective n} {rpc : Rpc}
    (h : step.rpcOf client = some rpc) :
    step.isBroadcast = false ∧ ∃ rpcs, step = .rendezvous rpcs ∧ rpcs client = rpc := by
  cases step with
  | rendezvous rpcs => exact ⟨rfl, rpcs, rfl, Option.some.inj h⟩
  | broadcast root value => cases h

theorem Collective.requestOf_eq_some {rank : Fin n} {step : Collective n}
    {request : Broadcast.Request} (h : step.requestOf rank = some request) :
    step.isBroadcast = true ∧
      ∃ root value, step = .broadcast root value ∧ request = ⟨value rank, rank, n, root⟩ := by
  cases step with
  | rendezvous rpcs => cases h
  | broadcast root value => exact ⟨rfl, root, value, rfl, (Option.some.inj h).symm⟩

/-- The rendezvous of a program runs in rounds. -/
theorem Program.Follows.rounds {p : Program n} {s : Workers n} {action : Action (Fin n)}
    (h : p.Follows s (.inl action)) : Rounds n s.1 action := by
  cases action with
  | enter client rpc =>
      obtain ⟨hfree, hstep⟩ := h
      obtain ⟨step, hget, hrpc⟩ := Option.bind_eq_some_iff.mp hstep
      have hworkers := p.workers step (List.mem_of_getElem? hget) client
      rw [hrpc] at hworkers
      exact ⟨of_decide_eq_true hworkers, hfree.1⟩
  | resume index => trivial

theorem Program.lockstep {p : Program n} (hn : 1 ≤ n) {s : Workers n}
    (hreach : (workersMachine n).Reachable p.Follows s) :
    Cohorts (fun _ => true) n s.1 ∧ Lockstep s.1 :=
  reachable_lockstep hn (fun _ _ h => h)
    (Machine.Reachable.left (fun _ _ h => Program.Follows.rounds h) hreach)

/-- A run of `grpc_test` to its end: the second rank waits in each of the three steps except
the last. -/
def grpcTestSchedule (first second : Fin 2) : List (WorkersAction 2) :=
  [.inl (.enter second (.barrier ⟨2⟩)), .inl (.resume 0), .inl (.enter first (.barrier ⟨2⟩)),
    .inl (.resume 1), .inl (.resume 1), .inl (.resume 0), .inl (.resume 0), .inl (.resume 0),
    .inr (.enter ⟨42, second, 2, 0⟩), .inr (.enter ⟨42, first, 2, 0⟩), .inr (.resume 1),
    .inr (.resume 0), .inr (.resume 0), .inr (.resume 0),
    .inl (.enter first (.rdmaSession (clientRequest 1 first 2 first 0 0
      (grpcTestQpInfo 0 0 first)))),
    .inl (.resume 2),
    .inl (.enter second (.rdmaSession (clientRequest 1 second 2 second 0 0
      (grpcTestQpInfo 0 0 second)))),
    .inl (.resume 3), .inl (.resume 3), .inl (.resume 2), .inl (.resume 2), .inl (.resume 2)]

theorem grpcTest_run :
    ∃ history s, (workersMachine 2).Run (grpcTest 0 0).Follows history s ∧ history.length = 22 ∧
      s.1.calls.length = 4 ∧ s.2.calls.map Broadcast.Call.phase = [.returned 42, .returned 42] ∧
      (s.2.callsOf 1).map Broadcast.Call.phase = [.returned 42] := by
  have hview : ((workersMachine 2).exec (grpcTest 0 0).Follows
      (⟨.initial, []⟩, ⟨.initial, []⟩) (grpcTestSchedule 0 1)).map
        (fun s => (s.1.calls.length, s.2.calls.map Broadcast.Call.phase,
          (s.2.callsOf 1).map Broadcast.Call.phase)) =
      some (4, [.returned 42, .returned 42], [.returned 42]) := by
    decide +kernel
  obtain ⟨s, hexec, hs⟩ := Option.map_eq_some_iff.mp hview
  obtain ⟨hcalls, hphases⟩ := Prod.mk.inj hs
  have hrun := Machine.run_of_exec (workersMachine 2) (grpcTest 0 0).Follows
    (⟨.initial, []⟩, ⟨.initial, []⟩) (grpcTestSchedule 0 1) ⟨rfl, rfl⟩ hexec
  exact ⟨_, s, hrun, by decide +kernel, hcalls, Prod.mk.inj hphases⟩

/-! ### Steps of the Broadcast component -/

/-- A later piece of a call changes its phase only. -/
theorem Broadcast.resumeCall_phase {state state' : Broadcast.State}
    {call call' : Broadcast.Call} (h : Broadcast.resumeCall state call = some (state', call')) :
    call' = { call with phase := call'.phase } ∧ call.isFinished = false := by
  unfold Broadcast.resumeCall at h
  cases hphase : call.phase with
  | waiting idx event =>
      simp only [hphase] at h
      split at h <;> cases h
      exact ⟨rfl, by simp [Broadcast.Call.isFinished, hphase]⟩
  | woken idx =>
      simp only [hphase] at h
      split at h <;> cases h <;> exact ⟨rfl, by simp [Broadcast.Call.isFinished, hphase]⟩
  | served idx =>
      simp only [hphase] at h
      split at h <;> cases h <;> exact ⟨rfl, by simp [Broadcast.Call.isFinished, hphase]⟩
  | returned value => simp [hphase] at h
  | raised error => simp [hphase] at h

theorem Broadcast.Call.hasReturned_of_unfinished {call : Broadcast.Call}
    (h : call.isFinished = false) : call.hasReturned = false := by
  unfold Broadcast.Call.isFinished at h
  unfold Broadcast.Call.hasReturned
  cases hphase : call.phase <;> simp_all

theorem Broadcast.step_resume {s s' : Broadcast.System} {index : Nat}
    (hstep : Broadcast.step s (.resume index) = some s') :
    ∃ call phase, s.calls[index]? = some call ∧ call.isFinished = false ∧
      s'.calls = s.calls.set index { call with phase := phase } := by
  simp only [Broadcast.step] at hstep
  cases hcall : s.calls[index]? with
  | none => simp [hcall] at hstep
  | some call =>
      cases hresume : Broadcast.resumeCall s.state call with
      | none => simp [hcall, hresume] at hstep
      | some result =>
          obtain ⟨state', call'⟩ := result
          simp only [hcall, hresume, Option.some.injEq] at hstep
          obtain ⟨hsame, hrunning⟩ := Broadcast.resumeCall_phase hresume
          refine ⟨call, call'.phase, rfl, hrunning, ?_⟩
          rw [← hstep, ← hsame]

theorem Broadcast.step_enter {s s' : Broadcast.System} {request : Broadcast.Request}
    (hstep : Broadcast.step s (.enter request) = some s') :
    ∃ call, call.request = request ∧ s'.calls = s.calls ++ [call] :=
  ⟨_, Broadcast.startCall_request s.state request,
    (congrArg Broadcast.System.calls (Option.some.inj hstep)).symm⟩

theorem Broadcast.length_callsOf_snoc {s s' : Broadcast.System} {call : Broadcast.Call}
    (hcalls : s'.calls = s.calls ++ [call]) (rank : Nat) :
    (s'.callsOf rank).length =
      (s.callsOf rank).length + if call.request.rank = rank then 1 else 0 := by
  unfold Broadcast.System.callsOf
  rw [hcalls, List.filter_append]
  by_cases h : call.request.rank = rank <;> simp [h]

theorem Broadcast.length_callsOf_set {s s' : Broadcast.System} {index : Nat}
    {call : Broadcast.Call} {phase : Broadcast.Phase} (hcall : s.calls[index]? = some call)
    (hcalls : s'.calls = s.calls.set index { call with phase := phase }) (rank : Nat) :
    (s'.callsOf rank).length = (s.callsOf rank).length := by
  unfold Broadcast.System.callsOf
  rw [hcalls, ← List.countP_eq_length_filter, ← List.countP_eq_length_filter]
  exact countP_set_same hcall rfl

end Controller
end FlashReduce
