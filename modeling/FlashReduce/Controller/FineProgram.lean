import FlashReduce.Controller.FineRendezvous
import FlashReduce.Controller.ProgramProgress
import Mathlib.Algebra.BigOperators.Group.Finset.Piecewise
import Mathlib.Algebra.Order.BigOperators.Group.Finset

/-!
# Programs between the locked sections

`Program` runs the workers over handlers whose locked sections are one step each.  Here
the code of the rendezvous outside the lock runs between the statements of a section,
and `settledWorkers` carries the results over: a run of the pieces is seen as a run of
`workersMachine`, as long as no call looks its session up while another call of it is
between the counter and the stored request (`FineFollows`).  A locked section of `Broadcast`
is still one step; it may also run while a section of the rendezvous is under way, which
only adds runs.

* `program_session_answers`: no call of the rendezvous raises, and an `RdmaSession` call
  is answered with the request of a peer of its own step.
* `program_completes`: with at most as many workers as the executor of the server has
  threads, every run is finite and a run that cannot be continued has completed the
  program.  A call only takes a thread that is free (`ThreadFree`); `busyThreads_lt` says
  that there is one, since a worker has one call at a time.
-/

namespace FlashReduce
namespace Controller

open Library

variable {n : Nat} {p : Program n}

/-! ### The workers -/

/-- The controller's two groups of fields with the calls made so far and the holder of the
lock of the rendezvous. -/
abbrev FineWorkers (n : Nat) := Fine (Fin n) × Broadcast.System

abbrev FineWorkersAction (n : Nat) := FineAction (Fin n) ⊕ Broadcast.Action

def fineWorkersMachine (n : Nat) : Machine (FineWorkers n) (FineWorkersAction n) :=
  (fineMachine (Fin n)).product Broadcast.machine

/-- The workers when the section that is under way has ended. -/
def settledWorkers (s : FineWorkers n) : Workers n := (s.1.settled, s.2)

/-- The step of the workers that is seen of a step in this machine. -/
def seenWorkers : FineWorkersAction n → Option (WorkersAction n)
  | .inl action => action.seen.map .inl
  | .inr action => some (.inr action)

/-- A worker makes the next call of the program when its earlier calls have returned; a call
whose first section is under way counts as made.  No call looks its session up while another
call of it is between the counter and the stored request. -/
def Program.FineFollows (p : Program n) (s : FineWorkers n) : FineWorkersAction n → Prop
  | .inl (.enter client rpc) => p.Follows (settledWorkers s) (.inl (.enter client rpc))
  | .inl .proceed => True
  | .inl (.resume index) => LookupAfterStore s.1 (.resume index)
  | .inr action => p.Follows (settledWorkers s) (.inr action)

instance (p : Program n) (s : FineWorkers n) : ∀ action, Decidable (p.FineFollows s action)
  | .inl (.enter client rpc) =>
      inferInstanceAs (Decidable (p.Follows (settledWorkers s) (.inl (.enter client rpc))))
  | .inl .proceed => inferInstanceAs (Decidable True)
  | .inl (.resume index) => inferInstanceAs (Decidable (LookupAfterStore s.1 (.resume index)))
  | .inr action => inferInstanceAs (Decidable (p.Follows (settledWorkers s) (.inr action)))

theorem Program.FineFollows.lookup {s : FineWorkers n} {action : FineAction (Fin n)}
    (h : p.FineFollows s (.inl action)) : LookupAfterStore s.1 action := by
  cases action with
  | enter client rpc => trivial
  | proceed => trivial
  | resume index => exact h

/-- A step, seen through `settledWorkers`, is a step of the workers or none. -/
theorem Program.FineFollows.follows {s t : FineWorkers n} {action : FineWorkersAction n}
    (hwoken : s.1.LeavesWoken) (hinv : Inv s.1.settled) (hguard : p.FineFollows s action)
    (hstep : (fineWorkersMachine n).step s action = some t) :
    (workersMachine n).Follows p.Follows (settledWorkers s) (seenWorkers action)
      (settledWorkers t) := by
  rcases action with action | action
  · obtain ⟨hfirst, hsame⟩ := Machine.product_inl.mp hstep
    have hallowed : ∀ taken, action.seen = some taken →
        p.Follows (settledWorkers s) (.inl taken) := by
      intro taken htaken
      cases action with
      | enter client rpc =>
          cases htaken
          exact hguard
      | proceed => cases htaken
      | resume index =>
          cases htaken
          trivial
    have hfollows : (rendezvousMachine (Fin n)).Follows
        (fun sys taken => p.Follows (sys, s.2) (.inl taken)) s.1.settled action.seen t.1.settled :=
      Fine.step_follows hwoken hinv hguard.lookup hallowed hfirst
    cases hseen : action.seen with
    | none =>
        rw [hseen] at hfollows
        have hsettled : t.1.settled = s.1.settled := hfollows
        simp only [seenWorkers, hseen, Option.map_none]
        exact Prod.ext hsettled hsame
    | some taken =>
        rw [hseen] at hfollows
        simp only [seenWorkers, hseen, Option.map_some]
        exact ⟨hfollows.1, Machine.product_inl.mpr ⟨hfollows.2, hsame⟩⟩
  · -- a step of `Broadcast` leaves the rendezvous alone, with the section under way
    obtain ⟨hsecond, hsame⟩ := Machine.product_inr.mp hstep
    have hsettled : (settledWorkers t).1 = (settledWorkers s).1 := congrArg Fine.settled hsame
    exact ⟨hguard, Machine.product_inr.mpr ⟨hsecond, hsettled⟩⟩

theorem fineWorkers_leavesWoken {s : FineWorkers n}
    (hreach : (fineWorkersMachine n).Reachable p.FineFollows s) : s.1.LeavesWoken := by
  have hfirst : (fineMachine (Fin n)).Reachable Machine.anyMove s.1 :=
    hreach.left fun _ _ _ => trivial
  exact reachable_leavesWoken hfirst

theorem reachable_workers_inv {s : Workers n}
    (hreach : (workersMachine n).Reachable p.Follows s) : Inv s.1 :=
  reachable_inv (Machine.Reachable.left (fun _ _ h => Program.Follows.rounds h) hreach)

/-- A run of the pieces is seen as a run of the workers. -/
theorem Program.settled_reachable {s : FineWorkers n}
    (hreach : (fineWorkersMachine n).Reachable p.FineFollows s) :
    (workersMachine n).Reachable p.Follows (settledWorkers s) := by
  refine hreach.refines settledWorkers seenWorkers ?_ ?_
  · rintro ⟨f, b⟩ ⟨rfl, rfl⟩
    exact ⟨rfl, rfl⟩
  · intro s action t hbefore hmapped hguard hstep
    exact hguard.follows (fineWorkers_leavesWoken hbefore) (reachable_workers_inv hmapped) hstep

/-! ### The answers -/

/-- A run of `grpc_test` to its end, in the pieces of its sections.  The root of the session
tests the counter while the other rank is in its section. -/
def grpcTestPieces (first second : Fin 2) : List (FineWorkersAction 2) :=
  let barrier : List (FineAction (Fin 2)) :=
    joinPieces second (.barrier ⟨2⟩) ++ [.resume 0] ++ joinPieces first (.barrier ⟨2⟩) ++
      [.proceed, .resume 1, .resume 1, .resume 0, .resume 0, .proceed, .resume 0]
  let broadcast : List Broadcast.Action :=
    [.enter ⟨42, second, 2, 0⟩, .enter ⟨42, first, 2, 0⟩, .resume 1, .resume 0, .resume 0,
      .resume 0]
  let session : List (FineAction (Fin 2)) :=
    joinPieces second (.rdmaSession (clientRequest 1 second 2 second 0 0
      (grpcTestQpInfo 0 0 second))) ++
      [.enter first (.rdmaSession (clientRequest 1 first 2 first 0 0 (grpcTestQpInfo 0 0 first))),
        .resume 2, .proceed, .proceed, .resume 2, .proceed, .proceed, .resume 3, .resume 3]
  barrier.map Sum.inl ++ broadcast.map Sum.inr ++ session.map Sum.inl

theorem grpcTest_fineRun :
    ∃ history s, (fineWorkersMachine 2).Run (grpcTest 0 0).FineFollows history s ∧
      history.length = 35 ∧ s.1.calls.map Call.hasReturned = [true, true, true, true] := by
  have hview : ((fineWorkersMachine 2).exec (grpcTest 0 0).FineFollows
      (⟨⟨.initial, []⟩, none⟩, ⟨.initial, []⟩) (grpcTestPieces 0 1)).map
        (fun s => s.1.calls.map Call.hasReturned) = some [true, true, true, true] := by
    decide +kernel
  obtain ⟨s, hexec, hreturned⟩ := Option.map_eq_some_iff.mp hview
  have hrun := Machine.run_of_exec (fineWorkersMachine 2) (grpcTest 0 0).FineFollows
    (⟨⟨.initial, []⟩, none⟩, ⟨.initial, []⟩) (grpcTestPieces 0 1) ⟨rfl, rfl⟩ hexec
  exact ⟨_, s, hrun, by decide +kernel, hreturned⟩

/-- A call that has raised or returned has settled as its session expects. -/
theorem Program.fine_settles (hn : 1 ≤ n) (hsessions : p.Sessions) {s : FineWorkers n}
    (hreach : (fineWorkersMachine n).Reachable p.FineFollows s) {call : Call (Fin n)}
    (hcall : call ∈ s.1.calls) (hlock : call.phase ≠ .woken) : p.Settles call :=
  p.settles hn hsessions (Program.settled_reachable hreach) call
    (Fine.mem_settled (fineWorkers_leavesWoken hreach) hcall hlock)

theorem Program.fine_answers (hn : 1 ≤ n) (hsessions : p.Sessions) {s : FineWorkers n}
    (hreach : (fineWorkersMachine n).Reachable p.FineFollows s) {call : Call (Fin n)}
    (hcall : call ∈ s.1.calls) {request : RdmaSessionRequest} {response : RdmaSessionResponse}
    (hrpc : call.rpc = .rdmaSession request)
    (hphase : call.phase = .returned (.rdmaSession response)) :
    p.Answers call.client request (.rdmaSession response) := by
  have hlock : call.phase ≠ .woken := by
    rw [hphase]
    simp
  exact (p.fine_settles hn hsessions hreach hcall hlock).2 request _ hrpc hphase

/-- **The answers of a program.**  When each participant of a step has a peer of the other
kind in it, and no session is used by two steps, then in every interleaving of the pieces no
call of the rendezvous raises, and an `RdmaSession` call is answered with the request that a
peer of the other kind made in the same step; a client decodes the queue pair that its peer
sent. -/
theorem program_session_answers (hn : 1 ≤ n) (hsessions : p.Sessions) {s : FineWorkers n}
    (hreach : (fineWorkersMachine n).Reachable p.FineFollows s) :
    ∀ call ∈ s.1.calls, (∀ error, call.phase ≠ .raised error) ∧
      ∀ request response, call.rpc = .rdmaSession request →
        call.phase = .returned (.rdmaSession response) →
        ∃ q other peer, p.sessionAt q call.client = some request ∧
          p.sessionAt q other = some peer ∧ peer.sessionId = request.sessionId ∧
          (peer.root = 1 ↔ request.root ≠ 1) ∧ response = peer.response ∧
          ∀ sessionId rank numWorkers root mac ipv4 info,
            peer = clientRequest sessionId rank numWorkers root mac ipv4 info →
            remoteQpInfo response = info := by
  intro call hcall
  refine ⟨fun error herror => ?_, fun request response hrpc hphase => ?_⟩
  · have hlock : call.phase ≠ .woken := by
      rw [herror]
      simp
    exact (p.fine_settles hn hsessions hreach hcall hlock).1 error herror
  · obtain ⟨q, other, peer, hrequest, hpeer, hsession, hkind, hresponse⟩ :=
      p.fine_answers hn hsessions hreach hcall hrpc hphase
    cases hresponse
    refine ⟨q, other, peer, hrequest, hpeer, hsession, hkind, rfl, ?_⟩
    rintro sessionId rank numWorkers root mac ipv4 info rfl
    exact remoteQpInfo_clientRequest sessionId rank numWorkers root mac ipv4 info

/-- Each rank of `grpc_test` is answered with the queue pair of the other one. -/
theorem program_session_answers_grpcTest :
    ∃ s : FineWorkers 2, s.1.calls.map Call.hasReturned = [true, true, true, true] ∧
      ∀ call ∈ s.1.calls, (∀ error, call.phase ≠ .raised error) ∧
        ∀ request response, call.rpc = .rdmaSession request →
          call.phase = .returned (.rdmaSession response) →
          ∃ q other peer, (grpcTest 0 0).sessionAt q call.client = some request ∧
            (grpcTest 0 0).sessionAt q other = some peer ∧ peer.sessionId = request.sessionId ∧
            (peer.root = 1 ↔ request.root ≠ 1) ∧ response = peer.response ∧
            ∀ sessionId rank numWorkers root mac ipv4 info,
              peer = clientRequest sessionId rank numWorkers root mac ipv4 info →
              remoteQpInfo response = info := by
  obtain ⟨history, s, hrun, -, hreturned⟩ := grpcTest_fineRun
  exact ⟨s, hreturned,
    program_session_answers (by decide) (grpcTest_sessions 0 0) hrun.reachable⟩

/-! ### Threads -/

/-- How many threads of the executor are taken. -/
def busyThreads (s : Workers n) : Nat :=
  (rendezvousService (Fin n)).busy s.1 + Broadcast.service.busy s.2

/-- The workers whose calls of the rendezvous take a thread. -/
def rendezvousCallers (calls : List (Call (Fin n))) : List Nat :=
  (calls.filter fun call => !call.isFinished).map fun call => call.client.val

/-- The workers whose `Broadcast` calls take a thread. -/
def broadcastCallers (calls : List Broadcast.Call) : List Nat :=
  (calls.filter fun call => !call.isFinished).map fun call => call.request.rank

def callers (s : Workers n) : List Nat :=
  rendezvousCallers s.1.calls ++ broadcastCallers s.2.calls

theorem length_callers (s : Workers n) : (callers s).length = busyThreads s := by
  simp [callers, rendezvousCallers, broadcastCallers, busyThreads, rendezvousService,
    Broadcast.service, List.countP_eq_length_filter]

theorem Call.hasReturned_of_unfinished {ι : Type} {call : Call ι}
    (h : call.isFinished = false) : call.hasReturned = false := by
  unfold Call.isFinished at h
  unfold Call.hasReturned
  cases hphase : call.phase <;> simp_all

theorem resumeCall_unfinished {ι : Type} {controller : Rendezvous} {call : Call ι}
    {result : Rendezvous × Call ι} (h : resumeCall controller call = some result) :
    call.isFinished = false := by
  unfold resumeCall at h
  unfold Call.isFinished
  cases hphase : call.phase <;> simp_all

theorem filter_snoc_sublist {α β : Type} (l : List α) (a : α) (q : α → Bool) (f : α → β) :
    List.Sublist (((l ++ [a]).filter q).map f) ((l.filter q).map f ++ [f a]) := by
  rw [List.filter_append, List.map_append]
  exact (List.Sublist.refl _).append ((List.filter_sublist (p := q) (l := [a])).map f)

/-- A worker that is free takes no thread. -/
theorem Free.notMem_callers {s : Workers n} {client : Fin n} (hfree : Free s client) :
    client.val ∉ callers s := by
  intro hmem
  rcases List.mem_append.mp hmem with hmem | hmem
  · obtain ⟨call, hcall, hclient⟩ := List.mem_map.mp hmem
    obtain ⟨hcall, hrunning⟩ := List.mem_filter.mp hcall
    have hreturned := hfree.1 call hcall (Fin.ext hclient)
    rw [Call.hasReturned_of_unfinished (by simpa using hrunning)] at hreturned
    cases hreturned
  · obtain ⟨call, hcall, hrank⟩ := List.mem_map.mp hmem
    obtain ⟨hcall, hrunning⟩ := List.mem_filter.mp hcall
    have hreturned := hfree.2 call hcall hrank
    rw [Broadcast.Call.hasReturned_of_unfinished (by simpa using hrunning)] at hreturned
    cases hreturned

/-- Each worker takes one thread at most. -/
structure OneThread (s : Workers n) : Prop where
  nodup : (callers s).Nodup
  lt : ∀ caller ∈ callers s, caller < n

theorem OneThread.of_sublist {s t : Workers n} (h : OneThread s)
    (hsub : List.Sublist (callers t) (callers s)) : OneThread t :=
  ⟨h.nodup.sublist hsub, fun caller hcaller => h.lt caller (hsub.subset hcaller)⟩

/-- A free worker makes a call. -/
theorem OneThread.of_perm {s t : Workers n} (h : OneThread s) {client : Fin n}
    (hfree : Free s client) {l : List Nat} (hsub : List.Sublist (callers t) l)
    (hperm : l.Perm (client.val :: callers s)) : OneThread t := by
  have hnodup : l.Nodup :=
    hperm.nodup_iff.mpr (List.nodup_cons.mpr ⟨hfree.notMem_callers, h.nodup⟩)
  refine ⟨hnodup.sublist hsub, fun caller hcaller => ?_⟩
  rcases List.mem_cons.mp (hperm.subset (hsub.subset hcaller)) with rfl | hold
  · exact client.isLt
  · exact h.lt caller hold

theorem Program.oneThread {s : Workers n} (hreach : (workersMachine n).Reachable p.Follows s) :
    OneThread s := by
  refine hreach.induction OneThread ?_ ?_
  · rintro ⟨s₁, s₂⟩ ⟨rfl, rfl⟩
    exact ⟨List.nodup_nil, fun caller hcaller => absurd hcaller List.not_mem_nil⟩
  · intro s action t hbefore h hguard hstep
    have hinv := reachable_workers_inv hbefore
    rcases action with (⟨client, rpc⟩ | index) | (request | index)
    · obtain ⟨hfirst, hsame⟩ := Machine.product_inl.mp hstep
      have hmove : Move s.1 (.enter client rpc) t.1 := hinv.step_move hfirst
      have hsub : List.Sublist (callers t)
          (rendezvousCallers s.1.calls ++ [client.val] ++ broadcastCallers s.2.calls) := by
        unfold callers
        rw [hsame, hmove.entered.1]
        exact (filter_snoc_sublist _ _ _ _).append_right _
      refine h.of_perm hguard.1 hsub ?_
      rw [List.append_assoc]
      exact List.perm_middle
    · obtain ⟨hfirst, hsame⟩ := Machine.product_inl.mp hstep
      obtain ⟨call, controller', call', hcall, hresume, hafter⟩ := resume_cases hfirst
      apply h.of_sublist
      unfold callers
      rw [hsame, hafter]
      refine List.Sublist.append_right (filter_set_sublist hcall (fun _ => ?_) ?_) _
      · simp [resumeCall_unfinished hresume]
      · exact congrArg (fun origin => origin.1.val) (resumeCall_origin hresume)
    · obtain ⟨hsecond, hsame⟩ := Machine.product_inr.mp hstep
      obtain ⟨hrank, hfree, -⟩ := hguard
      obtain ⟨call, hrequest, hcalls⟩ := Broadcast.step_enter hsecond
      have hsub : List.Sublist (callers t) (callers s ++ [request.rank]) := by
        unfold callers
        rw [hsame, hcalls, ← hrequest, List.append_assoc]
        exact (filter_snoc_sublist _ _ _ _).append_left _
      exact h.of_perm hfree hsub (List.perm_append_singleton _ _)
    · obtain ⟨hsecond, hsame⟩ := Machine.product_inr.mp hstep
      obtain ⟨call, phase, hcall, hrunning, hcalls⟩ := Broadcast.step_resume hsecond
      have hsub : List.Sublist (broadcastCallers t.2.calls) (broadcastCallers s.2.calls) := by
        rw [hcalls]
        exact filter_set_sublist hcall (fun _ => by simp [hrunning]) rfl
      apply h.of_sublist
      unfold callers
      rw [hsame]
      exact hsub.append_left _

/-- A worker that is free finds a thread free. -/
theorem OneThread.busyThreads_lt {s : Workers n} (h : OneThread s) {client : Fin n}
    (hfree : Free s client) : busyThreads s < n := by
  -- the client and the callers are different numbers below `n`
  have hnodup : (client.val :: callers s).Nodup :=
    List.nodup_cons.mpr ⟨hfree.notMem_callers, h.nodup⟩
  have hsubset : client.val :: callers s ⊆ List.range n := by
    intro caller hcaller
    rcases List.mem_cons.mp hcaller with rfl | hold
    · exact List.mem_range.mpr client.isLt
    · exact List.mem_range.mpr (h.lt caller hold)
  have hle := (List.subperm_of_subset hnodup hsubset).length_le
  rw [List.length_cons, length_callers, List.length_range] at hle
  omega

/-- A call is received when a thread of the executor is free. -/
def ThreadFree (s : FineWorkers n) : FineWorkersAction n → Prop
  | .inl (.enter _ _) => busyThreads (settledWorkers s) < maxWorkers
  | .inl .proceed => True
  | .inl (.resume _) => True
  | .inr (.enter _) => busyThreads (settledWorkers s) < maxWorkers
  | .inr (.resume _) => True

instance (s : FineWorkers n) : ∀ action, Decidable (ThreadFree s action)
  | .inl (.enter _ _) => inferInstanceAs (Decidable (busyThreads (settledWorkers s) < maxWorkers))
  | .inl .proceed => inferInstanceAs (Decidable True)
  | .inl (.resume _) => inferInstanceAs (Decidable True)
  | .inr (.enter _) => inferInstanceAs (Decidable (busyThreads (settledWorkers s) < maxWorkers))
  | .inr (.resume _) => inferInstanceAs (Decidable True)

/-- The workers follow the program, served by the threads of the executor. -/
def Program.Served (p : Program n) (s : FineWorkers n) (action : FineWorkersAction n) : Prop :=
  p.FineFollows s action ∧ ThreadFree s action

instance (p : Program n) (s : FineWorkers n) (action : FineWorkersAction n) :
    Decidable (p.Served s action) :=
  inferInstanceAs (Decidable (p.FineFollows s action ∧ ThreadFree s action))

/-- A worker that may make a call finds a thread for it. -/
theorem Program.FineFollows.threadFree (hthreads : n ≤ maxWorkers) {s : FineWorkers n}
    (hreach : (fineWorkersMachine n).Reachable p.FineFollows s) {action : FineWorkersAction n}
    (hguard : p.FineFollows s action) : ThreadFree s action := by
  have hone := Program.oneThread (Program.settled_reachable hreach)
  rcases action with (⟨client, rpc⟩ | _ | index) | (request | index)
  · exact Nat.lt_of_lt_of_le (hone.busyThreads_lt hguard.1) hthreads
  · trivial
  · trivial
  · obtain ⟨hrank, hfree, -⟩ := hguard
    exact Nat.lt_of_lt_of_le (hone.busyThreads_lt hfree) hthreads
  · trivial

/-- With at most as many workers as threads no call waits for a thread. -/
theorem Program.served_run (hthreads : n ≤ maxWorkers)
    {history : List (FineWorkers n × FineWorkersAction n)} {s : FineWorkers n}
    (hrun : (fineWorkersMachine n).Run p.FineFollows history s) :
    (fineWorkersMachine n).Run p.Served history s := by
  have hmoves (move : FineWorkers n × FineWorkersAction n) (hmove : move ∈ history) :=
    hrun.of_mem hmove
  obtain ⟨start, hinit, hpath⟩ := hrun
  refine ⟨start, hinit, Machine.Path.reguard hpath fun move hmove hguard => ⟨hguard, ?_⟩⟩
  exact hguard.threadFree hthreads (hmoves move hmove).1

/-! ### The length of a run -/

/-- How many pieces a call of the rendezvous has left at most, after its first section. -/
def Call.remaining {ι : Type} (call : Call ι) : Nat :=
  match call.phase with
  | .entered _ => 6
  | .waiting _ => 5
  | .woken => 4
  | .passed => 1
  | .returned _ | .raised _ => 0

/-- How many steps a `Broadcast` call has left at most. -/
def Broadcast.Call.remaining (call : Broadcast.Call) : Nat :=
  match call.phase with
  | .waiting _ _ => 3
  | .woken _ => 2
  | .served _ => 1
  | .returned _ | .raised _ => 0

theorem Broadcast.Call.remaining_le (call : Broadcast.Call) : call.remaining ≤ 3 := by
  unfold Broadcast.Call.remaining
  split <;> omega

/-- A later piece of a call uses up one of its pieces, the second section three. -/
theorem Move.remaining {ι : Type} {s s' : System ι} {index : Nat}
    (hmove : Move s (.resume index) s') :
    ∃ call, s.calls[index]? = some call ∧
      (s'.calls.map Call.remaining).sum + (if call.phase = .woken then 3 else 1) ≤
        (s.calls.map Call.remaining).sum := by
  cases hmove with
  | testWait _ call hcall hphase | testPass _ call hcall hphase | wake _ call hcall hphase
  | countOut _ call hcall hphase | respond _ call hcall hphase | fail _ call hcall hphase =>
      exact ⟨call, hcall, sum_map_set_le hcall (by simp [Call.remaining, hphase])⟩

/-- A step of a `Broadcast` call uses up one of its steps. -/
theorem Broadcast.Piece.remaining {es es' : List Entry} {flags flags' : List Bool}
    {calls calls' : List Broadcast.Call} {index : Nat}
    (hpiece : Piece es flags calls (.resume index) es' flags' calls') :
    (calls'.map Call.remaining).sum < (calls.map Call.remaining).sum := by
  cases hpiece with
  | wake hcall hphase => exact sum_map_set_lt hcall (by simp [Call.remaining, hphase])
  | mark hcall hphase => exact sum_map_set_lt hcall (by simp [Call.remaining, hphase])
  | gone hcall hphase => exact sum_map_set_lt hcall (by simp [Call.remaining, hphase])
  | read hcall hphase => exact sum_map_set_lt hcall (by simp [Call.remaining, hphase])
  | missing hcall hphase => exact sum_map_set_lt hcall (by simp [Call.remaining, hphase])

/-- How many pieces the section that is under way has left at most. -/
def Fine.left {ι : Type} (f : Fine ι) : Nat := (f.holder.map Holder.left).getD 0

section Left

variable {ι : Type} {f f' : Fine ι}

theorem Holder.left_pos (holder : Holder ι) : 0 < holder.left := by
  rcases holder with ⟨_, _, _, stage⟩ | ⟨_, _, stage⟩ <;> cases stage <;>
    simp [Holder.left, Stage.left, LeaveStage.left]

theorem FineMove.left_enter {client : ι} {rpc : Rpc}
    (hmove : FineMove f (.enter client rpc) f') : f'.left ≤ 4 := by
  cases hmove with
  | join => exact Nat.le_refl 4
  | joinRaise => exact Nat.zero_le 4

theorem FineMove.left_proceed (hmove : FineMove f .proceed f') : f'.left < f.left := by
  cases hmove with
  | joinNext client rpc opId stage next controller hholder hleft =>
      simpa [Fine.left, hholder, Holder.left] using hleft
  | leaveNext index call stage next controller hholder hleft =>
      simpa [Fine.left, hholder, Holder.left] using hleft
  | joinEnd client rpc opId stage call controller hholder =>
      simpa [Fine.left, hholder] using Holder.left_pos _
  | leaveEnd index call call' stage controller hholder =>
      simpa [Fine.left, hholder] using Holder.left_pos _

theorem FineMove.left_resume {index : Nat} {call : Call ι}
    (hmove : FineMove f (.resume index) f') (hcall : f.calls[index]? = some call) :
    f'.left + 1 ≤ f.left + if call.phase = .woken then 3 else 1 := by
  cases hmove with
  | leave _ other _ hfree hother hwoken =>
      rw [hcall] at hother
      cases hother
      rw [if_pos hwoken]
      simp [Fine.left, Holder.left, LeaveStage.left]
  | leaveRaise =>
      have hzero : (0 : Nat) + 1 ≤ if call.phase = .woken then 3 else 1 := by split <;> omega
      exact Nat.le_trans hzero (Nat.le_add_left _ _)
  | resume =>
      refine Nat.add_le_add (Nat.le_refl f.left) ?_
      split <;> omega

/-- A call that takes a step is where it will be at the end of the section. -/
theorem Fine.settled_get (hwoken : f.LeavesWoken) {index : Nat}
    (hresume : f.resume index = some f') : f.settled.calls[index]? = f.calls[index]? := by
  have hmove : FineMove f (.resume index) f' := fineStep_move hresume
  cases hmove with
  | leave _ _ _ hfree => rw [settled_free hfree]
  | leaveRaise _ _ _ _ hfree => rw [settled_free hfree]
  | resume _ call _ _ hcall hlock =>
      rw [(settled_set hwoken hcall hlock call).1, hcall]

end Left

/-- How many pieces the calls in progress have left at most. -/
def pending (s : FineWorkers n) : Nat :=
  (s.1.settled.calls.map Call.remaining).sum + s.1.left +
    (s.2.calls.map Broadcast.Call.remaining).sum

/-- How many calls all workers have made. -/
def total (s : Workers n) : Nat := ∑ client, made s client

theorem total_enter {s s' : Workers n} {client : Fin n}
    (hmade : ∀ other, made s' other = made s other + if client = other then 1 else 0) :
    total s' = total s + 1 := by
  simp [total, hmade, Finset.sum_add_distrib]

theorem total_resume {s s' : Workers n} (hmade : ∀ other, made s' other = made s other) :
    total s' = total s := by
  simp [total, hmade]

theorem sum_snoc {α : Type} (l : List α) (a : α) (f : α → Nat) :
    ((l ++ [a]).map f).sum = (l.map f).sum + f a := by
  rw [List.map_append, List.sum_append_nat, List.map_singleton, List.sum_singleton]

/-- A later step of a `Broadcast` call uses up one of its steps. -/
theorem Program.broadcast_remaining (hn : 1 ≤ n) {s : Workers n}
    (hreach : (workersMachine n).Reachable p.Follows s) {index : Nat} {after : Broadcast.System}
    (hstep : Broadcast.machine.step s.2 (.resume index) = some after) :
    (after.calls.map Broadcast.Call.remaining).sum <
      (s.2.calls.map Broadcast.Call.remaining).sum := by
  -- a reachable state of `Broadcast` has its lists in step with each other
  obtain ⟨l, hl, -, -⟩ := Broadcast.reachable_valued (p.ordered hn hreach).scripted
  have hpiece : Broadcast.step ⟨Broadcast.ofEntries l.entries l.flags, l.calls⟩
      (.resume index) = some after := by
    rw [← hstep]
    exact congrArg (fun b => Broadcast.step b (.resume index)) hl.symm
  obtain ⟨es', flags', -, hpiece⟩ := Broadcast.step_piece hpiece
  rw [show s.2 = l.system from hl]
  exact hpiece.remaining

/-- A piece costs one of the eleven that each call made pays for. -/
theorem Program.step_cost (hn : 1 ≤ n) {s t : FineWorkers n}
    (hreach : (fineWorkersMachine n).Reachable p.FineFollows s) {action : FineWorkersAction n}
    (hguard : p.FineFollows s action) (hstep : (fineWorkersMachine n).step s action = some t) :
    pending t + 1 + 11 * total (settledWorkers s) ≤ pending s + 11 * total (settledWorkers t) := by
  have hwoken := fineWorkers_leavesWoken hreach
  have hsettled := Program.settled_reachable hreach
  have hinv := reachable_workers_inv hsettled
  have hfollows := hguard.follows hwoken hinv hstep
  unfold pending
  rcases action with (⟨client, rpc⟩ | _ | index) | (request | index)
  · -- a new call: four pieces of its section and six after it
    obtain ⟨hfirst, hsame⟩ := Machine.product_inl.mp hstep
    have hcoarse := (Machine.product_inl.mp hfollows.2).1
    have hmove : Move s.1.settled (.enter client rpc) t.1.settled := hinv.step_move hcoarse
    have htotal : total (settledWorkers t) = total (settledWorkers s) + 1 :=
      total_enter (made_enterRendezvous hmove.entered.1 hsame)
    have hpiece : FineMove s.1 (.enter client rpc) t.1 := fineStep_move hfirst
    have hleft := hpiece.left_enter
    have hnew : (s.1.settled.newCall client rpc).remaining = 6 := rfl
    rw [hmove.entered.1, sum_snoc, hnew, hsame, htotal]
    omega
  · -- a piece of a section, of which the settled state sees nothing
    obtain ⟨hfirst, hsame⟩ := Machine.product_inl.mp hstep
    have hstays : settledWorkers t = settledWorkers s := hfollows
    have hcalls : t.1.settled = s.1.settled := congrArg Prod.fst hstays
    have hpiece : FineMove s.1 .proceed t.1 := fineStep_move hfirst
    have hleft := hpiece.left_proceed
    rw [hstays, hcalls, hsame]
    omega
  · obtain ⟨hfirst, hsame⟩ := Machine.product_inl.mp hstep
    have hcoarse := (Machine.product_inl.mp hfollows.2).1
    have hmove : Move s.1.settled (.resume index) t.1.settled := hinv.step_move hcoarse
    obtain ⟨call, call', hresumed⟩ := hmove.resumed
    have htotal : total (settledWorkers t) = total (settledWorkers s) :=
      total_resume (made_resumeRendezvous hresumed hsame)
    obtain ⟨moved, hmoved, hsum⟩ := hmove.remaining
    rw [Fine.settled_get hwoken hfirst] at hmoved
    have hpiece : FineMove s.1 (.resume index) t.1 := fineStep_move hfirst
    have hleft := hpiece.left_resume hmoved
    rw [htotal, hsame]
    omega
  · obtain ⟨hsecond, hsame⟩ := Machine.product_inr.mp hstep
    obtain ⟨hrank, -, -⟩ := hguard
    obtain ⟨call, hrequest, hcalls⟩ := Broadcast.step_enter hsecond
    have hcaller : call.request.rank = (⟨request.rank, hrank⟩ : Fin n) :=
      congrArg Broadcast.Request.rank hrequest
    have htotal : total (settledWorkers t) = total (settledWorkers s) + 1 :=
      total_enter (made_enterBroadcast hcaller hcalls (congrArg Fine.settled hsame))
    have hnew := Broadcast.Call.remaining_le call
    rw [hcalls, sum_snoc, hsame, htotal]
    omega
  · obtain ⟨hsecond, hsame⟩ := Machine.product_inr.mp hstep
    obtain ⟨call, phase, hcall, -, hcalls⟩ := Broadcast.step_resume hsecond
    have htotal : total (settledWorkers t) = total (settledWorkers s) :=
      total_resume (made_resumeBroadcast hcall hcalls (congrArg Fine.settled hsame))
    have hsum := Program.broadcast_remaining hn hsettled hsecond
    rw [htotal, hsame]
    have hkept : (settledWorkers s).2 = s.2 := rfl
    rw [hkept] at hsum
    omega

/-- A run takes at most eleven pieces for each call made, and the pieces that the calls in
progress have left are among them. -/
theorem Program.run_le (hn : 1 ≤ n) {history : List (FineWorkers n × FineWorkersAction n)}
    {s : FineWorkers n} (hrun : (fineWorkersMachine n).Run p.FineFollows history s) :
    history.length + pending s ≤ 11 * total (settledWorkers s) := by
  refine hrun.induction
    (fun history s => history.length + pending s ≤ 11 * total (settledWorkers s)) ?_ ?_
  · rintro ⟨f, b⟩ ⟨rfl, rfl⟩
    exact Nat.zero_le _
  · intro history s action t hbefore hle hguard hstep
    have hcost := Program.step_cost hn hbefore.reachable hguard hstep
    rw [List.length_append, List.length_singleton]
    omega

/-! ### Completion -/

/-- Every worker has made and finished all calls of the program, and nobody has the lock. -/
def Program.FineComplete (p : Program n) (s : FineWorkers n) : Prop :=
  s.1.holder = none ∧ p.Complete (settledWorkers s)

/-- With the lock free, a call that can take a step of the rendezvous can take a piece. -/
theorem Fine.resume_of_free {ι : Type} {f : Fine ι} (hfree : f.holder = none) {index : Nat}
    {s : System ι} (hstep : step f.settled (.resume index) = some s) :
    ∃ f', f.resume index = some f' ∧ LookupAfterStore f (.resume index) := by
  rw [settled_free hfree] at hstep
  obtain ⟨call, controller', call', hcall, hresume, -⟩ := resume_cases hstep
  have hlookup : LookupAfterStore f (.resume index) := by
    intro _ _ _ sessionId _
    simp [pending, hfree]
  by_cases hwoken : call.phase = .woken
  · exact ⟨f.leave index call, by simp [resume, hcall, hwoken, hfree], hlookup⟩
  · refine ⟨⟨⟨controller', f.calls.set index call'⟩, f.holder⟩, ?_, hlookup⟩
    simp [resume, hcall, hwoken, hresume]

/-- Somebody can go on until all workers have completed the program. -/
theorem Program.fine_progress (hn : 1 ≤ n) (hthreads : n ≤ maxWorkers) (hsessions : p.Sessions)
    {s : FineWorkers n} (hreach : (fineWorkersMachine n).Reachable p.FineFollows s) :
    p.FineComplete s ∨
      ∃ action t, p.Served s action ∧ (fineWorkersMachine n).step s action = some t := by
  cases hholder : s.1.holder with
  | some holder =>
      -- whoever has the lock can go on
      refine .inr ⟨.inl .proceed, (s.1.proceed holder, s.2), ⟨trivial, trivial⟩, ?_⟩
      refine Machine.product_inl.mpr ⟨?_, rfl⟩
      show s.1.holder.map s.1.proceed = some (s.1.proceed holder)
      rw [hholder, Option.map_some]
  | none =>
      -- the state is settled, and whoever can take a step there can take a piece
      have hsame : s.1.settled = s.1.toSystem := Fine.settled_free hholder
      rcases p.progress hn hsessions (Program.settled_reachable hreach) with
        hdone | ⟨action, t, hguard, hstep⟩
      · exact .inl ⟨hholder, hdone⟩
      · have hserved {action : FineWorkersAction n} (h : p.FineFollows s action) :
            p.Served s action := ⟨h, h.threadFree hthreads hreach⟩
        right
        rcases action with (⟨client, rpc⟩ | index) | action
        · refine ⟨.inl (.enter client rpc), (s.1.enter client rpc, s.2), hserved hguard, ?_⟩
          refine Machine.product_inl.mpr ⟨?_, rfl⟩
          show fineStep s.1 (.enter client rpc) = some (s.1.enter client rpc)
          simp only [fineStep, hholder]
        · obtain ⟨f', hresume, hlookup⟩ :=
            Fine.resume_of_free hholder (Machine.product_inl.mp hstep).1
          exact ⟨.inl (.resume index), (f', s.2), hserved hlookup,
            Machine.product_inl.mpr ⟨hresume, rfl⟩⟩
        · obtain ⟨hsecond, -⟩ := Machine.product_inr.mp hstep
          exact ⟨.inr action, (s.1, t.2), hserved hguard, Machine.product_inr.mpr ⟨hsecond, rfl⟩⟩

/-- **Programs run to completion.**  With at most as many workers as the executor has threads,
and under the conditions on the sessions, a run of a program has at most `11 * n * length`
pieces, whatever the interleaving, and a run that has not completed the program can go on. -/
theorem program_completes (hn : 1 ≤ n) (hthreads : n ≤ maxWorkers) (hsessions : p.Sessions)
    {history : List (FineWorkers n × FineWorkersAction n)} {s : FineWorkers n}
    (hrun : (fineWorkersMachine n).Run p.Served history s) :
    history.length ≤ 11 * (n * p.steps.length) ∧
      ((∀ action, p.Served s action → (fineWorkersMachine n).step s action = none) →
        p.FineComplete s) := by
  have hfollows : (fineWorkersMachine n).Run p.FineFollows history s := by
    obtain ⟨start, hinit, hpath⟩ := hrun
    exact ⟨start, hinit, Machine.Path.reguard hpath fun _ _ h => h.1⟩
  refine ⟨?_, fun hstuck => ?_⟩
  · have hplaced := (p.ordered hn (Program.settled_reachable hfollows.reachable)).placed
    have htotal : total (settledWorkers s) ≤ n * p.steps.length := by
      have hsum := Finset.sum_le_card_nsmul Finset.univ (made (settledWorkers s)) p.steps.length
        fun client _ => hplaced.made_le client
      simpa [total] using hsum
    have hle := Program.run_le hn hfollows
    omega
  · rcases Program.fine_progress hn hthreads hsessions hfollows.reachable with
      hdone | ⟨action, t, hguard, hstep⟩
    · exact hdone
    · rw [hstuck action hguard] at hstep
      cases hstep

/-- The run of `grpc_test` has completed. -/
theorem program_completes_grpcTest :
    ∃ (history : List (FineWorkers 2 × FineWorkersAction 2)) (s : FineWorkers 2),
      history.length = 35 ∧ history.length ≤ 11 * (2 * (grpcTest 0 0).steps.length) ∧
        ((∀ action, (grpcTest 0 0).Served s action →
          (fineWorkersMachine 2).step s action = none) → (grpcTest 0 0).FineComplete s) := by
  obtain ⟨history, s, hrun, hlength, -⟩ := grpcTest_fineRun
  obtain ⟨hle, hdone⟩ := program_completes (by decide) (by decide) (grpcTest_sessions 0 0)
    (Program.served_run (by decide) hrun)
  exact ⟨history, s, hlength, hle, hdone⟩

end Controller
end FlashReduce
