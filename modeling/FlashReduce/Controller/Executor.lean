import FlashReduce.Library.Executor
import FlashReduce.Controller.Cohort
import FlashReduce.Controller.BroadcastIndex
import FlashReduce.Controller.BroadcastWaiters

/-!
# The handlers behind the thread pool of the server

`Controller.__init__` gives the server an executor with ten threads.  A call that
waits for an event keeps its thread, and a call that finds no free thread waits in
the queue of the executor, in the order of arrival.

* `rendezvousService` and `Broadcast.service` are the handlers as services of such
  an executor.
* `rendezvous_deadlockFree_iff`: a round of `Barrier` or `RdmaSession` cannot get
  stuck exactly when all its calls fit in the pool, since nobody is released before
  the last of them has entered.
* `Broadcast.deadlockFree_iff`: a round of `Broadcast` cannot get stuck exactly when
  the root is among the calls that get the first threads; the calls that come before
  the root wait for it.
-/

namespace FlashReduce
namespace Controller

open Library

/-- `futures.ThreadPoolExecutor(max_workers=10)` -/
def maxWorkers : Nat := 10

variable {ι : Type}

/-! ### Barrier and RdmaSession as a service -/

/-- The call is over: it returned or raised. -/
def Call.isFinished (call : Call ι) : Bool :=
  match call.phase with
  | .returned _ | .raised _ => true
  | _ => false

/-- A call that cannot go on is over, or it waits for an event that is not set. -/
theorem resumeCall_eq_none {controller : Rendezvous} {call : Call ι}
    (h : resumeCall controller call = none) : call.isFinished = true ∨
      ∃ event, call.phase = .waiting event ∧ controller.eventFlags[event]? ≠ some true := by
  unfold resumeCall at h
  cases hphase : call.phase with
  | entered event =>
      simp only [hphase] at h
      split at h <;> cases h
  | waiting event =>
      refine .inr ⟨event, rfl, ?_⟩
      intro hset
      simp [hphase, hset] at h
  | woken =>
      simp only [hphase] at h
      split at h <;> cases h
  | passed =>
      simp only [hphase] at h
      split at h <;> cases h
  | returned response => exact .inl (by simp [Call.isFinished, hphase])
  | raised error => exact .inl (by simp [Call.isFinished, hphase])

/-- `Barrier` and `RdmaSession` with the clients that call them. -/
def rendezvousService (ι : Type) : Service (System ι) (Action ι) (ι × Rpc) where
  machine := rendezvousMachine ι
  accept request := .enter request.1 request.2
  resume index := .resume index
  started s := s.calls.map Call.origin
  busy s := s.calls.countP fun call => !call.isFinished
  accept_enabled := fun _ _ => rfl
  started_init := by
    rintro s rfl
    rfl
  started_accept := by
    intro s request t hstep
    have hcalls : s.calls ++ [(startCall s.controller request.1 request.2).2] = t.calls :=
      congrArg System.calls (Option.some.inj hstep)
    rw [← hcalls, List.map_append, List.map_singleton, startCall_origin]
  started_resume := by
    intro s index t hstep
    simp only [rendezvousMachine, step] at hstep
    cases hcall : s.calls[index]? with
    | none => simp [hcall] at hstep
    | some call =>
        cases hresume : resumeCall s.controller call with
        | none => simp [hcall, hresume] at hstep
        | some result =>
            simp only [hcall, hresume, Option.some.injEq] at hstep
            subst hstep
            exact map_set_same hcall (resumeCall_origin hresume)
  busy_le := by
    intro s
    rw [List.length_map]
    exact List.countP_le_length

/-- When no call can go on, every call that is not over waits for an event that is not
set. -/
theorem waiting_of_disabled {s : System ι} (h : ∀ index, step s (.resume index) = none)
    {call : Call ι} (hmem : call ∈ s.calls) (hrunning : call.isFinished = false) :
    ∃ event, call.phase = .waiting event ∧ s.controller.eventFlags[event]? ≠ some true := by
  obtain ⟨index, hcall⟩ := List.mem_iff_getElem?.mp hmem
  have hstep := h index
  simp only [step, hcall] at hstep
  cases hresume : resumeCall s.controller call with
  | none =>
      rcases resumeCall_eq_none hresume with hover | hwaits
      · rw [hover] at hrunning
        cases hrunning
      · exact hwaits
  | some result => simp [hresume] at hstep

/-- The calls that may enter when everybody calls with `num_workers = n`. -/
def AllWorkers (n : Nat) (_ : System ι) : Action ι → Prop
  | .enter _ rpc => rpc.numWorkers = n
  | .resume _ => True

/-- A call that waits for an event that is not set has joined the open operation. -/
theorem Inv.open_of_waiting {s : System ι} (hinv : Inv s) {call : Call ι} (hmem : call ∈ s.calls)
    {event : Nat} (hphase : call.phase = .waiting event)
    (hunset : s.controller.eventFlags[event]? ≠ some true) : call.opId = s.open := by
  have hevent : event = call.opId := by
    have hok := hinv.phase call hmem
    simp only [PhaseOk, hphase] at hok
    exact hok.1
  rw [hevent, Ne, hinv.flag_iff] at hunset
  exact Nat.le_antisymm (hinv.opId_le call hmem) (Nat.not_lt.mp hunset)

/-- When all `n` calls of a round have entered, nobody is in the open operation. -/
theorem Cohorts.opId_ne_open {n : Nat} {s : System ι} (hcohorts : Cohorts (fun _ => true) n s)
    (hinv : Inv s) (hall : s.calls.length = n) {call : Call ι} (hmem : call ∈ s.calls) :
    call.opId ≠ s.open := by
  intro hopen
  have hlt := hcohorts.open_lt call hmem rfl hopen
  -- the calls that have joined an earlier operation are `n` by themselves
  by_cases hearly : ∃ other ∈ s.calls, other.opId < s.open
  · obtain ⟨other, hother, hclosed⟩ := hearly
    have hjoined := hcohorts.closed_eq other hother rfl hclosed
    have hmore : s.joined other.opId < s.calls.countP fun _ => true := by
      apply countP_lt_of_mem (fun _ _ => rfl) hmem
      · rw [decide_eq_false_iff_not]
        omega
      · rfl
    rw [List.countP_true] at hmore
    omega
  · have hsame : s.joined s.open = s.calls.length := by
      apply List.countP_eq_length.mpr
      intro c hc
      have hle := hinv.opId_le c hc
      have hnot : ¬ c.opId < s.open := fun h => hearly ⟨c, hc, h⟩
      simp only [decide_eq_true_eq]
      omega
    omega

/-- A round of `n` calls with `num_workers = n` is released as soon as all of them are
running. -/
theorem rendezvous_deadlockFree {n threads : Nat} (hn : 1 ≤ n) {order : List (ι × Rpc)}
    (hlength : order.length = n) (hworkers : ∀ request ∈ order, request.2.numWorkers = n)
    (hle : n ≤ threads) : (rendezvousService ι).DeadlockFree threads order := by
  intro p hreach hstuck
  obtain ⟨hdisabled, hthreads⟩ := hstuck.cases
  have hrequests := Service.requests_eq hreach
  rw [hstuck.received, List.append_nil] at hrequests
  have hstate : (rendezvousMachine ι).Reachable (AllWorkers n) p.state := by
    have haccept : ∀ s, (rendezvousMachine ι).Reachable (AllWorkers n) s → ∀ request rest,
        (rendezvousService ι).started s ++ request :: rest = order →
        AllWorkers n s (.enter request.1 request.2) := by
      intro s _ request rest hsplit
      exact hworkers request (by rw [← hsplit]; simp)
    exact Service.reachable_state haccept (fun _ _ => trivial) hreach
  have hinv := reachable_inv hstate
  have hcohorts : Cohorts (fun _ => true) n p.state := by
    apply reachable_cohorts hn ?_ hstate
    intro s action hguard
    cases action with
    | enter client rpc => exact ⟨fun _ => hguard, fun _ _ _ => rfl⟩
    | resume index => trivial
  have hcount : p.state.calls.length + p.queue.length = n := by
    rw [← hlength, ← hrequests]
    simp [rendezvousService]
  -- everybody is running, so somebody is busy and waits for the open operation
  have hbusy : 0 < p.state.calls.countP fun call => !call.isFinished := by
    rcases hthreads with hqueue | hfull
    · rcases hstuck.unfinished with hne | hbusy
      · exact absurd hqueue hne
      · exact hbusy
    · exact Nat.lt_of_lt_of_le (by omega) hfull
  have hall : p.state.calls.length = n := by
    rcases hthreads with hqueue | hfull
    · rw [hqueue, List.length_nil] at hcount
      exact hcount
    · have hbound : (p.state.calls.countP fun call => !call.isFinished) ≤ p.state.calls.length :=
        List.countP_le_length
      have hfull' : threads ≤ p.state.calls.countP fun call => !call.isFinished := hfull
      omega
  obtain ⟨call, hmem, hrunning⟩ := List.countP_pos_iff.mp hbusy
  obtain ⟨event, hphase, hunset⟩ :=
    waiting_of_disabled hdisabled hmem (by simpa using hrunning)
  exact hcohorts.opId_ne_open hinv hall hmem (hinv.open_of_waiting hmem hphase hunset)

/-- Every call waits for the first operation. -/
structure Parked (s : System ι) : Prop where
  inv : Inv s
  first : s.open = 0
  waiting : ∀ call ∈ s.calls, call.opId = 0 ∧ call.phase = .waiting 0

theorem Parked.initial : Parked (⟨.initial, []⟩ : System ι) where
  inv := Inv.initial
  first := rfl
  waiting := by simp

theorem Parked.joined {s : System ι} (h : Parked s) : s.joined 0 = s.calls.length := by
  apply List.countP_eq_length.mpr
  intro call hcall
  simpa using (h.waiting call hcall).1

/-- A parked call cannot go on. -/
theorem Parked.blocked {s : System ι} (h : Parked s) (index : Nat) :
    step s (.resume index) = none := by
  cases hcall : s.calls[index]? with
  | none => simp [step, hcall]
  | some call =>
      have hphase := (h.waiting call (List.mem_of_getElem? hcall)).2
      have hunset : s.controller.eventFlags[0]? ≠ some true := by
        rw [Ne, h.inv.flag_iff, h.first]
        exact Nat.lt_irrefl 0
      simp [step, hcall, resumeCall, hphase, hunset]

/-- A parked call keeps its thread. -/
theorem Parked.busy {s : System ι} (h : Parked s) :
    (rendezvousService ι).busy s = ((rendezvousService ι).started s).length := by
  show s.calls.countP (fun call => !call.isFinished) = (s.calls.map Call.origin).length
  rw [List.length_map]
  apply List.countP_eq_length.mpr
  intro call hcall
  simp [Call.isFinished, (h.waiting call hcall).2]

/-- While calls are missing, one more call enters and waits. -/
theorem Parked.next {s : System ι} (h : Parked s) {client : ι} {rpc : Rpc}
    (hmissing : s.calls.length + 1 < rpc.numWorkers) :
    ∃ t u, step s (.enter client rpc) = some t ∧ step t (.resume s.calls.length) = some u ∧
      Parked u := by
  obtain ⟨t, henter⟩ : ∃ t, step s (.enter client rpc) = some t := ⟨_, rfl⟩
  have hmove := h.inv.enter_move henter
  have hinv := h.inv.move hmove
  have hjoined := h.joined
  obtain ⟨hcalls, -, hcases⟩ := hmove.entered
  rw [h.first] at hcases
  have hopen : t.open = 0 := by
    rcases hcases with ⟨hopen, -⟩ | ⟨-, hfull⟩ <;> omega
  have hget : t.calls[s.calls.length]? = some (s.newCall client rpc) := by
    rw [hcalls, List.getElem?_concat_length]
  have hfirst : (s.newCall client rpc).opId = 0 := h.first
  have hctr : t.controller.barrierCtrs.get? (s.newCall client rpc).opId =
      some ((s.calls.length : Int) + 1) := by
    have hcount := joined_of_calls_snoc hcalls 0
    rw [hjoined, if_pos hfirst] at hcount
    rw [hfirst, ← hopen, hinv.ctr_open, hopen, hcount]
    rfl
  -- the counter is still below `num_workers`, so the test leads to the wait
  have htest : mustWait rpc.numWorkers (s.newCall client rpc).opId t.controller =
      (.ok true, t.controller) := by
    have hlt : (s.calls.length : Int) + 1 < rpc.numWorkers := by omega
    simp only [mustWait, Fallible.bind_apply, counter_apply hctr, Fallible.pure_apply, hlt,
      decide_true]
  have hresume : step t (.resume s.calls.length) =
      some ⟨t.controller, s.calls ++ [{ s.newCall client rpc with phase := .waiting s.open }]⟩ := by
    have hpiece : resumeCall t.controller (s.newCall client rpc) =
        some (t.controller, { s.newCall client rpc with phase := .waiting s.open }) := by
      have hphase : (s.newCall client rpc).phase = .entered s.open := rfl
      simp only [resumeCall, hphase, System.newCall_rpc, htest]
    simp [step, hpiece, hcalls]
  refine ⟨t, _, henter, hresume, hinv.move (hinv.resume_move hresume), hopen, ?_⟩
  apply forall_mem_snoc h.waiting
  exact ⟨hfirst, by rw [h.first]⟩

/-- When the pool is smaller than the round, the first calls take all threads and wait,
and the call that would release them stays in the queue. -/
theorem rendezvous_stuck {n threads : Nat} {order : List (ι × Rpc)} (hlength : order.length = n)
    (hworkers : ∀ request ∈ order, request.2.numWorkers = n) (hlt : threads < n) :
    ∃ p, ((rendezvousService ι).executor threads order).Reachable Machine.anyMove p ∧
      (rendezvousService ι).Stuck threads p := by
  refine Service.exists_stuck (show (rendezvousMachine ι).init ⟨.initial, []⟩ from rfl)
    Parked.initial (by omega) ?_ (fun s => Parked.busy) (fun s => Parked.blocked)
  intro s request rest hparked hsplit hcount
  have hmem : request ∈ order := by
    rw [← hsplit]
    simp
  have hcalls : ((rendezvousService ι).started s).length = s.calls.length := List.length_map _
  have hmissing : s.calls.length + 1 < request.2.numWorkers := by
    rw [hworkers request hmem]
    omega
  obtain ⟨t, u, henter, hresume, hu⟩ := hparked.next hmissing
  exact ⟨t, u, henter, .single ⟨_, hresume⟩, hu⟩

/-- A round of `n` calls with `num_workers = n` cannot get stuck exactly when all of them
fit in the pool. -/
theorem rendezvous_deadlockFree_iff {n threads : Nat} (hn : 1 ≤ n) {order : List (ι × Rpc)}
    (hlength : order.length = n) (hworkers : ∀ request ∈ order, request.2.numWorkers = n) :
    (rendezvousService ι).DeadlockFree threads order ↔ n ≤ threads := by
  constructor
  · intro hfree
    by_contra hlt
    obtain ⟨p, hreach, hstuck⟩ := rendezvous_stuck hlength hworkers (Nat.lt_of_not_le hlt)
    exact hfree p hreach hstuck
  · exact rendezvous_deadlockFree hn hlength hworkers

/-! ### Broadcast as a service -/

namespace Broadcast

theorem startCall_request (state : State) (request : Request) :
    (startCall state request).2.request = request := by
  unfold startCall
  split <;> rfl

theorem resumeCall_request {state state' : State} {call call' : Call}
    (h : resumeCall state call = some (state', call')) : call'.request = call.request := by
  unfold resumeCall at h
  cases hphase : call.phase with
  | waiting idx event =>
      simp only [hphase] at h
      split at h <;> cases h
      rfl
  | woken idx =>
      simp only [hphase] at h
      split at h <;> cases h <;> rfl
  | served idx =>
      simp only [hphase] at h
      split at h <;> cases h <;> rfl
  | returned value => simp [hphase] at h
  | raised error => simp [hphase] at h

/-- A call that cannot go on is over, or it waits for an event that is not set. -/
theorem resumeCall_eq_none {state : State} {call : Call} (h : resumeCall state call = none) :
    call.isFinished = true ∨
      ∃ idx event, call.phase = .waiting idx event ∧ state.eventFlags[event]? ≠ some true := by
  unfold resumeCall at h
  cases hphase : call.phase with
  | waiting idx event =>
      refine .inr ⟨idx, event, rfl, ?_⟩
      intro hset
      simp [hphase, hset] at h
  | woken idx =>
      simp only [hphase] at h
      split at h <;> cases h
  | served idx =>
      simp only [hphase] at h
      split at h <;> cases h
  | returned value => exact .inl (by simp [Call.isFinished, hphase])
  | raised error => exact .inl (by simp [Call.isFinished, hphase])

/-- `Broadcast` with the requests it has begun to handle. -/
def service : Service System Action Request where
  machine := machine
  accept request := .enter request
  resume index := .resume index
  started s := s.calls.map Call.request
  busy s := s.calls.countP fun call => !call.isFinished
  accept_enabled := fun _ _ => rfl
  started_init := by
    rintro s rfl
    rfl
  started_accept := by
    intro s request t hstep
    have hcalls : s.calls ++ [(startCall s.state request).2] = t.calls :=
      congrArg System.calls (Option.some.inj hstep)
    rw [← hcalls, List.map_append, List.map_singleton, startCall_request]
  started_resume := by
    intro s index t hstep
    simp only [machine, step] at hstep
    cases hcall : s.calls[index]? with
    | none => simp [hcall] at hstep
    | some call =>
        cases hresume : resumeCall s.state call with
        | none => simp [hcall, hresume] at hstep
        | some result =>
            simp only [hcall, hresume, Option.some.injEq] at hstep
            subst hstep
            exact map_set_same hcall (resumeCall_request hresume)
  busy_le := by
    intro s
    rw [List.length_map]
    exact List.countP_le_length

theorem waiting_of_disabled {s : System} (h : ∀ index, step s (.resume index) = none)
    {call : Call} (hmem : call ∈ s.calls) (hrunning : call.isFinished = false) :
    ∃ idx event, call.phase = .waiting idx event ∧ s.state.eventFlags[event]? ≠ some true := by
  obtain ⟨index, hcall⟩ := List.mem_iff_getElem?.mp hmem
  have hstep := h index
  simp only [step, hcall] at hstep
  cases hresume : resumeCall s.state call with
  | none =>
      rcases resumeCall_eq_none hresume with hover | hwaits
      · rw [hover] at hrunning
        cases hrunning
      · exact hwaits
  | some result => simp [hresume] at hstep

/-- A round in which each of `n` ranks makes one call and all name the same root. -/
structure Round (n root : Nat) (order : List Request) : Prop where
  ranks : (order.map Request.rank).Perm (List.range n)
  workers : ∀ request ∈ order, request.numWorkers = n
  root : ∀ request ∈ order, request.root = root

variable {n root threads : Nat} {order : List Request}

theorem Round.rank_lt (h : Round n root order) {request : Request} (hmem : request ∈ order) :
    request.rank < n :=
  List.mem_range.mp (h.ranks.mem_iff.mp (List.mem_map_of_mem hmem))

theorem Round.nodup (h : Round n root order) : (order.map Request.rank).Nodup :=
  h.ranks.nodup_iff.mpr List.nodup_range

/-- What is known of the calls of one round: they meet the conditions of the invariants
of the ledger and of the waiters. -/
def RoundCalls (n root : Nat) (s : System) (action : Action) : Prop :=
  (RankCalls n s action ∧ PositionsKept s action) ∧ FixedRootCalls n root s action

/-- A rank that has not called yet has not been served, so no operation is complete. -/
theorem Round.positionsKept {s : System} {request : Request} (hrank : request.rank < n)
    (hnew : ∀ call ∈ s.calls, call.request.rank ≠ request.rank)
    (hreach : machine.Reachable (RoundCalls n root) s) : PositionsKept s (.enter request) := by
  obtain ⟨l, rfl, hinv⟩ := reachable_inv (hreach.weaken fun _ _ h => h.1)
  intro call _
  unfold Call.keeps
  split
  · next idx _ =>
    rw [List.all_eq_true]
    intro row hrow
    obtain ⟨e, he, rfl⟩ := List.mem_map.mp (List.mem_of_mem_take hrow)
    have hunserved : e.unserved request.rank = true := by
      rw [hinv.unserved_iff he hrank]
      rintro ⟨c, hc, hsame, -⟩
      exact hnew c hc hsame
    exact Entry.isOpen_of_unserved hunserved
  · rfl

/-- Behind the pool, the calls of one round meet these conditions. -/
theorem Round.reachable (hround : Round n root order) (hroot : root < n) {p : Pool System Request}
    (hreach : (service.executor threads order).Reachable Machine.anyMove p) :
    machine.Reachable (RoundCalls n root) p.state := by
  have haccept : ∀ s, machine.Reachable (RoundCalls n root) s → ∀ request rest,
      service.started s ++ request :: rest = order → RoundCalls n root s (.enter request) := by
    intro s hstate request rest hsplit
    have hmem : request ∈ order := by
      rw [← hsplit]
      simp
    have hrank := hround.rank_lt hmem
    have hrequest := hround.root request hmem
    have hworkers := hround.workers request hmem
    have hnew : ∀ call ∈ s.calls, call.request.rank ≠ request.rank := by
      intro call hcall hsame
      have hnodup := hround.nodup
      rw [← hsplit, List.map_append, List.map_cons] at hnodup
      have hdisjoint := (List.nodup_append.mp hnodup).2.2
      have hstarted : call.request.rank ∈ (service.started s).map Request.rank :=
        List.mem_map_of_mem (List.mem_map_of_mem hcall)
      exact hdisjoint _ hstarted _ List.mem_cons_self hsame
    refine ⟨⟨⟨hworkers, hrank, by omega, ?_⟩, Round.positionsKept hrank hnew hstate⟩,
      hworkers, hrank, hrequest, ?_⟩
    · intro call hcall hsame
      exact absurd hsame (hnew call hcall)
    · intro call hcall hsame
      exact absurd hsame (hnew call hcall)
  exact Service.reachable_state haccept (fun _ _ => ⟨⟨trivial, trivial⟩, trivial⟩) hreach

/-- In one round every call joins operation `0`. -/
theorem Round.waits_first {s : System} (hreach : machine.Reachable (RoundCalls n root) s)
    (hnodup : ((service.started s).map Request.rank).Nodup) {call : Call} (hmem : call ∈ s.calls)
    {idx event : Nat} (hphase : call.phase = .waiting idx event) : event = 0 := by
  obtain ⟨l, rfl, hinv⟩ := reachable_inv (hreach.weaken fun _ _ h => h.1)
  have hlt := hinv.joined_lt hmem (hinv.waits call hmem idx event hphase)
  have hone : (joinedOps l.calls call.request.rank).length ≤ 1 := by
    have hcount := List.nodup_iff_count_le_one.mp hnodup call.request.rank
    have hranks : (service.started l.system).map Request.rank =
        l.calls.map fun c => c.request.rank := List.map_map
    rw [hranks, List.count_eq_countP, List.countP_map] at hcount
    rw [joinedOps, List.length_map, ← List.countP_eq_length_filter]
    exact hcount
  omega

/-- A round whose root gets one of the first threads is released. -/
theorem deadlockFree (hround : Round n root order) (hroot : root < n)
    (hfirst : ∃ request ∈ order.take threads, request.rank = root) :
    service.DeadlockFree threads order := by
  intro p hreach hstuck
  obtain ⟨hdisabled, hthreads⟩ := hstuck.cases
  have hrequests := Service.requests_eq hreach
  rw [hstuck.received, List.append_nil] at hrequests
  have hstate := hround.reachable hroot hreach
  -- the root is running
  obtain ⟨request, hrequest, hrank⟩ := hfirst
  have hstarted : request ∈ service.started p.state := by
    rw [← hrequests] at hrequest
    rcases hthreads with hqueue | hfull
    · rw [hqueue, List.append_nil] at hrequest
      exact List.mem_of_mem_take hrequest
    · have hlength := Nat.le_trans hfull (service.busy_le p.state)
      rw [List.take_append_of_le_length hlength] at hrequest
      exact List.mem_of_mem_take hrequest
  obtain ⟨rootCall, hrootCall, hcalled⟩ := List.mem_map.mp hstarted
  have hposition : 0 < threads := by
    by_contra hzero
    simp [Nat.eq_zero_of_not_pos hzero] at hrequest
  have hbusy : 0 < p.state.calls.countP fun call => !call.isFinished := by
    rcases hthreads with hqueue | hfull
    · rcases hstuck.unfinished with hne | hbusy
      · exact absurd hqueue hne
      · exact hbusy
    · exact Nat.lt_of_lt_of_le hposition hfull
  obtain ⟨call, hmem, hrunning⟩ := List.countP_pos_iff.mp hbusy
  obtain ⟨idx, event, hphase, hunset⟩ :=
    waiting_of_disabled hdisabled hmem (by simpa using hrunning)
  have hnodup : ((service.started p.state).map Request.rank).Nodup := by
    have hall := hround.nodup
    rw [← hrequests, List.map_append] at hall
    exact (List.nodup_append.mp hall).1
  obtain rfl := Round.waits_first hstate hnodup hmem hphase
  -- the root has set the event of operation `0`
  apply hunset
  rw [flag_iff hroot (hstate.weaken fun _ _ h => h.2)]
  have hfiltered : rootCall ∈ p.state.callsOf root := by
    rw [System.callsOf, List.mem_filter]
    exact ⟨hrootCall, by simp [hcalled, hrank]⟩
  exact List.length_pos_of_mem hfiltered

/-- Every call waits for the only operation, which has no value yet. -/
structure Parked (n : Nat) (s : System) : Prop where
  state : ∃ entries flags, s.state = ofEntries entries flags ∧
    (entries = [] ∧ flags = [] ∨ entries = [Entry.fresh n 0] ∧ flags = [false])
  waiting : ∀ call ∈ s.calls, call.phase = .waiting 0 0

theorem Parked.initial : Parked n ⟨.initial, []⟩ where
  state := ⟨[], [], rfl, .inl ⟨rfl, rfl⟩⟩
  waiting := by simp

theorem Parked.blocked {s : System} (h : Parked n s) (index : Nat) :
    step s (.resume index) = none := by
  cases hcall : s.calls[index]? with
  | none => simp [step, hcall]
  | some call =>
      have hphase := h.waiting call (List.mem_of_getElem? hcall)
      have hunset : s.state.eventFlags[0]? ≠ some true := by
        obtain ⟨entries, flags, hstate, ⟨-, rfl⟩ | ⟨-, rfl⟩⟩ := h.state <;> simp [hstate]
      simp [step, hcall, resumeCall, hphase, hunset]

theorem Parked.busy {s : System} (h : Parked n s) :
    service.busy s = (service.started s).length := by
  show s.calls.countP (fun call => !call.isFinished) = (s.calls.map Call.request).length
  rw [List.length_map]
  apply List.countP_eq_length.mpr
  intro call hcall
  simp [Call.isFinished, h.waiting call hcall]

/-- A call that is not the root's joins the operation and waits. -/
theorem Parked.next {s : System} (h : Parked n s) {request : Request}
    (hworkers : request.numWorkers = n) (hrank : request.rank < n)
    (hother : request.rank ≠ request.root) :
    ∃ t, step s (.enter request) = some t ∧ Parked n t := by
  obtain ⟨entries, flags, hstate, hcases⟩ := h.state
  have hunserved : (Entry.fresh n 0).unserved request.rank = true := by
    simp [Entry.unserved, Entry.fresh, hrank]
  have hselect : select n request.rank entries flags = ([Entry.fresh n 0], [false], 0) := by
    rcases hcases with ⟨rfl, rfl⟩ | ⟨rfl, rfl⟩
    · rfl
    · simp [select, Entry.isOpen_of_unserved hunserved, hunserved]
  have hrows : ∀ e ∈ entries, request.rank < e.row.length := by
    rcases hcases with ⟨rfl, -⟩ | ⟨rfl, -⟩
    · simp
    · simpa [Entry.fresh] using hrank
  have henter := enter_apply flags hrows
  rw [hworkers, hselect, serve_wait hother (e := Entry.fresh n 0) rfl rfl, ← hstate] at henter
  refine ⟨⟨ofEntries [Entry.fresh n 0] [false], s.calls ++ [⟨request, some 0, .waiting 0 0⟩]⟩,
    ?_, ?_⟩
  · have hnumber : (Entry.fresh n 0).event = 0 := rfl
    simp [step, startCall, henter, hnumber]
  · exact ⟨⟨_, _, rfl, .inr ⟨rfl, rfl⟩⟩, forall_mem_snoc h.waiting rfl⟩

/-- When the root is not among the calls that get the first threads, these calls take all
threads and wait for it. -/
theorem stuck (hround : Round n root order) (hroot : root < n)
    (hlate : ∀ request ∈ order.take threads, request.rank ≠ root) :
    ∃ p, (service.executor threads order).Reachable Machine.anyMove p ∧
      service.Stuck threads p := by
  have hlt : threads < order.length := by
    by_contra hge
    rw [List.take_of_length_le (Nat.not_lt.mp hge)] at hlate
    have hmem : root ∈ order.map Request.rank :=
      hround.ranks.mem_iff.mpr (List.mem_range.mpr hroot)
    obtain ⟨request, hrequest, hrank⟩ := List.mem_map.mp hmem
    exact hlate request hrequest hrank
  refine Service.exists_stuck (show machine.init ⟨.initial, []⟩ from rfl)
    (Parked.initial : Parked n _) hlt ?_ (fun s => Parked.busy) (fun s => Parked.blocked)
  intro s request rest hparked hsplit hcount
  have hmem : request ∈ order := by
    rw [← hsplit]
    simp
  have hearly : request ∈ order.take threads := by
    rw [← hsplit, List.take_append, List.mem_append]
    obtain ⟨k, hk⟩ : ∃ k, threads - (service.started s).length = k + 1 :=
      Nat.exists_eq_add_one_of_ne_zero (by omega)
    rw [hk, List.take_succ_cons]
    exact .inr List.mem_cons_self
  have hother : request.rank ≠ request.root := by
    rw [hround.root request hmem]
    exact hlate request hearly
  obtain ⟨t, henter, ht⟩ :=
    hparked.next (hround.workers request hmem) (hround.rank_lt hmem) hother
  exact ⟨t, t, henter, .refl, ht⟩

/-- A round of `Broadcast` cannot get stuck exactly when the root gets one of the first
threads. -/
theorem deadlockFree_iff (hround : Round n root order) (hroot : root < n) :
    service.DeadlockFree threads order ↔ ∃ request ∈ order.take threads, request.rank = root := by
  constructor
  · intro hfree
    by_contra hnone
    have hlate : ∀ request ∈ order.take threads, request.rank ≠ root :=
      fun request hrequest hrank => hnone ⟨request, hrequest, hrank⟩
    obtain ⟨p, hreach, hstuck⟩ := stuck hround hroot hlate
    exact hfree p hreach hstuck
  · exact deadlockFree hround hroot

end Broadcast

/-! ### One round behind the pool of the server -/

/-- A round of `n` Barrier calls. -/
structure BarrierRound (n : Nat) (order : List (ι × Rpc)) : Prop where
  length : order.length = n
  barrier : ∀ call ∈ order, call.2 = .barrier ⟨n⟩

/-- The call is the one of the root of a session. -/
def Rpc.isRoot : Rpc → Bool
  | .barrier _ => false
  | .rdmaSession request => request.root == 1

/-- A round of `n` RdmaSession calls of one session with one root. -/
structure SessionRound (n sessionId : Nat) (order : List (ι × Rpc)) : Prop where
  length : order.length = n
  session : ∀ call ∈ order, ∃ request, call.2 = .rdmaSession request ∧
    request.sessionId = sessionId ∧ request.numWorkers = n
  root : (order.countP fun call => call.2.isRoot) = 1

/-- **Deadlocks of a round.**  Behind the thread pool of the server no reachable state of
a round is stuck exactly when

* the `n` calls of a round of Barrier or RdmaSession are at most as many as there are
  threads;
* the root of a round of Broadcast is among the calls that arrive first, as many as there
  are threads. -/
theorem round_deadlockFree {n : Nat} (hn : 1 ≤ n) :
    (∀ order : List (ι × Rpc), BarrierRound n order →
      ((rendezvousService ι).DeadlockFree maxWorkers order ↔ n ≤ maxWorkers)) ∧
    (∀ sessionId, ∀ order : List (ι × Rpc), SessionRound n sessionId order →
      ((rendezvousService ι).DeadlockFree maxWorkers order ↔ n ≤ maxWorkers)) ∧
    (∀ root order, root < n → Broadcast.Round n root order →
      (Broadcast.service.DeadlockFree maxWorkers order ↔
        ∃ request ∈ order.take maxWorkers, request.rank = root)) := by
  refine ⟨?_, ?_, ?_⟩
  · intro order hround
    apply rendezvous_deadlockFree_iff hn hround.length
    intro call hcall
    rw [hround.barrier call hcall]
    rfl
  · intro sessionId order hround
    apply rendezvous_deadlockFree_iff hn hround.length
    intro call hcall
    obtain ⟨request, hrpc, -, hworkers⟩ := hround.session call hcall
    rw [hrpc]
    exact hworkers
  · intro root order hroot hround
    exact Broadcast.deadlockFree_iff hround hroot

/-- Two workers fit: a Barrier round and a Broadcast round of two are never stuck. -/
theorem round_deadlockFree_two_workers :
    (rendezvousService Nat).DeadlockFree maxWorkers [(0, .barrier ⟨2⟩), (1, .barrier ⟨2⟩)] ∧
      Broadcast.service.DeadlockFree maxWorkers [⟨0, 1, 2, 0⟩, ⟨7, 0, 2, 0⟩] := by
  obtain ⟨hbarrier, -, hbroadcast⟩ := @round_deadlockFree Nat 2 (by decide)
  constructor
  · exact (hbarrier _ ⟨rfl, by simp⟩).mpr (by decide)
  · apply (hbroadcast 0 _ (by decide) ⟨by decide, by decide, by decide⟩).mpr
    exact ⟨⟨7, 0, 2, 0⟩, by decide, rfl⟩

/-- Eleven Barrier calls with `num_workers = 11` can get stuck: ten of them wait on all
the threads, and the last one is not started. -/
theorem barrier_round_deadlock :
    ¬ ∀ n ≥ 1, ∀ order : List (Nat × Rpc), BarrierRound n order →
      (rendezvousService Nat).DeadlockFree maxWorkers order := by
  intro hall
  have hround : BarrierRound 11 ((List.range 11).map fun client => (client, Rpc.barrier ⟨11⟩)) := by
    constructor
    · rfl
    · intro call hcall
      obtain ⟨client, -, rfl⟩ := List.mem_map.mp hcall
      rfl
  have hworkers : ∀ call ∈ (List.range 11).map fun client => (client, Rpc.barrier ⟨11⟩),
      call.2.numWorkers = 11 := by
    intro call hcall
    rw [hround.barrier call hcall]
    rfl
  obtain ⟨p, hreach, hstuck⟩ := rendezvous_stuck hround.length hworkers
    (show maxWorkers < 11 by decide)
  exact hall 11 (by decide) _ hround p hreach hstuck

end Controller
end FlashReduce
