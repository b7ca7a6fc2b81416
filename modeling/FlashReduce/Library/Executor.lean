import FlashReduce.Library.Transition
import Mathlib.Data.List.Induction
import Mathlib.Logic.Relation

/-!
# A bounded pool of threads in front of a machine

A service runs the handler of every request on one thread, from its first step
to its last; a handler that blocks keeps its thread.  Requests that find no free
thread wait in a queue, in the order in which they arrived.

* `Service` describes the handlers as a machine: `accept` is the first step of a
  request, `resume` a later step of a call.  Its fields say that the requests
  started so far can be read off a state, and that no more calls are busy than
  were started.
* `Service.executor` is the service behind a pool of `threads` threads, with one
  list of requests that arrive one after the other.
* A pool is `Stuck` when every request has been received, a call is not over, and
  no step is enabled.  `Stuck.cases` is what a proof of deadlock freedom starts
  from; `exists_parked` runs a pool to a state in which its threads are all taken, and
  `exists_stuck` to one in which it is stuck.
-/

namespace FlashReduce
namespace Library

variable {State Action Request : Type*}

/-- The handlers of a service.  `started` lists the requests whose handler has begun,
`busy` counts the calls that occupy a thread. -/
structure Service (State Action Request : Type*) where
  machine : Machine State Action
  accept : Request → Action
  resume : Nat → Action
  started : State → List Request
  busy : State → Nat
  accept_enabled : ∀ s request, (machine.step s (accept request)).isSome = true
  started_init : ∀ s, machine.init s → started s = []
  started_accept : ∀ s request t, machine.step s (accept request) = some t →
    started t = started s ++ [request]
  started_resume : ∀ s index t, machine.step s (resume index) = some t → started t = started s
  busy_le : ∀ s, busy s ≤ (started s).length

/-- The requests that have not arrived, those that wait for a thread, and the state of
the service. -/
structure Pool (State Request : Type*) where
  incoming : List Request
  queue : List Request
  state : State

/-- A request arrives, a free thread takes the first request of the queue, or a call in
progress takes a step. -/
inductive PoolAction
  | arrive
  | start
  | resume (index : Nat)

namespace Service

variable (service : Service State Action Request) (threads : Nat)

def step (p : Pool State Request) : PoolAction → Option (Pool State Request)
  | .arrive =>
      match p.incoming with
      | [] => none
      | request :: rest => some { p with incoming := rest, queue := p.queue ++ [request] }
  | .start =>
      if service.busy p.state < threads then
        match p.queue with
        | [] => none
        | request :: rest =>
            (service.machine.step p.state (service.accept request)).map fun t =>
              { p with queue := rest, state := t }
      else none
  | .resume index =>
      (service.machine.step p.state (service.resume index)).map fun t => { p with state := t }

/-- The pool that receives the requests of `order`, one after the other. -/
def executor (order : List Request) : Machine (Pool State Request) PoolAction where
  init p := p.incoming = order ∧ p.queue = [] ∧ service.machine.init p.state
  step := service.step threads

/-- All requests have been received, one of their calls is not over, and no step is
enabled. -/
structure Stuck (p : Pool State Request) : Prop where
  received : p.incoming = []
  unfinished : p.queue ≠ [] ∨ 0 < service.busy p.state
  disabled : ∀ action, service.step threads p action = none

/-- No state that the pool can reach is stuck. -/
def DeadlockFree (order : List Request) : Prop :=
  ∀ p, (service.executor threads order).Reachable Machine.anyMove p → ¬ service.Stuck threads p

variable {service threads} {order : List Request} {p : Pool State Request}

/-- A free thread takes the first request of the queue. -/
theorem step_start {incoming rest : List Request} {request : Request} {s t : State}
    (hbusy : service.busy s < threads)
    (haccept : service.machine.step s (service.accept request) = some t) :
    service.step threads ⟨incoming, request :: rest, s⟩ .start = some ⟨incoming, rest, t⟩ := by
  simp [step, hbusy, haccept]

/-- What a step of the pool does. -/
theorem step_cases {incoming queue : List Request} {s : State} {action : PoolAction}
    {p' : Pool State Request} (h : service.step threads ⟨incoming, queue, s⟩ action = some p') :
    (∃ request rest, action = .arrive ∧ incoming = request :: rest ∧
        p' = ⟨rest, queue ++ [request], s⟩) ∨
      (∃ request rest t, action = .start ∧ service.busy s < threads ∧ queue = request :: rest ∧
        service.machine.step s (service.accept request) = some t ∧ p' = ⟨incoming, rest, t⟩) ∨
      ∃ index t, action = .resume index ∧
        service.machine.step s (service.resume index) = some t ∧ p' = ⟨incoming, queue, t⟩ := by
  cases action with
  | arrive =>
      cases incoming with
      | nil => cases h
      | cons request rest => exact .inl ⟨request, rest, rfl, rfl, (Option.some.inj h).symm⟩
  | start =>
      simp only [step] at h
      split at h
      · next hbusy =>
        cases queue with
        | nil => cases h
        | cons request rest =>
            obtain ⟨t, hnext, rfl⟩ := Option.map_eq_some_iff.mp h
            exact .inr (.inl ⟨request, rest, t, rfl, hbusy, rfl, hnext, rfl⟩)
      · cases h
  | resume index =>
      obtain ⟨t, hnext, rfl⟩ := Option.map_eq_some_iff.mp h
      exact .inr (.inr ⟨index, t, rfl, hnext, rfl⟩)

/-- Every request is started, queued or still to arrive, in the order of arrival. -/
theorem requests_eq (hreach : (service.executor threads order).Reachable Machine.anyMove p) :
    service.started p.state ++ p.queue ++ p.incoming = order := by
  refine hreach.invariant
    (fun p => service.started p.state ++ p.queue ++ p.incoming = order) ?_ ?_
  · rintro p ⟨hincoming, hqueue, hinit⟩
    rw [hincoming, hqueue, service.started_init _ hinit]
    rfl
  · rintro ⟨incoming, queue, s⟩ action p' hrequests - hstep
    obtain ⟨request, rest, -, rfl, rfl⟩ | ⟨request, rest, t, -, -, rfl, hnext, rfl⟩ |
      ⟨index, t, -, hnext, rfl⟩ := step_cases hstep
    · simpa using hrequests
    · simpa [service.started_accept _ _ _ hnext] using hrequests
    · simpa [service.started_resume _ _ _ hnext] using hrequests

/-- **The service behind the pool.**  What holds of every state that the service can
reach when its requests start in the order of arrival holds behind the pool. -/
theorem reachable_state {guard : State → Action → Prop}
    (haccept : ∀ s, service.machine.Reachable guard s → ∀ request rest,
      service.started s ++ request :: rest = order → guard s (service.accept request))
    (hresume : ∀ s index, guard s (service.resume index))
    (hreach : (service.executor threads order).Reachable Machine.anyMove p) :
    service.machine.Reachable guard p.state := by
  refine hreach.induction (fun p => service.machine.Reachable guard p.state) ?_ ?_
  · rintro p ⟨-, -, hinit⟩
    exact .initial hinit
  · rintro ⟨incoming, queue, s⟩ action p' hbefore hstate - hstep
    have hrequests := requests_eq hbefore
    obtain ⟨request, rest, -, rfl, rfl⟩ | ⟨request, rest, t, -, -, rfl, hnext, rfl⟩ |
      ⟨index, t, -, hnext, rfl⟩ := step_cases hstep
    · exact hstate
    · have hguard := haccept s hstate request (rest ++ incoming) (by simpa using hrequests)
      exact hstate.step hguard hnext
    · exact hstate.step (hresume s index) hnext

/-- In a stuck pool no call can go on, and a request in the queue finds every thread
taken. -/
theorem Stuck.cases (h : service.Stuck threads p) :
    (∀ index, service.machine.step p.state (service.resume index) = none) ∧
      (p.queue = [] ∨ threads ≤ service.busy p.state) := by
  constructor
  · intro index
    simpa [step] using h.disabled (.resume index)
  · by_contra hfree
    obtain ⟨hqueue, hbusy⟩ := not_or.mp hfree
    obtain ⟨request, rest, hcons⟩ := List.exists_cons_of_ne_nil hqueue
    obtain ⟨t, hnext⟩ := Option.isSome_iff_exists.mp (service.accept_enabled p.state request)
    have hstart := h.disabled .start
    simp [step, Nat.lt_of_not_le hbusy, hcons, hnext] at hstart

/-! ### Taking all threads -/

variable (service) in
/-- Later steps of calls, without a new one. -/
abbrev Resumes : State → State → Prop :=
  Relation.ReflTransGen fun s t => ∃ index, service.machine.step s (service.resume index) = some t

theorem started_resumes {s t : State} (h : service.Resumes s t) :
    service.started t = service.started s := by
  induction h with
  | refl => rfl
  | tail _ hstep ih =>
      obtain ⟨index, hnext⟩ := hstep
      rw [service.started_resume _ _ _ hnext, ih]

/-- The pool follows the later steps of the service. -/
theorem reachable_resumes {incoming queue : List Request} {s t : State}
    (hreach : (service.executor threads order).Reachable Machine.anyMove ⟨incoming, queue, s⟩)
    (h : service.Resumes s t) :
    (service.executor threads order).Reachable Machine.anyMove ⟨incoming, queue, t⟩ := by
  induction h with
  | refl => exact hreach
  | @tail u t _ hstep ih =>
      obtain ⟨index, hnext⟩ := hstep
      have hpool : (service.executor threads order).step ⟨incoming, queue, u⟩ (.resume index) =
          some ⟨incoming, queue, t⟩ := by
        simp [executor, step, hnext]
      exact ih.step trivial hpool

/-- All requests can arrive before the first one is started. -/
theorem reachable_received {s : State} (hinit : service.machine.init s) :
    (service.executor threads order).Reachable Machine.anyMove ⟨[], order, s⟩ := by
  have harrive (front back : List Request) (hsplit : front ++ back = order) :
      (service.executor threads order).Reachable Machine.anyMove ⟨back, front, s⟩ := by
    induction front using List.reverseRecOn generalizing back with
    | nil =>
        subst hsplit
        exact .initial ⟨rfl, rfl, hinit⟩
    | append_singleton front request ih =>
        have hbefore := ih (request :: back) (by simpa using hsplit)
        have harrived : (service.executor threads order).step ⟨request :: back, front, s⟩ .arrive =
            some ⟨back, front ++ [request], s⟩ := rfl
        exact hbefore.step trivial harrived
  exact harrive order [] (List.append_nil order)

/-- When each of the first `k` requests can be started and brought to a `parked` state,
the pool reaches one with these requests started and the others in the queue. -/
theorem exists_parked {parked : State → Prop} {s₀ : State} (hinit : service.machine.init s₀)
    (hparked : parked s₀) {k : Nat} (hthreads : k ≤ threads) (hlength : k ≤ order.length)
    (hnext : ∀ s request rest, parked s → service.started s ++ request :: rest = order →
      (service.started s).length < k → ∃ t u,
        service.machine.step s (service.accept request) = some t ∧ service.Resumes t u ∧
          parked u) :
    ∃ s, parked s ∧ service.started s = order.take k ∧
      (service.executor threads order).Reachable Machine.anyMove ⟨[], order.drop k, s⟩ := by
  induction k with
  | zero => exact ⟨s₀, hparked, service.started_init s₀ hinit, reachable_received hinit⟩
  | succ k ih =>
      obtain ⟨s, hs, hstarted, hreach⟩ := ih (by omega) (by omega)
        (fun s request rest h hsplit hlt => hnext s request rest h hsplit (by omega))
      have hcons : order.drop k = order[k] :: order.drop (k + 1) := List.drop_eq_getElem_cons _
      have hcount : (service.started s).length = k := by
        rw [hstarted, List.length_take]
        omega
      obtain ⟨t, u, haccept, hresumes, hu⟩ := hnext s order[k] (order.drop (k + 1)) hs
        (by rw [hstarted, ← hcons, List.take_append_drop]) (by omega)
      refine ⟨u, hu, ?_, ?_⟩
      · rw [started_resumes hresumes, service.started_accept _ _ _ haccept, hstarted,
          List.take_append_getElem]
      · rw [hcons] at hreach
        have hbusy : service.busy s < threads := by
          have hle := service.busy_le s
          omega
        have hpool : (service.executor threads order).step
            ⟨[], order[k] :: order.drop (k + 1), s⟩ .start = some ⟨[], order.drop (k + 1), t⟩ :=
          step_start hbusy haccept
        exact reachable_resumes (hreach.step trivial hpool) hresumes

/-- A pool whose threads are all taken by calls that cannot go on is stuck while the
queue is not empty. -/
theorem stuck_of_parked {s : State} {queue : List Request} (hqueue : queue ≠ [])
    (hbusy : threads ≤ service.busy s)
    (hblocked : ∀ index, service.machine.step s (service.resume index) = none) :
    service.Stuck threads ⟨[], queue, s⟩ where
  received := rfl
  unfinished := .inl hqueue
  disabled := by
    intro action
    cases action with
    | arrive => rfl
    | start => simp [step, Nat.not_lt.mpr hbusy]
    | resume index => simp [step, hblocked]

/-- **A pool that gets stuck**: the requests that get the first threads can be brought to a
`parked` state, in which no call is over and none can go on, and there are more of them. -/
theorem exists_stuck {parked : State → Prop} {s₀ : State} (hinit : service.machine.init s₀)
    (hparked : parked s₀) (hlt : threads < order.length)
    (hnext : ∀ s request rest, parked s → service.started s ++ request :: rest = order →
      (service.started s).length < threads → ∃ t u,
        service.machine.step s (service.accept request) = some t ∧ service.Resumes t u ∧
          parked u)
    (hbusy : ∀ s, parked s → service.busy s = (service.started s).length)
    (hblocked : ∀ s, parked s → ∀ index, service.machine.step s (service.resume index) = none) :
    ∃ p, (service.executor threads order).Reachable Machine.anyMove p ∧
      service.Stuck threads p := by
  obtain ⟨s, hs, hstarted, hreach⟩ :=
    exists_parked hinit hparked (Nat.le_refl threads) (Nat.le_of_lt hlt) hnext
  have hcount : (service.started s).length = threads := by
    rw [hstarted, List.length_take]
    omega
  refine ⟨_, hreach, stuck_of_parked ?_ ?_ (hblocked s hs)⟩
  · rw [Ne, List.drop_eq_nil_iff]
    omega
  · have hall := hbusy s hs
    omega

end Service
end Library
end FlashReduce
