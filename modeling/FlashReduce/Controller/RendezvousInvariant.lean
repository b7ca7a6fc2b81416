import FlashReduce.Controller.Rendezvous
import FlashReduce.Library.ListUpdate

/-!
# The bookkeeping of the rendezvous

`Inv` is what holds in every reachable state, for any calls with any
`num_workers`:

* the counter of the open operation is the number of calls that joined it, the
  counter of a closed operation is the number of calls that joined it minus the
  number that counted themselves out, and a closed operation's entries are gone
  exactly when that difference is zero;
* `_barrier_events` has the same keys as `_barrier_ctrs`, and the event of
  operation `k` is the `k`-th event ever created, set exactly when `k` is
  closed;
* a call that was woken, or has counted itself out, belongs to a closed
  operation.

`Move` lists what one step can do in a state with `Inv`; `step_move` shows that
the list is complete, so no later proof unfolds a handler.
-/

namespace FlashReduce
namespace Controller

open Library

variable {ι : Type}

/-! ### The effect of each piece -/

/-- What a call's first locked section does to `_sessions`. -/
def Rpc.register : Rpc → OrderedDict Nat SessionRecord → OrderedDict Nat SessionRecord
  | .barrier _, sessions => sessions
  | .rdmaSession request, sessions =>
      let session := (sessions.get? request.sessionId).getD ⟨none, .empty⟩
      let sessions :=
        if (sessions.get? request.sessionId).isSome then sessions
        else sessions.set request.sessionId ⟨none, .empty⟩
      if request.root = 1 then
        sessions.set request.sessionId { session with root := some request }
      else
        sessions.set request.sessionId
          { session with workers := session.workers.set request.rank request }

/-- The open operation has one more call. -/
def Rendezvous.join (self : Rendezvous) (rpc : Rpc) (ctr : Int) : Rendezvous :=
  { self with
    barrierCtrs := self.barrierCtrs.set self.barrierOpId (ctr + 1)
    sessions := rpc.register self.sessions }

/-- The open operation is closed and the next one opened. -/
def Rendezvous.close (self : Rendezvous) : Rendezvous :=
  { self with
    barrierOpId := self.barrierOpId + 1
    barrierCtrs := self.barrierCtrs.set (self.barrierOpId + 1) 0
    barrierEvents := self.barrierEvents.set (self.barrierOpId + 1) self.eventFlags.length
    eventFlags := self.eventFlags.set self.barrierOpId true ++ [false] }

/-- A call of a closed operation has counted itself out. -/
def Rendezvous.countOut (self : Rendezvous) (op : Nat) (ctr : Int) : Rendezvous :=
  if ctr - 1 = 0 then
    { self with
      barrierCtrs := (self.barrierCtrs.set op (ctr - 1)).erase op
      barrierEvents := self.barrierEvents.erase op }
  else
    { self with barrierCtrs := self.barrierCtrs.set op (ctr - 1) }

@[simp] theorem Rendezvous.join_barrierOpId (self : Rendezvous) (rpc : Rpc) (ctr : Int) :
    (self.join rpc ctr).barrierOpId = self.barrierOpId := rfl

@[simp] theorem Rendezvous.join_barrierEvents (self : Rendezvous) (rpc : Rpc) (ctr : Int) :
    (self.join rpc ctr).barrierEvents = self.barrierEvents := rfl

@[simp] theorem Rendezvous.join_eventFlags (self : Rendezvous) (rpc : Rpc) (ctr : Int) :
    (self.join rpc ctr).eventFlags = self.eventFlags := rfl

@[simp] theorem Rendezvous.join_sessions (self : Rendezvous) (rpc : Rpc) (ctr : Int) :
    (self.join rpc ctr).sessions = rpc.register self.sessions := rfl

@[simp] theorem Rendezvous.close_barrierOpId (self : Rendezvous) :
    self.close.barrierOpId = self.barrierOpId + 1 := rfl

@[simp] theorem Rendezvous.close_sessions (self : Rendezvous) :
    self.close.sessions = self.sessions := rfl

@[simp] theorem Rendezvous.countOut_barrierOpId (self : Rendezvous) (op : Nat) (ctr : Int) :
    (self.countOut op ctr).barrierOpId = self.barrierOpId := by
  unfold countOut
  split <;> rfl

@[simp] theorem Rendezvous.countOut_eventFlags (self : Rendezvous) (op : Nat) (ctr : Int) :
    (self.countOut op ctr).eventFlags = self.eventFlags := by
  unfold countOut
  split <;> rfl

@[simp] theorem Rendezvous.countOut_sessions (self : Rendezvous) (op : Nat) (ctr : Int) :
    (self.countOut op ctr).sessions = self.sessions := by
  unfold countOut
  split <;> rfl

/-- A closed operation with one more call counted out. -/
theorem Rendezvous.countOut_barrierCtrs (self : Rendezvous) (op : Nat) (ctr : Int) (op' : Nat) :
    (self.countOut op ctr).barrierCtrs.get? op' =
      if op' = op then (if ctr = 1 then none else some (ctr - 1))
      else self.barrierCtrs.get? op' := by
  unfold countOut
  by_cases hop : op' = op
  · subst hop
    by_cases hlast : ctr = 1
    · simp [hlast]
    · have hpos : ¬ ctr - 1 = 0 := by omega
      simp [hlast, hpos]
  · split <;> simp [hop]

/-- The event goes with the counter. -/
theorem Rendezvous.countOut_barrierEvents (self : Rendezvous) (op : Nat) (ctr : Int) (op' : Nat) :
    (self.countOut op ctr).barrierEvents.get? op' =
      if op' = op ∧ ctr = 1 then none else self.barrierEvents.get? op' := by
  unfold countOut
  by_cases hlast : ctr = 1
  · simp [hlast]
  · have hpos : ¬ ctr - 1 = 0 := by omega
    simp [hlast, hpos]

theorem counter_apply {self : Rendezvous} {op : Nat} {ctr : Int}
    (h : self.barrierCtrs.get? op = some ctr) : counter op self = (.ok ctr, self) := by
  simp [counter, h]

/-- Registering never raises: the record is created when it is missing. -/
theorem registerSession_apply (request : RdmaSessionRequest) (self : Rendezvous) :
    registerSession request self =
      (.ok (), { self with sessions := (Rpc.rdmaSession request).register self.sessions }) := by
  cases hsession : self.sessions.get? request.sessionId with
  | none =>
      by_cases hroot : request.root = 1 <;>
        simp [registerSession, Rpc.register, hsession, hroot]
  | some session =>
      by_cases hroot : request.root = 1 <;> simp [registerSession, Rpc.register, hsession, hroot]

theorem joinOp_apply {self : Rendezvous} {ctr : Int} {event numWorkers : Nat} (rpc : Rpc)
    {register : Handler Unit}
    (hregister : ∀ other, register other =
      (.ok (), { other with sessions := rpc.register other.sessions }))
    (hctr : self.barrierCtrs.get? self.barrierOpId = some ctr)
    (hevent : self.barrierEvents.get? self.barrierOpId = some event) :
    joinOp numWorkers register self =
      (.ok (self.barrierOpId, event),
        if ctr + 1 < numWorkers then self.join rpc ctr
        else
          { (self.join rpc ctr).close with
            eventFlags := self.eventFlags.set event true ++ [false] }) := by
  by_cases hlt : ctr + 1 < (numWorkers : Int)
  · simp [joinOp, addToCounter, counter, barrierEvent, hregister, hctr, hevent, hlt,
      Rendezvous.join]
  · simp [joinOp, addToCounter, counter, barrierEvent, hregister, hctr, hevent, hlt,
      setEvent, openNextOp, Rendezvous.join, Rendezvous.close]

theorem Rpc.enter_apply {self : Rendezvous} {ctr : Int} (rpc : Rpc)
    (hctr : self.barrierCtrs.get? self.barrierOpId = some ctr)
    (hevent : self.barrierEvents.get? self.barrierOpId = some self.barrierOpId) :
    rpc.enter self =
      (.ok (self.barrierOpId, self.barrierOpId),
        if ctr + 1 < rpc.numWorkers then self.join rpc ctr else (self.join rpc ctr).close) := by
  cases rpc with
  | barrier request =>
      exact joinOp_apply (.barrier request) (fun _ => rfl) hctr hevent
  | rdmaSession request =>
      exact joinOp_apply (.rdmaSession request) (registerSession_apply request) hctr hevent

theorem leaveOp_apply {self : Rendezvous} {op event : Nat} {ctr : Int}
    (hctr : self.barrierCtrs.get? op = some ctr)
    (hevent : self.barrierEvents.get? op = some event) :
    leaveOp op self = (.ok (), self.countOut op ctr) := by
  by_cases hzero : ctr + -1 = 0
  · have hzero' : ctr - 1 = 0 := by omega
    simp [leaveOp, addToCounter, counter, barrierEvent, hctr, hevent, hzero, hzero',
      Rendezvous.countOut]
  · simp [leaveOp, addToCounter, counter, hctr, hzero, Rendezvous.countOut,
      Int.sub_eq_add_neg]

theorem counter_readOnly (op : Nat) : Fallible.ReadOnly (counter op) :=
  Fallible.readOnly_read.bind fun _ => Fallible.readOnly_demand _ _

theorem mustWait_readOnly (numWorkers op : Nat) : Fallible.ReadOnly (mustWait numWorkers op) :=
  (counter_readOnly op).bind fun _ => Fallible.readOnly_pure _

theorem lookupPeer_readOnly (request : RdmaSessionRequest) :
    Fallible.ReadOnly (lookupPeer request) := by
  refine Fallible.readOnly_read.bind fun self => ?_
  refine (Fallible.readOnly_demand _ _).bind fun session => ?_
  split
  · refine (Fallible.readOnly_demand _ _).bind fun peer => ?_
    exact (Fallible.readOnly_demand _ _).bind fun req => Fallible.readOnly_pure _
  · exact (Fallible.readOnly_demand _ _).bind fun req => Fallible.readOnly_pure _

/-- What a call does after the rendezvous changes nothing. -/
theorem Rpc.finish_readOnly (rpc : Rpc) : Fallible.ReadOnly rpc.finish := by
  cases rpc with
  | barrier request => exact Fallible.readOnly_pure _
  | rdmaSession request =>
      exact (lookupPeer_readOnly request).bind fun response => Fallible.readOnly_pure _

/-- The next piece of a call changes this call only. -/
theorem resume_cases {s s' : System ι} {index : Nat} (h : step s (.resume index) = some s') :
    ∃ call controller' call', s.calls[index]? = some call ∧
      resumeCall s.controller call = some (controller', call') ∧
        s' = ⟨controller', s.calls.set index call'⟩ := by
  unfold step at h
  dsimp only at h
  split at h
  · cases h
  · next call hcall =>
    split at h
    · cases h
    · next controller' call' hresume =>
      exact ⟨call, controller', call', hcall, hresume, (Option.some.inj h).symm⟩

/-- Who called, and with what. -/
def Call.origin (call : Call ι) : ι × Rpc := (call.client, call.rpc)

theorem startCall_origin (controller : Rendezvous) (client : ι) (rpc : Rpc) :
    (startCall controller client rpc).2.origin = (client, rpc) := by
  unfold startCall
  split <;> rfl

theorem resumeCall_origin {controller controller' : Rendezvous} {call call' : Call ι}
    (h : resumeCall controller call = some (controller', call')) :
    call'.origin = call.origin := by
  unfold resumeCall at h
  cases hphase : call.phase with
  | entered event =>
      simp only [hphase] at h
      split at h <;> cases h <;> rfl
  | waiting event =>
      simp only [hphase] at h
      split at h <;> cases h
      rfl
  | woken =>
      simp only [hphase] at h
      split at h <;> cases h <;> rfl
  | passed =>
      simp only [hphase] at h
      split at h <;> cases h <;> rfl
  | returned response => simp [hphase] at h
  | raised error => simp [hphase] at h

/-! ### The invariant -/

/-- How many calls joined an operation. -/
def System.joined (s : System ι) (op : Nat) : Nat :=
  s.calls.countP fun call => call.opId = op

/-- How many calls of an operation have counted themselves out. -/
def System.gone (s : System ι) (op : Nat) : Nat :=
  s.calls.countP fun call => call.opId = op && call.left

/-- The open operation. -/
abbrev System.open (s : System ι) : Nat := s.controller.barrierOpId

/-- Where a call of an operation can be while `current` is the open one. -/
def PhaseOk (current : Nat) (call : Call ι) : Prop :=
  match call.phase with
  | .entered event | .waiting event => event = call.opId ∧ call.left = false
  | .woken => call.left = false ∧ call.opId < current
  | _ => True

structure Inv (s : System ι) : Prop where
  ctr_open : s.controller.barrierCtrs.get? s.open = some (s.joined s.open : Int)
  ctr_closed : ∀ op < s.open, s.controller.barrierCtrs.get? op =
    if s.joined op = s.gone op then none else some ((s.joined op : Int) - s.gone op)
  ctr_later : ∀ op > s.open, s.controller.barrierCtrs.get? op = none
  events : ∀ op, s.controller.barrierEvents.get? op =
    if (s.controller.barrierCtrs.get? op).isSome then some op else none
  flags : s.controller.eventFlags = List.replicate s.open true ++ [false]
  opId_le : ∀ call ∈ s.calls, call.opId ≤ s.open
  phase : ∀ call ∈ s.calls, PhaseOk s.open call
  left_closed : ∀ call ∈ s.calls, call.left = true → call.opId < s.open

theorem Inv.event_open {s : System ι} (hinv : Inv s) :
    s.controller.barrierEvents.get? s.open = some s.open := by
  rw [hinv.events, hinv.ctr_open]
  rfl

/-- The event of an operation is set exactly when the operation is closed. -/
theorem Inv.flag_iff {s : System ι} (hinv : Inv s) (op : Nat) :
    s.controller.eventFlags[op]? = some true ↔ op < s.open := by
  rw [hinv.flags]
  rcases Nat.lt_trichotomy op s.open with h | h | h
  · simp [List.getElem?_append_left, h]
  · subst h
    simp
  · have : op - s.open ≠ 0 := by omega
    rw [List.getElem?_append_right (by simp; omega)]
    simp only [List.length_replicate]
    constructor
    · intro hget
      rw [List.getElem?_singleton, if_neg this] at hget
      cases hget
    · intro hlt
      omega

/-- A call that has not counted itself out is still counted. -/
theorem System.gone_lt_joined {s : System ι} {call : Call ι} (hmem : call ∈ s.calls)
    (hleft : call.left = false) : s.gone call.opId < s.joined call.opId := by
  refine countP_lt_of_mem (fun other h => ?_) hmem (by simp [hleft]) (by simp)
  simp only [Bool.and_eq_true, decide_eq_true_eq] at h ⊢
  exact h.1

/-- No call counts itself out of the open operation. -/
theorem Inv.gone_open {s : System ι} (hinv : Inv s) : s.gone s.open = 0 := by
  unfold System.gone
  rw [List.countP_eq_zero]
  intro call hmem h
  simp only [Bool.and_eq_true, decide_eq_true_eq] at h
  have := hinv.left_closed call hmem h.2
  omega

/-- A call that has not counted itself out keeps its operation's entry alive. -/
theorem Inv.ctr_of_mem {s : System ι} (hinv : Inv s) {call : Call ι} (hmem : call ∈ s.calls)
    (hleft : call.left = false) :
    s.controller.barrierCtrs.get? call.opId =
      some ((s.joined call.opId : Int) - s.gone call.opId) := by
  rcases Nat.lt_or_eq_of_le (hinv.opId_le call hmem) with hclosed | hopen
  · have hlt := s.gone_lt_joined hmem hleft
    rw [hinv.ctr_closed _ hclosed, if_neg (by omega)]
  · rw [hopen, hinv.ctr_open, hinv.gone_open]
    simp

/-! ### What one step does -/

/-- The call that runs its first locked section now. -/
def System.newCall (s : System ι) (client : ι) (rpc : Rpc) : Call ι :=
  ⟨client, rpc, s.open, false, .entered s.open⟩

@[simp] theorem System.newCall_client (s : System ι) (client : ι) (rpc : Rpc) :
    (s.newCall client rpc).client = client := rfl

@[simp] theorem System.newCall_rpc (s : System ι) (client : ι) (rpc : Rpc) :
    (s.newCall client rpc).rpc = rpc := rfl

@[simp] theorem System.newCall_opId (s : System ι) (client : ι) (rpc : Rpc) :
    (s.newCall client rpc).opId = s.open := rfl

/-- Everything a step can do in a state with the invariant. -/
inductive Move (s : System ι) : Action ι → System ι → Prop
  | joinOpen (client : ι) (rpc : Rpc) (hlt : s.joined s.open + 1 < rpc.numWorkers) :
      Move s (.enter client rpc)
        ⟨s.controller.join rpc (s.joined s.open), s.calls ++ [s.newCall client rpc]⟩
  | joinClose (client : ι) (rpc : Rpc) (hge : rpc.numWorkers ≤ s.joined s.open + 1) :
      Move s (.enter client rpc)
        ⟨(s.controller.join rpc (s.joined s.open)).close, s.calls ++ [s.newCall client rpc]⟩
  | testWait (index : Nat) (call : Call ι) (hcall : s.calls[index]? = some call)
      (hphase : call.phase = .entered call.opId) (hleft : call.left = false)
      (hlt : s.joined call.opId < call.rpc.numWorkers + s.gone call.opId) :
      Move s (.resume index)
        ⟨s.controller, s.calls.set index { call with phase := .waiting call.opId }⟩
  | testPass (index : Nat) (call : Call ι) (hcall : s.calls[index]? = some call)
      (hphase : call.phase = .entered call.opId) (hleft : call.left = false)
      (hge : call.rpc.numWorkers + s.gone call.opId ≤ s.joined call.opId) :
      Move s (.resume index)
        ⟨s.controller, s.calls.set index { call with phase := .passed }⟩
  | wake (index : Nat) (call : Call ι) (hcall : s.calls[index]? = some call)
      (hphase : call.phase = .waiting call.opId) (hleft : call.left = false)
      (hclosed : call.opId < s.open) :
      Move s (.resume index)
        ⟨s.controller, s.calls.set index { call with phase := .woken }⟩
  | countOut (index : Nat) (call : Call ι) (hcall : s.calls[index]? = some call)
      (hphase : call.phase = .woken) (hleft : call.left = false)
      (hclosed : call.opId < s.open) :
      Move s (.resume index)
        ⟨s.controller.countOut call.opId ((s.joined call.opId : Int) - s.gone call.opId),
          s.calls.set index { call with left := true, phase := .passed }⟩
  | respond (index : Nat) (call : Call ι) (hcall : s.calls[index]? = some call)
      (hphase : call.phase = .passed) (response : Response)
      (hfinish : (call.rpc.finish s.controller).1 = .ok response) :
      Move s (.resume index)
        ⟨s.controller, s.calls.set index { call with phase := .returned response }⟩
  | fail (index : Nat) (call : Call ι) (hcall : s.calls[index]? = some call)
      (hphase : call.phase = .passed) (error : PyError)
      (hfinish : (call.rpc.finish s.controller).1 = .error error) :
      Move s (.resume index)
        ⟨s.controller, s.calls.set index { call with phase := .raised error }⟩

theorem Inv.enter_move {s : System ι} (hinv : Inv s) {s' : System ι} {client : ι} {rpc : Rpc}
    (hstep : step s (.enter client rpc) = some s') : Move s (.enter client rpc) s' := by
  have hstart : startCall s.controller client rpc =
      (if (s.joined s.open : Int) + 1 < rpc.numWorkers then s.controller.join rpc (s.joined s.open)
        else (s.controller.join rpc (s.joined s.open)).close, s.newCall client rpc) := by
    simp only [startCall, Rpc.enter_apply rpc hinv.ctr_open hinv.event_open]
    rfl
  simp only [step, hstart, Option.some.injEq] at hstep
  subst hstep
  by_cases hlt : s.joined s.open + 1 < rpc.numWorkers
  · rw [if_pos (by omega)]
    exact .joinOpen client rpc hlt
  · rw [if_neg (by omega)]
    exact .joinClose client rpc (by omega)

theorem Inv.resume_move {s : System ι} (hinv : Inv s) {s' : System ι} {index : Nat}
    (hstep : step s (.resume index) = some s') : Move s (.resume index) s' := by
  simp only [step] at hstep
  cases hcall : s.calls[index]? with
  | none => simp [hcall] at hstep
  | some call =>
      have hmem : call ∈ s.calls := List.mem_of_getElem? hcall
      have hphaseOk := hinv.phase call hmem
      simp only [hcall, resumeCall] at hstep
      cases hphase : call.phase with
      | entered event =>
          obtain ⟨rfl, hleft⟩ : event = call.opId ∧ call.left = false := by
            simpa [PhaseOk, hphase] using hphaseOk
          simp only [hphase, mustWait, Fallible.bind_apply, Fallible.pure_apply,
            counter_apply (hinv.ctr_of_mem hmem hleft)] at hstep
          -- the counter is read without the lock, but it is there: the call has not left
          by_cases hlt : s.joined call.opId < call.rpc.numWorkers + s.gone call.opId
          · rw [decide_eq_true (by omega)] at hstep
            simp only [Option.some.injEq] at hstep
            subst hstep
            exact .testWait index call hcall hphase hleft hlt
          · rw [decide_eq_false (by omega)] at hstep
            simp only [Option.some.injEq] at hstep
            subst hstep
            exact .testPass index call hcall hphase hleft (by omega)
      | waiting event =>
          obtain ⟨rfl, hleft⟩ : event = call.opId ∧ call.left = false := by
            simpa [PhaseOk, hphase] using hphaseOk
          simp only [hphase, hinv.flag_iff] at hstep
          by_cases hclosed : call.opId < s.open
          · simp only [hclosed, if_true, Option.some.injEq] at hstep
            subst hstep
            exact .wake index call hcall hphase hleft hclosed
          · simp [hclosed] at hstep
      | woken =>
          obtain ⟨hleft, hclosed⟩ : call.left = false ∧ call.opId < s.open := by
            simpa [PhaseOk, hphase] using hphaseOk
          have hctr := hinv.ctr_of_mem hmem hleft
          have hevent : s.controller.barrierEvents.get? call.opId = some call.opId := by
            rw [hinv.events, hctr]
            rfl
          simp only [hphase, leaveOp_apply hctr hevent, Option.some.injEq] at hstep
          subst hstep
          exact .countOut index call hcall hphase hleft hclosed
      | passed =>
          have hreadOnly := call.rpc.finish_readOnly s.controller
          cases hfinish : call.rpc.finish s.controller with
          | mk result controller =>
              rw [hfinish] at hreadOnly
              subst hreadOnly
              simp only [hphase, hfinish] at hstep
              cases result with
              | ok response =>
                  simp only [Option.some.injEq] at hstep
                  subst hstep
                  exact .respond index call hcall hphase response (by rw [hfinish])
              | error error =>
                  simp only [Option.some.injEq] at hstep
                  subst hstep
                  exact .fail index call hcall hphase error (by rw [hfinish])
      | returned response => simp [hphase] at hstep
      | raised error => simp [hphase] at hstep

/-- The list of moves is complete. -/
theorem Inv.step_move {s s' : System ι} {action : Action ι} (hinv : Inv s)
    (hstep : step s action = some s') : Move s action s' := by
  cases action with
  | enter client rpc => exact hinv.enter_move hstep
  | resume index => exact hinv.resume_move hstep

/-! ### Counting calls across a step -/

theorem joined_snoc (controller : Rendezvous) (s : System ι) (call : Call ι) (op : Nat) :
    (System.mk controller (s.calls ++ [call])).joined op =
      s.joined op + if call.opId = op then 1 else 0 := by
  simp [System.joined, List.countP_append, List.countP_cons]

theorem gone_snoc (controller : Rendezvous) (s : System ι) (call : Call ι)
    (hleft : call.left = false) (op : Nat) :
    (System.mk controller (s.calls ++ [call])).gone op = s.gone op := by
  simp [System.gone, List.countP_append, hleft]

theorem joined_set (controller : Rendezvous) {s : System ι} {index : Nat} {call : Call ι}
    (call' : Call ι)
    (hcall : s.calls[index]? = some call) (hop : call'.opId = call.opId) (op : Nat) :
    (System.mk controller (s.calls.set index call')).joined op = s.joined op :=
  countP_set_same hcall (by rw [hop])

theorem gone_set (controller : Rendezvous) {s : System ι} {index : Nat} {call : Call ι}
    (call' : Call ι)
    (hcall : s.calls[index]? = some call) (hop : call'.opId = call.opId)
    (hleft : call'.left = call.left) (op : Nat) :
    (System.mk controller (s.calls.set index call')).gone op = s.gone op :=
  countP_set_same hcall (by rw [hop, hleft])

theorem gone_countOut (controller : Rendezvous) {s : System ι} {index : Nat} {call : Call ι}
    (phase : Phase) (hcall : s.calls[index]? = some call) (hleft : call.left = false) (op : Nat) :
    (System.mk controller
        (s.calls.set index { call with left := true, phase := phase })).gone op =
      s.gone op + if call.opId = op then 1 else 0 := by
  by_cases hop : call.opId = op
  · rw [if_pos hop]
    exact countP_set_gain hcall (by simp [hleft]) (by simp [hop])
  · rw [if_neg hop]
    exact countP_set_same hcall (by simp [hop])

/-! ### The invariant is kept -/

theorem Inv.initial : Inv (⟨.initial, []⟩ : System ι) where
  ctr_open := rfl
  ctr_closed := fun op hop => absurd hop (Nat.not_lt_zero op)
  ctr_later := fun op hop => by
    have hne : op ≠ 0 := Nat.pos_iff_ne_zero.mp hop
    simp [Rendezvous.initial, hne]
  events := fun op => by
    by_cases hop : op = 0 <;> simp [Rendezvous.initial, hop]
  flags := rfl
  opId_le := fun call hmem => absurd hmem List.not_mem_nil
  phase := fun call hmem => absurd hmem List.not_mem_nil
  left_closed := fun call hmem => absurd hmem List.not_mem_nil

/-- A step that only moves one call along keeps the invariant. -/
theorem Inv.set_phase {s : System ι} (hinv : Inv s) {index : Nat} {call : Call ι} {phase : Phase}
    (hcall : s.calls[index]? = some call) (hphase : PhaseOk s.open { call with phase := phase }) :
    Inv ⟨s.controller, s.calls.set index { call with phase := phase }⟩ := by
  have hmem : call ∈ s.calls := List.mem_of_getElem? hcall
  have hjoined := joined_set s.controller { call with phase := phase } hcall rfl
  have hgone := gone_set s.controller { call with phase := phase } hcall rfl rfl
  exact
    { ctr_open := by rw [hjoined]; exact hinv.ctr_open
      ctr_closed := by
        intro op hop
        rw [hjoined, hgone]
        exact hinv.ctr_closed op hop
      ctr_later := hinv.ctr_later
      events := hinv.events
      flags := hinv.flags
      opId_le := forall_mem_set hinv.opId_le (hinv.opId_le call hmem)
      phase := forall_mem_set hinv.phase hphase
      left_closed := forall_mem_set hinv.left_closed (hinv.left_closed call hmem) }

/-- A closed operation stays closed for a call when a later one is opened. -/
theorem PhaseOk.mono {current later : Nat} {call : Call ι} (h : PhaseOk current call)
    (hle : current ≤ later) : PhaseOk later call := by
  unfold PhaseOk at h ⊢
  cases hphase : call.phase with
  | woken =>
      simp only [hphase] at h ⊢
      exact ⟨h.1, by omega⟩
  | entered event => simpa only [hphase] using h
  | waiting event => simpa only [hphase] using h
  | passed => trivial
  | returned response => trivial
  | raised error => trivial

theorem Inv.joinOpen {s : System ι} (hinv : Inv s) (client : ι) (rpc : Rpc) :
    Inv ⟨s.controller.join rpc (s.joined s.open), s.calls ++ [s.newCall client rpc]⟩ := by
  have hjoined := joined_snoc (s.controller.join rpc (s.joined s.open)) s (s.newCall client rpc)
  have hgone := gone_snoc (s.controller.join rpc (s.joined s.open)) s
    (s.newCall client rpc) rfl
  have hctr (op : Nat) : (s.controller.join rpc (s.joined s.open)).barrierCtrs.get? op =
      if op = s.open then some ((s.joined s.open : Int) + 1)
      else s.controller.barrierCtrs.get? op := by
    simp [Rendezvous.join]
  exact
    { ctr_open := by
        show (s.controller.join rpc (s.joined s.open)).barrierCtrs.get? s.open =
          some ((System.mk _ (s.calls ++ [s.newCall client rpc])).joined s.open : Int)
        rw [hjoined, hctr, if_pos rfl]
        simp [System.newCall]
      ctr_closed := by
        intro op (hop : op < s.open)
        rw [hjoined, hgone, hctr, if_neg (by omega), hinv.ctr_closed op hop]
        simp [System.newCall, show s.open ≠ op by omega]
      ctr_later := by
        intro op (hop : s.open < op)
        rw [hctr, if_neg (by omega)]
        exact hinv.ctr_later op hop
      events := by
        intro op
        rw [hctr]
        by_cases hop : op = s.open
        · subst hop
          simpa using hinv.event_open
        · simpa [hop] using hinv.events op
      flags := hinv.flags
      opId_le := forall_mem_snoc hinv.opId_le (Nat.le_refl _)
      phase := forall_mem_snoc hinv.phase ⟨rfl, rfl⟩
      left_closed := forall_mem_snoc hinv.left_closed (fun h => by cases h) }

/-- Closing the open operation keeps the invariant once a call has joined it. -/
theorem Inv.close {s : System ι} (hinv : Inv s) (hjoined : 0 < s.joined s.open) :
    Inv ⟨s.controller.close, s.calls⟩ := by
  have hctr (op : Nat) : s.controller.close.barrierCtrs.get? op =
      if op = s.open + 1 then some 0 else s.controller.barrierCtrs.get? op := by
    simp [Rendezvous.close]
  have hlength : s.controller.eventFlags.length = s.open + 1 := by
    rw [hinv.flags]
    simp
  have hnone : s.joined (s.open + 1) = 0 := by
    unfold System.joined
    rw [List.countP_eq_zero]
    intro call hmem h
    have := hinv.opId_le call hmem
    simp only [decide_eq_true_eq] at h
    omega
  exact
    { ctr_open := by
        show s.controller.close.barrierCtrs.get? (s.open + 1) = some (s.joined (s.open + 1) : Int)
        rw [hctr, if_pos rfl, hnone]
        rfl
      ctr_closed := by
        intro op (hop : op < s.open + 1)
        show s.controller.close.barrierCtrs.get? op =
          if s.joined op = s.gone op then none else some ((s.joined op : Int) - s.gone op)
        rw [hctr, if_neg (by omega)]
        rcases Nat.lt_or_eq_of_le (Nat.le_of_lt_succ hop) with hlt | rfl
        · exact hinv.ctr_closed op hlt
        · rw [hinv.ctr_open, hinv.gone_open, if_neg (by omega)]
          simp
      ctr_later := by
        intro op (hop : s.open + 1 < op)
        rw [hctr, if_neg (by omega)]
        exact hinv.ctr_later op (by omega)
      events := by
        intro op
        rw [hctr]
        by_cases hop : op = s.open + 1
        · simp [Rendezvous.close, hop, hlength]
        · simpa [Rendezvous.close, hop] using hinv.events op
      flags := by
        show s.controller.eventFlags.set s.open true ++ [false] =
          List.replicate (s.open + 1) true ++ [false]
        rw [hinv.flags, List.set_append_right _ _ (by simp)]
        simp [List.replicate_succ']
      opId_le := fun call hmem => Nat.le_succ_of_le (hinv.opId_le call hmem)
      phase := fun call hmem => (hinv.phase call hmem).mono (Nat.le_succ _)
      left_closed := fun call hmem h => Nat.lt_succ_of_lt (hinv.left_closed call hmem h) }

theorem Inv.countOut {s : System ι} (hinv : Inv s) {index : Nat} {call : Call ι}
    (hcall : s.calls[index]? = some call) (hleft : call.left = false)
    (hclosed : call.opId < s.open) :
    Inv ⟨s.controller.countOut call.opId ((s.joined call.opId : Int) - s.gone call.opId),
      s.calls.set index { call with left := true, phase := .passed }⟩ := by
  have hmem : call ∈ s.calls := List.mem_of_getElem? hcall
  have hctrs := s.controller.countOut_barrierCtrs call.opId
    ((s.joined call.opId : Int) - s.gone call.opId)
  have hevents := s.controller.countOut_barrierEvents call.opId
    ((s.joined call.opId : Int) - s.gone call.opId)
  generalize hcontroller :
    s.controller.countOut call.opId ((s.joined call.opId : Int) - s.gone call.opId) = controller
      at hctrs hevents
  have hopen : controller.barrierOpId = s.open := by rw [← hcontroller]; simp
  have hflags : controller.eventFlags = s.controller.eventFlags := by rw [← hcontroller]; simp
  have hjoined := joined_set controller { call with left := true, phase := .passed } hcall rfl
  have hgone := gone_countOut controller .passed hcall hleft
  exact
    { ctr_open := by
        show controller.barrierCtrs.get? controller.barrierOpId =
          some ((System.mk controller _).joined controller.barrierOpId : Int)
        rw [hjoined, hctrs, hopen, if_neg (by omega)]
        exact hinv.ctr_open
      ctr_closed := by
        intro op (hop : op < controller.barrierOpId)
        show controller.barrierCtrs.get? op = _
        rw [hopen] at hop
        rw [hjoined, hgone, hctrs]
        -- only the counter of the call's own operation changes
        by_cases hsame : op = call.opId
        · -- the counter is deleted when the last call counts itself out
          subst hsame
          by_cases hlast : s.joined call.opId = s.gone call.opId + 1
          · have hone : (s.joined call.opId : Int) - s.gone call.opId = 1 := by omega
            rw [if_pos rfl, if_pos hone, if_pos rfl, if_pos hlast]
          · have hone : ¬ (s.joined call.opId : Int) - s.gone call.opId = 1 := by omega
            rw [if_pos rfl, if_neg hone, if_pos rfl, if_neg hlast]
            congr 1
            omega
        · rw [if_neg hsame, if_neg (Ne.symm hsame), hinv.ctr_closed op hop]
          rfl
      ctr_later := by
        intro op (hop : controller.barrierOpId < op)
        show controller.barrierCtrs.get? op = none
        rw [hopen] at hop
        rw [hctrs, if_neg (by omega)]
        exact hinv.ctr_later op hop
      events := by
        intro op
        show controller.barrierEvents.get? op = _
        rw [hevents]
        by_cases hop : op = call.opId
        · subst hop
          have hevent := hinv.events call.opId
          rw [hinv.ctr_of_mem hmem hleft] at hevent
          rw [hctrs, if_pos rfl]
          split
          · next h => simp [h.2]
          · next h =>
            have hmore : ¬ (s.joined call.opId : Int) - s.gone call.opId = 1 :=
              fun hone => h ⟨rfl, hone⟩
            simpa [hmore] using hevent
        · rw [if_neg (fun h => hop h.1), hctrs, if_neg hop]
          exact hinv.events op
      flags := by
        show controller.eventFlags = List.replicate controller.barrierOpId true ++ [false]
        rw [hflags, hopen]
        exact hinv.flags
      opId_le := by
        show ∀ other : Call ι, other ∈ _ → other.opId ≤ controller.barrierOpId
        rw [hopen]
        exact forall_mem_set hinv.opId_le (Nat.le_of_lt hclosed)
      phase := by
        show ∀ other ∈ _, PhaseOk controller.barrierOpId other
        rw [hopen]
        exact forall_mem_set hinv.phase trivial
      left_closed := by
        show ∀ other : Call ι, other ∈ _ → other.left = true → other.opId < controller.barrierOpId
        rw [hopen]
        exact forall_mem_set hinv.left_closed (fun _ => hclosed) }

theorem Inv.move {s s' : System ι} {action : Action ι} (hinv : Inv s)
    (hmove : Move s action s') : Inv s' := by
  cases hmove with
  | joinOpen client rpc hlt => exact hinv.joinOpen client rpc
  | joinClose client rpc hge =>
      refine (hinv.joinOpen client rpc).close ?_
      show 0 < (System.mk _ (s.calls ++ [s.newCall client rpc])).joined s.open
      rw [joined_snoc]
      simp [System.newCall]
  | testWait index call hcall hphase hleft hlt => exact hinv.set_phase hcall ⟨rfl, hleft⟩
  | testPass index call hcall hphase hleft hge => exact hinv.set_phase hcall trivial
  | wake index call hcall hphase hleft hclosed => exact hinv.set_phase hcall ⟨hleft, hclosed⟩
  | countOut index call hcall hphase hleft hclosed => exact hinv.countOut hcall hleft hclosed
  | respond index call hcall hphase response hfinish => exact hinv.set_phase hcall trivial
  | fail index call hcall hphase error hfinish => exact hinv.set_phase hcall trivial

/-- **The bookkeeping invariant** holds in every reachable state, whatever calls
are made. -/
theorem reachable_inv {guard : System ι → Action ι → Prop} {s : System ι}
    (hreach : (rendezvousMachine ι).Reachable guard s) : Inv s := by
  refine hreach.invariant _ ?_ ?_
  · rintro s rfl
    exact Inv.initial
  · intro s action t hinv _ hstep
    exact hinv.move (hinv.step_move hstep)

end Controller
end FlashReduce
