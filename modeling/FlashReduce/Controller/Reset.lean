import FlashReduce.Controller.Executor
import FlashReduce.Controller.Server
import FlashReduce.Library.Renaming
import Mathlib.Data.List.InsertIdx

/-!
# A reset between the calls

When no call is in progress, a reset makes the server as good as new: what it does from
there on is what a new server does, with other names for the events and the finished calls
in front.

* `Rendezvous.place` and `Broadcast.State.place` are the fields of a new server as they look
  after the reset of an old one, and `mirrors_joinOp`, `mirrors_leaveOp`, `mirrors_enter` say that
  the handlers do not notice.
* `reset_fresh`: every state after such a reset is the image of a reachable state of a new
  server.
-/

namespace FlashReduce
namespace Controller

open Library Library.Fallible

variable {ι : Type}

/-! ### The rendezvous -/

/-- The fields of a new server on top of the events of an old one. -/
def Rendezvous.place (old self : Rendezvous) : Rendezvous :=
  { self with
    barrierEvents := self.barrierEvents.mapValues (old.eventFlags.length + ·)
    eventFlags := old.eventFlags ++ self.eventFlags
    sessions := old.sessions }

variable {old : Rendezvous}

/-- An event of the new server. -/
def Rendezvous.rename (old : Rendezvous) (event : Nat) : Nat := old.eventFlags.length + event

theorem mirrors_counter (op : Nat) : Mirrors old.place id (counter op) (counter op) :=
  mirrors_read fun _ => mirrors_demand _ (by simp [Rendezvous.place])

theorem mirrors_addToCounter (op : Nat) (amount : Int) :
    Mirrors old.place id (addToCounter op amount) (addToCounter op amount) :=
  (mirrors_counter op).bind fun _ => mirrors_modify fun _ => rfl

theorem mirrors_barrierEvent (op : Nat) :
    Mirrors old.place old.rename (barrierEvent op) (barrierEvent op) :=
  mirrors_read fun _ => mirrors_demand _ (OrderedDict.get?_mapValues _ _ _)

theorem set_rename (old flags : List Bool) (event : Nat) :
    (old ++ flags).set (old.length + event) true = old ++ flags.set event true := by
  rw [List.set_append_right _ _ (Nat.le_add_right ..), Nat.add_sub_cancel_left]

theorem getElem?_rename {α : Type} (old flags : List α) (event : Nat) :
    (old ++ flags)[old.length + event]? = flags[event]? := by
  rw [List.getElem?_append_right (Nat.le_add_right ..), Nat.add_sub_cancel_left]

theorem mirrors_setEvent (event : Nat) :
    Mirrors old.place id (setEvent event) (setEvent (old.rename event)) := by
  refine mirrors_modify fun self => ?_
  simp only [Rendezvous.place, Rendezvous.rename, set_rename]

theorem mirrors_openNextOp : Mirrors old.place id openNextOp openNextOp := by
  refine mirrors_modify fun self => ?_
  simp [Rendezvous.place]

theorem mirrors_joinOp (numWorkers : Nat) :
    Mirrors old.place (Prod.map id old.rename) (joinOp numWorkers (pure ()))
      (joinOp numWorkers (pure ())) := by
  refine mirrors_read fun self => (mirrors_addToCounter _ 1).bind fun _ => ?_
  refine (mirrors_pure (f := id) ()).bind fun _ => (mirrors_counter _).bind fun ctr => ?_
  refine Mirrors.ite Iff.rfl ?_ ?_
  · exact (mirrors_barrierEvent _).bind fun event => mirrors_pure _
  · refine (mirrors_barrierEvent _).bind fun event => (mirrors_setEvent event).bind fun _ => ?_
    exact mirrors_openNextOp.bind fun _ => mirrors_pure _

theorem mirrors_mustWait (numWorkers op : Nat) :
    Mirrors old.place id (mustWait numWorkers op) (mustWait numWorkers op) :=
  (mirrors_counter op).bind fun _ => mirrors_pure _

theorem mirrors_leaveOp (op : Nat) : Mirrors old.place id (leaveOp op) (leaveOp op) := by
  refine (mirrors_addToCounter op (-1)).bind fun _ => (mirrors_counter op).bind fun ctr => ?_
  refine Mirrors.ite Iff.rfl ?_ (mirrors_pure _)
  refine (mirrors_counter op).bind fun _ => mirrors_then ?_ fun _ => rfl
  refine (mirrors_barrierEvent op).bind fun _ => mirrors_modify fun self => ?_
  simp [Rendezvous.place]

/-! ### Its calls -/

def Phase.place (old : Rendezvous) : Phase → Phase
  | .entered event => .entered (old.rename event)
  | .waiting event => .waiting (old.rename event)
  | phase => phase

def Call.place (old : Rendezvous) (call : Call ι) : Call ι :=
  { call with phase := call.phase.place old }

/-- The calls of a new server after those of an old one. -/
def System.place (old self : System ι) : System ι where
  controller := old.controller.place self.controller
  calls := old.calls ++ self.calls.map (Call.place old.controller)

theorem startCall_place (self : Rendezvous) (client : ι) (request : BarrierRequest) :
    startCall (old.place self) client (.barrier request) =
      (old.place (startCall self client (.barrier request)).1,
        (startCall self client (.barrier request)).2.place old) := by
  have henter : Mirrors old.place (Prod.map id old.rename) (Rpc.barrier request).enter
      (Rpc.barrier request).enter := mirrors_joinOp request.numWorkers
  unfold startCall
  rw [henter self]
  generalize (Rpc.barrier request).enter self = after
  obtain ⟨result, self'⟩ := after
  cases result with
  | ok found => rfl
  | error e => rfl

theorem resumeCall_place {call : Call ι} (hbarrier : ∃ request, call.rpc = .barrier request)
    (self : Rendezvous) : resumeCall (old.place self) (call.place old) =
      (resumeCall self call).map fun after => (old.place after.1, after.2.place old) := by
  obtain ⟨client, rpc, opId, left, phase⟩ := call
  obtain ⟨request, rfl⟩ := hbarrier
  unfold resumeCall Call.place
  cases phase with
  | entered event =>
      dsimp only [Phase.place]
      rw [mirrors_mustWait _ _ self]
      generalize mustWait _ _ self = after
      obtain ⟨result, self'⟩ := after
      cases result with
      | ok waits => cases waits <;> rfl
      | error e => rfl
  | waiting event =>
      dsimp only [Phase.place]
      have hflag : (old.place self).eventFlags[old.rename event]? = self.eventFlags[event]? :=
        getElem?_rename ..
      rw [hflag]
      split <;> rfl
  | woken =>
      dsimp only [Phase.place]
      rw [mirrors_leaveOp _ self]
      generalize leaveOp _ self = after
      obtain ⟨result, self'⟩ := after
      cases result <;> rfl
  | passed => rfl
  | returned response => rfl
  | raised error => rfl

theorem step_place_enter (old self : System ι) (client : ι) (request : BarrierRequest) :
    step (old.place self) (.enter client (.barrier request)) =
      (step self (.enter client (.barrier request))).map old.place := by
  unfold step
  dsimp only [System.place]
  rw [startCall_place]
  simp [System.place]

theorem step_place_resume (old : System ι) {self : System ι}
    (hbarriers : ∀ call ∈ self.calls, ∃ request, call.rpc = .barrier request) (index : Nat) :
    step (old.place self) (.resume (old.calls.length + index)) =
      (step self (.resume index)).map old.place := by
  unfold step
  dsimp only [System.place]
  rw [getElem?_rename, List.getElem?_map]
  cases hcall : self.calls[index]? with
  | none => rfl
  | some call =>
      dsimp only [Option.map_some]
      rw [resumeCall_place (hbarriers call (List.mem_of_getElem? hcall))]
      cases resumeCall self.controller call with
      | none => rfl
      | some after =>
          simp [System.place, List.set_append_right, List.map_set]

/-- A call that is finished has no next piece. -/
theorem resumeCall_finished {controller : Rendezvous} {call : Call ι}
    (h : call.isFinished = true) : resumeCall controller call = none := by
  unfold Call.isFinished at h
  unfold resumeCall
  split at h
  · next hphase => rw [hphase]
  · next hphase => rw [hphase]
  · cases h

theorem step_place_old {old self : System ι} (hquiet : ∀ call ∈ old.calls, call.isFinished = true)
    {index : Nat} (hlt : index < old.calls.length) : step (old.place self) (.resume index) = none := by
  unfold step
  dsimp only [System.place]
  rw [List.getElem?_append_left hlt, List.getElem?_eq_getElem hlt]
  dsimp only
  rw [resumeCall_finished (hquiet _ (List.getElem_mem hlt))]

/-! ### Broadcast -/

namespace Broadcast

/-- The fields of a new server on top of the events of an old one. -/
def State.place (old self : State) : State :=
  { self with
    events := self.events.map (old.eventFlags.length + ·)
    eventFlags := old.eventFlags ++ self.eventFlags }

/-- An event of the new server. -/
def State.rename (old : State) (event : Nat) : Nat := old.eventFlags.length + event

variable {old : State}

theorem deleteAt_map {α β : Type} (f : α → β) (l : List α) (i : Nat) :
    deleteAt (l.map f) i = (deleteAt l i).map (List.map f) := by
  unfold deleteAt
  rw [List.length_map]
  split
  · simp [List.eraseIdx_map]
  · rfl

theorem mirrors_same {α : Type} (value : Option α) (error : PyError) :
    Mirrors old.place id (Fallible.demand value error : Handler α) (Fallible.demand value error) :=
  mirrors_demand _ (Option.map_id_apply).symm

theorem mirrors_deleteOp (i : Nat) : Mirrors old.place id (deleteOp i) (deleteOp i) := by
  refine mirrors_read fun self => (mirrors_same _ _).bind fun bitmap => mirrors_then ?_ fun _ => rfl
  refine mirrors_read fun self => (mirrors_same _ _).bind fun values => mirrors_then ?_ fun _ => rfl
  refine mirrors_read fun self => ?_
  exact (mirrors_demand _ (deleteAt_map _ self.events i)).bind fun events =>
    mirrors_modify fun _ => rfl

theorem mirrors_cleanupBelow (i : Nat) :
    Mirrors old.place id (cleanupBelow i) (cleanupBelow i) := by
  induction i with
  | zero => exact mirrors_pure _
  | succ i ih =>
      refine mirrors_read fun self => (mirrors_same _ _).bind fun row => ?_
      exact Mirrors.ite Iff.rfl ((mirrors_deleteOp i).bind fun _ => ih) ih

theorem mirrors_searchFrom (rank i : Nat) (rows : List (List Bool)) :
    Mirrors old.place id (searchFrom rank i rows) (searchFrom rank i rows) := by
  induction rows generalizing i with
  | nil => exact mirrors_pure _
  | cons row rest ih =>
      refine (mirrors_same _ _).bind fun served => ?_
      exact Mirrors.ite Iff.rfl (mirrors_pure _) (ih (i + 1))

theorem mirrors_createOp (numWorkers : Nat) :
    Mirrors old.place id (createOp numWorkers) (createOp numWorkers) := by
  refine mirrors_read fun self => mirrors_then ?_ fun _ => rfl
  refine mirrors_then (mirrors_then (mirrors_pure _) fun self => ?_) fun _ => rfl
  simp [State.place]

theorem mirrors_markServed (idx rank : Nat) :
    Mirrors old.place id (markServed idx rank) (markServed idx rank) := by
  refine mirrors_read fun self => (mirrors_same _ _).bind fun row => ?_
  exact (mirrors_same _ _).bind fun row' => mirrors_modify fun _ => rfl

def Outcome.place (old : State) : Outcome → Outcome
  | .served idx => .served idx
  | .wait idx event => .wait idx (old.rename event)

/-- The event of an operation has another name. -/
theorem mirrors_event (self : State) (idx : Nat) :
    Mirrors old.place old.rename (Fallible.demand self.events[idx]? .indexError : Handler Nat)
      (Fallible.demand (old.place self).events[idx]? .indexError) :=
  mirrors_demand _ (List.getElem?_map ..)

theorem mirrors_serve (request : Request) (idx : Nat) :
    Mirrors old.place (Outcome.place old) (serve request idx) (serve request idx) := by
  refine Mirrors.ite Iff.rfl ?_ ?_
  · refine mirrors_read fun self => (mirrors_same _ _).bind fun values => ?_
    refine mirrors_then ?_ fun _ => rfl
    refine mirrors_read fun self => (mirrors_event self idx).bind fun event => mirrors_then ?_ ?_
    · exact (mirrors_markServed _ _).bind fun _ => mirrors_pure _
    · intro self
      simp only [State.place, State.rename, set_rename]
  · refine mirrors_read fun self => (mirrors_same _ _).bind fun value => ?_
    refine Mirrors.ite Iff.rfl ?_ ?_
    · exact mirrors_read fun self => (mirrors_event self idx).bind fun event => mirrors_pure _
    · exact (mirrors_markServed _ _).bind fun _ => mirrors_pure _

theorem mirrors_enter (request : Request) :
    Mirrors old.place (Outcome.place old) (enter request) (enter request) := by
  refine mirrors_read fun self => (mirrors_cleanupBelow _).bind fun _ => ?_
  refine mirrors_read fun self => (mirrors_searchFrom _ _ _).bind fun found => ?_
  cases found with
  | some i => exact mirrors_serve request i
  | none => exact (mirrors_createOp _).bind fun idx => mirrors_serve request idx

theorem mirrors_readValue (idx : Nat) :
    Mirrors old.place id (readValue idx) (readValue idx) :=
  mirrors_read fun _ => (mirrors_same _ _).bind fun _ => mirrors_pure _

def Phase.place (old : State) : Phase → Phase
  | .waiting idx event => .waiting idx (old.rename event)
  | phase => phase

def Call.place (old : State) (call : Call) : Call :=
  { call with
    joined := call.joined.map old.rename
    phase := call.phase.place old }

/-- The calls of a new server after those of an old one. -/
def System.place (old self : System) : System where
  state := old.state.place self.state
  calls := old.calls ++ self.calls.map (Call.place old.state)

theorem startCall_place (self : State) (request : Request) :
    startCall (old.place self) request =
      (old.place (startCall self request).1, (startCall self request).2.place old) := by
  unfold startCall
  rw [mirrors_enter request self]
  generalize enter request self = after
  obtain ⟨result, self'⟩ := after
  have hjoined (idx : Nat) : (old.place self').events[idx]? = self'.events[idx]?.map old.rename :=
    List.getElem?_map ..
  cases result with
  | ok outcome =>
      cases outcome with
      | served idx =>
          dsimp only [Except.map, Outcome.place]
          rw [hjoined]
          rfl
      | wait idx event =>
          dsimp only [Except.map, Outcome.place]
          rw [hjoined]
          rfl
  | error e => rfl

theorem resumeCall_place (self : State) (call : Call) :
    resumeCall (old.place self) (call.place old) =
      (resumeCall self call).map fun after => (old.place after.1, after.2.place old) := by
  obtain ⟨request, joined, phase⟩ := call
  unfold resumeCall Call.place
  cases phase with
  | waiting idx event =>
      dsimp only [Phase.place]
      have hflag : (old.place self).eventFlags[old.rename event]? = self.eventFlags[event]? :=
        getElem?_rename ..
      rw [hflag]
      split <;> rfl
  | woken idx =>
      dsimp only [Phase.place]
      rw [mirrors_markServed _ _ self]
      generalize markServed _ _ self = after
      obtain ⟨result, self'⟩ := after
      cases result <;> rfl
  | served idx =>
      dsimp only [Phase.place]
      rw [mirrors_readValue _ self]
      generalize readValue _ self = after
      obtain ⟨result, self'⟩ := after
      cases result <;> rfl
  | returned value => rfl
  | raised error => rfl

theorem step_place_enter (old self : System) (request : Request) :
    step (old.place self) (.enter request) = (step self (.enter request)).map old.place := by
  unfold step
  dsimp only [System.place]
  rw [startCall_place]
  simp [System.place]

theorem step_place_resume (old self : System) (index : Nat) :
    step (old.place self) (.resume (old.calls.length + index)) =
      (step self (.resume index)).map old.place := by
  unfold step
  dsimp only [System.place]
  rw [getElem?_rename, List.getElem?_map]
  cases hcall : self.calls[index]? with
  | none => rfl
  | some call =>
      dsimp only [Option.map_some]
      rw [resumeCall_place]
      cases resumeCall self.state call with
      | none => rfl
      | some after => simp [System.place, List.set_append_right, List.map_set]

theorem resumeCall_finished {state : State} {call : Call} (h : call.isFinished = true) :
    resumeCall state call = none := by
  unfold Call.isFinished at h
  unfold resumeCall
  split at h
  · next hphase => rw [hphase]
  · next hphase => rw [hphase]
  · cases h

theorem step_place_old {old self : System} (hquiet : ∀ call ∈ old.calls, call.isFinished = true)
    {index : Nat} (hlt : index < old.calls.length) :
    step (old.place self) (.resume index) = none := by
  unfold step
  dsimp only [System.place]
  rw [List.getElem?_append_left hlt, List.getElem?_eq_getElem hlt]
  dsimp only
  rw [resumeCall_finished (hquiet _ (List.getElem_mem hlt))]

end Broadcast

/-! ### The server -/

/-- No call is in progress. -/
def GRPCServer.Quiet (s : GRPCServer ι) : Prop :=
  (∀ call ∈ s.barrier.calls, call.isFinished = true) ∧
    ∀ call ∈ s.broadcast.calls, call.isFinished = true

/-- A new server on top of an old one. -/
def GRPCServer.place (old self : GRPCServer ι) : GRPCServer ι where
  barrier := old.barrier.place self.barrier
  broadcast := old.broadcast.place self.broadcast

theorem reset_place_barrier (old self : Rendezvous) : (old.place self).reset = old.place self.reset := by
  simp [Rendezvous.place, Rendezvous.reset]

theorem GRPCServer.reset_place (old self : GRPCServer ι) :
    (old.place self).reset = old.place self.reset := by
  simp [GRPCServer.place, GRPCServer.reset, System.place, Broadcast.System.place,
    reset_place_barrier, Broadcast.State.place, Broadcast.State.reset]

/-- A reset is a new server on top. -/
theorem GRPCServer.reset_eq_place (s : GRPCServer ι) :
    s.reset = s.place ⟨⟨.initial, []⟩, ⟨.initial, []⟩⟩ := by
  simp [GRPCServer.place, GRPCServer.reset, System.place, Broadcast.System.place, Rendezvous.place,
    Rendezvous.reset, Rendezvous.initial, Broadcast.State.place, Broadcast.State.reset,
    Broadcast.State.initial]

/-- The calls of the rendezvous are calls of `Barrier`. -/
def GRPCServer.Barriers (s : GRPCServer ι) : Prop :=
  ∀ call ∈ s.barrier.calls, ∃ request, call.rpc = .barrier request

theorem rpc_of_step {s s' : System ι} {action : Action ι} (h : step s action = some s')
    {call : Call ι} (hmem : call ∈ s'.calls) :
    (∃ before ∈ s.calls, call.rpc = before.rpc) ∨ ∃ client, action = .enter client call.rpc := by
  cases action with
  | enter client rpc =>
      obtain rfl := Option.some.inj h
      rcases List.mem_append.mp hmem with hold | hnew
      · exact .inl ⟨call, hold, rfl⟩
      · have heq : call = (startCall s.controller client rpc).2 := List.mem_singleton.mp hnew
        have horigin := startCall_origin s.controller client rpc
        rw [← heq] at horigin
        exact .inr ⟨client, by rw [← (Prod.mk.inj horigin).2]⟩
  | resume index =>
      obtain ⟨resumed, controller', call', hresumed, hresume, rfl⟩ := resume_cases h
      rcases List.mem_or_eq_of_mem_set hmem with hold | rfl
      · exact .inl ⟨call, hold, rfl⟩
      · exact .inl ⟨resumed, List.mem_of_getElem? hresumed,
          (Prod.mk.inj (resumeCall_origin hresume)).2⟩

theorem reachable_barriers {s : GRPCServer ι}
    (hreach : (serverMachine ι).Reachable Machine.anyMove s) : s.Barriers := by
  refine hreach.invariant GRPCServer.Barriers ?_ ?_
  · rintro s rfl call hmem
    cases hmem
  · intro s action t h _ hstep call hmem
    have hrpc {action : Action ι} (hbarrier : step s.barrier action = some t.barrier)
        (henter : ∀ client rpc, action = .enter client rpc → ∃ request, rpc = .barrier request) :
        ∃ request, call.rpc = .barrier request := by
      rcases rpc_of_step hbarrier hmem with ⟨before, hbefore, heq⟩ | ⟨client, heq⟩
      · rw [heq]
        exact h before hbefore
      · exact henter client call.rpc heq
    change serverStep s action = some t at hstep
    cases action with
    | barrier client request =>
        rw [serverStep] at hstep
        obtain ⟨barrier, hbarrier, rfl⟩ := Option.map_eq_some_iff.mp hstep
        refine hrpc hbarrier fun _ rpc henter => ?_
        exact ⟨request, (Action.enter.inj henter).2.symm⟩
    | resumeBarrier index =>
        obtain ⟨barrier, hbarrier, rfl⟩ := Option.map_eq_some_iff.mp hstep
        refine hrpc hbarrier fun _ _ henter => ?_
        cases henter
    | broadcast request =>
        rw [serverStep] at hstep
        obtain ⟨broadcast, -, rfl⟩ := Option.map_eq_some_iff.mp hstep
        exact h call hmem
    | resumeBroadcast index =>
        obtain ⟨broadcast, -, rfl⟩ := Option.map_eq_some_iff.mp hstep
        exact h call hmem
    | reset =>
        obtain rfl := Option.some.inj hstep
        exact h call hmem

/-- A step on top of a quiet server is a step of the new server. -/
theorem serverStep_place {old self t : GRPCServer ι} (hquiet : old.Quiet)
    (hbarriers : self.Barriers) {action : ServerAction ι}
    (h : serverStep (old.place self) action = some t) :
    ∃ action' next, serverStep self action' = some next ∧ t = old.place next := by
  cases action with
  | barrier client request =>
      rw [serverStep, show (old.place self).barrier = old.barrier.place self.barrier from rfl,
        step_place_enter, Option.map_map] at h
      obtain ⟨barrier, hbarrier, rfl⟩ := Option.map_eq_some_iff.mp h
      refine ⟨.barrier client request, { self with barrier := barrier }, ?_, rfl⟩
      rw [serverStep, hbarrier]
      rfl
  | resumeBarrier index =>
      rw [serverStep, show (old.place self).barrier = old.barrier.place self.barrier from rfl] at h
      rcases Nat.lt_or_ge index old.barrier.calls.length with hlt | hge
      · rw [step_place_old hquiet.1 hlt] at h
        cases h
      · obtain ⟨k, rfl⟩ := Nat.exists_eq_add_of_le hge
        rw [step_place_resume _ hbarriers, Option.map_map] at h
        obtain ⟨barrier, hbarrier, rfl⟩ := Option.map_eq_some_iff.mp h
        refine ⟨.resumeBarrier k, { self with barrier := barrier }, ?_, rfl⟩
        rw [serverStep, hbarrier]
        rfl
  | broadcast request =>
      rw [serverStep, show (old.place self).broadcast = old.broadcast.place self.broadcast from rfl,
        Broadcast.step_place_enter, Option.map_map] at h
      obtain ⟨broadcast, hbroadcast, rfl⟩ := Option.map_eq_some_iff.mp h
      refine ⟨.broadcast request, { self with broadcast := broadcast }, ?_, rfl⟩
      rw [serverStep, hbroadcast]
      rfl
  | resumeBroadcast index =>
      rw [serverStep,
        show (old.place self).broadcast = old.broadcast.place self.broadcast from rfl] at h
      rcases Nat.lt_or_ge index old.broadcast.calls.length with hlt | hge
      · rw [Broadcast.step_place_old hquiet.2 hlt] at h
        cases h
      · obtain ⟨k, rfl⟩ := Nat.exists_eq_add_of_le hge
        rw [Broadcast.step_place_resume, Option.map_map] at h
        obtain ⟨broadcast, hbroadcast, rfl⟩ := Option.map_eq_some_iff.mp h
        refine ⟨.resumeBroadcast k, { self with broadcast := broadcast }, ?_, rfl⟩
        rw [serverStep, hbroadcast]
        rfl
  | reset =>
      refine ⟨.reset, self.reset, rfl, ?_⟩
      rw [← Option.some.inj h, GRPCServer.reset_place]

/-- **A reset between the calls.**  After a reset while no call is in progress, whatever calls
and resets follow, the server is in a state that a new server reaches, up to the names of the
events and the finished calls in front. -/
theorem reset_fresh {s t : GRPCServer ι} {history : List (GRPCServer ι × ServerAction ι)}
    (hquiet : s.Quiet) (hpath : (serverMachine ι).Path Machine.anyMove s.reset history t) :
    ∃ fresh, (serverMachine ι).Reachable Machine.anyMove fresh ∧ t = s.place fresh := by
  refine Machine.Path.invariant (fun t => ∃ fresh,
    (serverMachine ι).Reachable Machine.anyMove fresh ∧ t = s.place fresh) ?_ hpath
    ⟨_, .initial rfl, s.reset_eq_place⟩
  rintro _ action t ⟨fresh, hreach, rfl⟩ _ hstep
  obtain ⟨action', next, hnext, rfl⟩ :=
    serverStep_place hquiet (reachable_barriers hreach) hstep
  exact ⟨next, hreach.step trivial hnext, rfl⟩

/-- A `Barrier` of one worker has returned. -/
def oneReturned : GRPCServer Nat where
  barrier :=
    { controller :=
        { barrierOpId := 1
          barrierCtrs := (OrderedDict.singleton 0 1).set 1 0
          barrierEvents := (OrderedDict.singleton 0 0).set 1 1
          eventFlags := [true, false]
          sessions := .empty }
      calls := [⟨0, .barrier ⟨1⟩, 0, false, .returned .barrier⟩] }
  broadcast := ⟨.initial, []⟩

/-- The next `Barrier` returns like the first call of a new server. -/
theorem reset_fresh_oneReturned : ∃ t fresh : GRPCServer Nat,
    t.barrier.calls.map Call.hasReturned = [true, true] ∧
      (serverMachine Nat).Reachable Machine.anyMove fresh ∧ t = oneReturned.place fresh := by
  have hview : ((serverMachine Nat).exec Machine.anyMove oneReturned.reset
      [.barrier 0 ⟨1⟩, .resumeBarrier 1, .resumeBarrier 1]).map
        (fun t => t.barrier.calls.map Call.hasReturned) = some [true, true] := by
    decide
  obtain ⟨t, hexec, hreturned⟩ := Option.map_eq_some_iff.mp hview
  have hquiet : oneReturned.Quiet := ⟨by decide, by decide⟩
  obtain ⟨fresh, hfresh⟩ := reset_fresh hquiet (Machine.path_of_exec _ _ _ _ hexec)
  exact ⟨t, fresh, hreturned, hfresh⟩

end Controller
end FlashReduce
