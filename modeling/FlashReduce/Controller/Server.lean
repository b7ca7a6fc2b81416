import FlashReduce.Controller.BroadcastOps
import FlashReduce.Controller.RendezvousInvariant
import FlashReduce.Library.Triple

/-!
# The server that can be reset

The class `GRPCServer` of `controller_.py` has the methods `Barrier` and `Broadcast` of
`Controller`, and a method `reset` that gives it new tables.  `reset` does not look at the
calls in progress.

* `GRPCServer` is the server with the calls of the two methods, and `serverMachine` its
  calls in any interleaving, with resets in between.
* `reset_strands`: a call that waits for an event when the server is reset, and whose event
  is not set, never returns.
-/

namespace FlashReduce
namespace Controller

open Library Library.Fallible

variable {ι : Type}

/-! ### The server -/

/-- What `GRPCServer.reset` does to the tables of `Barrier`.  The objects of the old events
stay. -/
def Rendezvous.reset (self : Rendezvous) : Rendezvous :=
  { self with
    barrierOpId := 0
    barrierCtrs := .singleton 0 0
    barrierEvents := .singleton 0 self.eventFlags.length
    eventFlags := self.eventFlags ++ [false] }

/-- What `GRPCServer.reset` does to the lists of `Broadcast`. -/
def Broadcast.State.reset (self : Broadcast.State) : Broadcast.State :=
  { self with
    values := []
    bitmap := []
    events := [] }

/-- The server with its calls of the two methods. -/
structure GRPCServer (ι : Type) where
  barrier : System ι
  broadcast : Broadcast.System

/-- `GRPCServer.reset` -/
def GRPCServer.reset (s : GRPCServer ι) : GRPCServer ι where
  barrier := { s.barrier with controller := s.barrier.controller.reset }
  broadcast := { s.broadcast with state := s.broadcast.state.reset }

inductive ServerAction (ι : Type)
  | barrier (client : ι) (request : BarrierRequest)
  | resumeBarrier (index : Nat)
  | broadcast (request : Broadcast.Request)
  | resumeBroadcast (index : Nat)
  | reset

def serverStep (s : GRPCServer ι) : ServerAction ι → Option (GRPCServer ι)
  | .barrier client request =>
      (step s.barrier (.enter client (.barrier request))).map fun barrier =>
        { s with barrier := barrier }
  | .resumeBarrier index =>
      (step s.barrier (.resume index)).map fun barrier => { s with barrier := barrier }
  | .broadcast request =>
      (Broadcast.step s.broadcast (.enter request)).map fun broadcast =>
        { s with broadcast := broadcast }
  | .resumeBroadcast index =>
      (Broadcast.step s.broadcast (.resume index)).map fun broadcast =>
        { s with broadcast := broadcast }
  | .reset => some s.reset

/-- `GRPCServer.__init__`, and the calls and resets in any order. -/
def serverMachine (ι : Type) : Machine (GRPCServer ι) (ServerAction ι) where
  init s := s = ⟨⟨.initial, []⟩, ⟨.initial, []⟩⟩
  step := serverStep

/-- A step of the server is a step of one of the methods, or a reset. -/
theorem serverStep_cases {s t : GRPCServer ι} {action : ServerAction ι}
    (h : serverStep s action = some t) :
    (∃ action, step s.barrier action = some t.barrier ∧ t.broadcast = s.broadcast) ∨
      (∃ action, Broadcast.step s.broadcast action = some t.broadcast ∧ t.barrier = s.barrier) ∨
      t = s.reset := by
  cases action with
  | barrier client request =>
      rw [serverStep] at h
      obtain ⟨barrier, hbarrier, rfl⟩ := Option.map_eq_some_iff.mp h
      exact .inl ⟨_, hbarrier, rfl⟩
  | resumeBarrier index =>
      obtain ⟨barrier, hbarrier, rfl⟩ := Option.map_eq_some_iff.mp h
      exact .inl ⟨_, hbarrier, rfl⟩
  | broadcast request =>
      rw [serverStep] at h
      obtain ⟨broadcast, hbroadcast, rfl⟩ := Option.map_eq_some_iff.mp h
      exact .inr (.inl ⟨_, hbroadcast, rfl⟩)
  | resumeBroadcast index =>
      obtain ⟨broadcast, hbroadcast, rfl⟩ := Option.map_eq_some_iff.mp h
      exact .inr (.inl ⟨_, hbroadcast, rfl⟩)
  | reset => exact .inr (.inr (Option.some.inj h).symm)

/-! ### Events that are out of reach -/

/-- The event exists and is not set, and no table leads to it. -/
def Rendezvous.Frozen (event : Nat) (self : Rendezvous) : Prop :=
  self.eventFlags[event]? = some false ∧ ∀ op, self.barrierEvents.get? op ≠ some event

variable {event : Nat}

theorem frozen_new {flags : List Bool} (h : flags[event]? = some false) :
    (flags ++ [false])[event]? = some false ∧ flags.length ≠ event := by
  obtain ⟨hlt, -⟩ := List.getElem?_eq_some_iff.mp h
  rw [List.getElem?_append_left hlt]
  exact ⟨h, Nat.ne_of_gt hlt⟩

theorem frozen_set {flags : List Bool} (h : flags[event]? = some false) {other : Nat}
    (hne : other ≠ event) : (flags.set other true)[event]? = some false := by
  rw [List.getElem?_set_ne hne]
  exact h

/-- Reset puts all events out of reach. -/
theorem Rendezvous.frozen_reset {self : Rendezvous} (h : self.eventFlags[event]? = some false) :
    self.reset.Frozen event := by
  obtain ⟨hflag, hne⟩ := frozen_new h
  refine ⟨hflag, fun op => ?_⟩
  simp only [Rendezvous.reset, OrderedDict.get?_singleton]
  split
  · simpa using hne
  · exact (Option.some_ne_none event).symm

theorem addToCounter_frozen (op : Nat) (amount : Int) :
    Keeps (Rendezvous.Frozen event) (addToCounter op amount) :=
  ((counter_readOnly op).keeps _).bind fun _ => Triple.modify _ fun _ h => h

theorem barrierEvent_frozen (op : Nat) : Triple (Rendezvous.Frozen event) (barrierEvent op)
    (fun found self => found ≠ event ∧ self.Frozen event)
    (fun _ => Rendezvous.Frozen event) := by
  refine Triple.read fun self hself => Triple.demand _ ?_ ?_
  · rintro found hfound t rfl
    refine ⟨?_, hself⟩
    rintro rfl
    exact hself.2 op hfound
  · rintro t rfl
    exact hself

theorem openNextOp_frozen : Keeps (Rendezvous.Frozen event) openNextOp := by
  refine Triple.modify _ fun self h => ?_
  obtain ⟨hflag, hne⟩ := frozen_new h.1
  refine ⟨hflag, fun op => ?_⟩
  simp only [OrderedDict.get?_set]
  split
  · simpa using hne
  · exact h.2 op

theorem joinOp_frozen (numWorkers : Nat) {register : Handler Unit}
    (hregister : Keeps (Rendezvous.Frozen event) register) :
    Keeps (Rendezvous.Frozen event) (joinOp numWorkers register) := by
  refine Triple.read fun self hself => ?_
  refine ((addToCounter_frozen _ 1).start fun t ht => ht ▸ hself).bind fun _ => ?_
  refine hregister.bind fun _ => ((counter_readOnly _).keeps _).bind fun ctr => ?_
  refine Triple.ite (fun _ => ?_) fun _ => ?_
  · exact (barrierEvent_frozen _).bind fun found => Triple.pure _ fun _ h => h.2
  · refine (barrierEvent_frozen _).bind fun found => Triple.of_fact fun hne => ?_
    have hset : Keeps (Rendezvous.Frozen event) (setEvent found) :=
      Triple.modify _ fun _ h => ⟨frozen_set h.1 hne, h.2⟩
    exact hset.bind fun _ => openNextOp_frozen.bind fun _ => Triple.pure _ fun _ h => h

theorem registerSession_frozen (request : RdmaSessionRequest) :
    Keeps (Rendezvous.Frozen event) (registerSession request) := by
  refine keeps_then (Triple.read fun self hself => ?_) fun self h => ?_
  · have hsession : Triple (fun t => t = self)
        (Fallible.demand (self.sessions.get? request.sessionId) .keyError : Handler SessionRecord)
        (fun _ => Rendezvous.Frozen event) (fun _ => Rendezvous.Frozen event) :=
      Triple.demand _ (fun _ _ t ht => ht ▸ hself) fun t ht => ht ▸ hself
    refine hsession.bind fun session => Triple.ite (fun _ => ?_) fun _ => ?_
    · exact Triple.modify _ fun _ h => h
    · exact Triple.modify _ fun _ h => h
  · split <;> exact h

theorem leaveOp_frozen (op : Nat) : Keeps (Rendezvous.Frozen event) (leaveOp op) := by
  refine (addToCounter_frozen op (-1)).bind fun _ => ((counter_readOnly op).keeps _).bind fun ctr => ?_
  refine Triple.ite (fun _ => ?_) fun _ => Triple.pure _ fun _ h => h
  refine ((counter_readOnly op).keeps _).bind fun _ => keeps_then ?_ fun _ h => h
  refine (barrierEvent_frozen op).bind fun _ => Triple.modify _ fun self h => ?_
  refine ⟨h.2.1, fun op' => ?_⟩
  simp only [OrderedDict.get?_erase]
  split
  · exact (Option.some_ne_none event).symm
  · exact h.2.2 op'

theorem enter_frozen (rpc : Rpc) : Keeps (Rendezvous.Frozen event) rpc.enter := by
  cases rpc with
  | barrier request => exact joinOp_frozen _ (Triple.pure _ fun _ h => h)
  | rdmaSession request => exact joinOp_frozen _ (registerSession_frozen request)

theorem startCall_frozen {controller : Rendezvous} (h : controller.Frozen event) (client : ι)
    (rpc : Rpc) : (startCall controller client rpc).1.Frozen event := by
  have hkept := (enter_frozen rpc).state h
  unfold startCall
  split
  · next heq =>
    rw [heq] at hkept
    exact hkept
  · next heq =>
    rw [heq] at hkept
    exact hkept

theorem resumeCall_frozen {controller controller' : Rendezvous} {call call' : Call ι}
    (h : controller.Frozen event)
    (hresume : resumeCall controller call = some (controller', call')) :
    controller'.Frozen event := by
  unfold resumeCall at hresume
  split at hresume
  · have hkept := ((mustWait_readOnly call.rpc.numWorkers call.opId).keeps _).state h
    split at hresume <;> next heq =>
      rw [heq] at hkept
      rw [← (Prod.mk.inj (Option.some.inj hresume)).1]
      exact hkept
  · obtain ⟨-, heq⟩ := Option.ite_none_right_eq_some.mp hresume
    rw [← (Prod.mk.inj (Option.some.inj heq)).1]
    exact h
  · have hkept := (leaveOp_frozen call.opId).state h
    split at hresume <;> next heq =>
      rw [heq] at hkept
      rw [← (Prod.mk.inj (Option.some.inj hresume)).1]
      exact hkept
  · have hkept := (call.rpc.finish_readOnly.keeps _).state h
    split at hresume <;> next heq =>
      rw [heq] at hkept
      rw [← (Prod.mk.inj (Option.some.inj hresume)).1]
      exact hkept
  · cases hresume
  · cases hresume

/-- A call that waits for an event out of reach. -/
structure Stranded (event index : Nat) (call : Call ι) (s : System ι) : Prop where
  here : s.calls[index]? = some call
  waiting : call.phase = .waiting event
  frozen : s.controller.Frozen event

theorem Stranded.step {index : Nat} {call : Call ι} {s s' : System ι} {action : Action ι}
    (h : Stranded event index call s) (hstep : Controller.step s action = some s') :
    Stranded event index call s' := by
  cases action with
  | enter client rpc =>
      obtain rfl := Option.some.inj hstep
      refine ⟨?_, h.waiting, startCall_frozen h.frozen client rpc⟩
      obtain ⟨hlt, -⟩ := List.getElem?_eq_some_iff.mp h.here
      rw [List.getElem?_append_left hlt]
      exact h.here
  | resume other =>
      obtain ⟨resumed, controller', call', hresumed, hresume, rfl⟩ := resume_cases hstep
      refine ⟨?_, h.waiting, resumeCall_frozen h.frozen hresume⟩
      have hne : other ≠ index := by
        rintro rfl
        rw [h.here] at hresumed
        obtain rfl := Option.some.inj hresumed
        rw [resumeCall, h.waiting] at hresume
        dsimp only at hresume
        rw [h.frozen.1] at hresume
        cases hresume
      rw [List.getElem?_set_ne hne]
      exact h.here

/-! ### The same for Broadcast -/

namespace Broadcast

/-- The event exists and is not set, and no operation has it. -/
def State.Frozen (event : Nat) (self : State) : Prop :=
  self.eventFlags[event]? = some false ∧ event ∉ self.events

theorem State.frozen_reset {self : State} (h : self.eventFlags[event]? = some false) :
    self.reset.Frozen event := ⟨h, List.not_mem_nil⟩

/-- Code that only demands a value. -/
theorem demand_frozen {α : Type} (value : Option α) (error : PyError) :
    Keeps (State.Frozen event) (Fallible.demand value error) :=
  (readOnly_demand value error).keeps _

/-- Code that reads the state first. -/
theorem read_frozen {α : Type} {rest : State → Handler α}
    (h : ∀ self, self.Frozen event → Keeps (State.Frozen event) (rest self)) :
    Keeps (State.Frozen event) (Fallible.read >>= rest) :=
  Triple.read fun self hself => (h self hself).start fun _ ht => ht ▸ hself

theorem deleteAt_subset {α : Type} {l l' : List α} {i : Nat} (h : deleteAt l i = some l') :
    l' ⊆ l := by
  obtain ⟨-, heq⟩ := Option.ite_none_right_eq_some.mp h
  rw [← Option.some.inj heq]
  exact (List.eraseIdx_sublist l i).subset

theorem deleteOp_frozen (i : Nat) : Keeps (State.Frozen event) (deleteOp i) := by
  refine read_frozen fun self _ => (demand_frozen _ _).bind fun bitmap => ?_
  refine keeps_then ?_ fun _ h => h
  refine read_frozen fun self _ => (demand_frozen _ _).bind fun values => ?_
  refine keeps_then (read_frozen fun self hself => ?_) fun _ h => h
  have hevents : Triple (State.Frozen event)
      (Fallible.demand (deleteAt self.events i) .indexError : Handler (List Nat))
      (fun events t => event ∉ events ∧ t.Frozen event) (fun _ => State.Frozen event) :=
    Triple.demand _ (fun events hdelete _ ht => ⟨fun hmem => hself.2 (deleteAt_subset hdelete hmem),
      ht⟩) fun t ht => ht
  exact hevents.bind fun events => Triple.modify _ fun t ht => ⟨ht.2.1, ht.1⟩

theorem cleanupBelow_frozen (i : Nat) : Keeps (State.Frozen event) (cleanupBelow i) := by
  induction i with
  | zero => exact Triple.pure _ fun _ h => h
  | succ i ih =>
      refine read_frozen fun self _ => (demand_frozen _ _).bind fun row => ?_
      refine Triple.ite (fun _ => ?_) fun _ => ih
      exact (deleteOp_frozen i).bind fun _ => ih

theorem searchFrom_readOnly (rank i : Nat) (rows : List (List Bool)) :
    ReadOnly (searchFrom rank i rows) := by
  induction rows generalizing i with
  | nil => exact readOnly_pure _
  | cons row rest ih =>
      refine (readOnly_demand _ _).bind fun served => ?_
      cases served with
      | false => exact readOnly_pure _
      | true => exact ih (i + 1)

theorem createOp_frozen (numWorkers : Nat) : Keeps (State.Frozen event) (createOp numWorkers) := by
  refine read_frozen fun self _ => keeps_then (keeps_then ?_ fun _ h => h) fun _ h => h
  refine keeps_then (Triple.pure _ fun _ h => h) fun self h => ?_
  obtain ⟨hflag, hne⟩ := frozen_new h.1
  refine ⟨hflag, fun hmem => ?_⟩
  rcases List.mem_append.mp hmem with hold | hnew
  · exact h.2 hold
  · exact hne (List.mem_singleton.mp hnew).symm

theorem markServed_frozen (idx rank : Nat) :
    Keeps (State.Frozen event) (markServed idx rank) := by
  refine read_frozen fun self _ => (demand_frozen _ _).bind fun row => ?_
  exact (demand_frozen _ _).bind fun row' => Triple.modify _ fun _ h => h

/-- The root sets an event of the lists. -/
theorem serve_frozen (request : Request) (idx : Nat) :
    Keeps (State.Frozen event) (serve request idx) := by
  refine Triple.ite (fun _ => ?_) fun _ => ?_
  · refine read_frozen fun self _ => (demand_frozen _ _).bind fun values => ?_
    refine keeps_then (read_frozen fun self hself => ?_) fun _ h => h
    have hset : Triple (State.Frozen event)
        (Fallible.demand self.events[idx]? .indexError : Handler Nat)
        (fun found t => found ≠ event ∧ t.Frozen event) (fun _ => State.Frozen event) := by
      refine Triple.demand _ (fun found hfound t ht => ⟨?_, ht⟩) fun t ht => ht
      rintro rfl
      exact hself.2 (List.mem_of_getElem? hfound)
    refine hset.bind fun found => Triple.of_fact fun hne => keeps_then ?_ fun _ h => ?_
    · exact (markServed_frozen _ _).bind fun _ => Triple.pure _ fun _ h => h
    · exact ⟨frozen_set h.1 hne, h.2⟩
  · refine read_frozen fun self _ => (demand_frozen _ _).bind fun value => ?_
    refine Triple.ite (fun _ => ?_) fun _ => ?_
    · refine read_frozen fun self _ => (demand_frozen _ _).bind fun found => ?_
      exact Triple.pure _ fun _ h => h
    · exact (markServed_frozen _ _).bind fun _ => Triple.pure _ fun _ h => h

theorem enter_frozen (request : Request) : Keeps (State.Frozen event) (enter request) := by
  refine read_frozen fun self _ => (cleanupBelow_frozen _).bind fun _ => ?_
  refine read_frozen fun self _ => ((searchFrom_readOnly _ _ _).keeps _).bind fun found => ?_
  cases found with
  | some i => exact serve_frozen request i
  | none => exact (createOp_frozen _).bind fun idx => serve_frozen request idx

theorem readValue_readOnly (idx : Nat) : ReadOnly (readValue idx) :=
  readOnly_read.bind fun _ => (readOnly_demand _ _).bind fun _ => readOnly_pure _

theorem startCall_frozen {state : State} (h : state.Frozen event) (request : Request) :
    (startCall state request).1.Frozen event := by
  have hkept := (enter_frozen request).state h
  unfold startCall
  split <;> next heq =>
    rw [heq] at hkept
    exact hkept

theorem resumeCall_frozen {state state' : State} {call call' : Call} (h : state.Frozen event)
    (hresume : resumeCall state call = some (state', call')) : state'.Frozen event := by
  unfold resumeCall at hresume
  split at hresume
  · obtain ⟨-, heq⟩ := Option.ite_none_right_eq_some.mp hresume
    rw [← (Prod.mk.inj (Option.some.inj heq)).1]
    exact h
  · next idx _ =>
    have hkept := (markServed_frozen idx call.request.rank).state h
    split at hresume <;> next heq =>
      rw [heq] at hkept
      rw [← (Prod.mk.inj (Option.some.inj hresume)).1]
      exact hkept
  · next idx _ =>
    have hkept := ((readValue_readOnly idx).keeps _).state h
    split at hresume <;> next heq =>
      rw [heq] at hkept
      rw [← (Prod.mk.inj (Option.some.inj hresume)).1]
      exact hkept
  · cases hresume
  · cases hresume

theorem resume_cases {s s' : System} {index : Nat} (h : step s (.resume index) = some s') :
    ∃ call state' call', s.calls[index]? = some call ∧
      resumeCall s.state call = some (state', call') ∧
        s' = ⟨state', s.calls.set index call'⟩ := by
  unfold step at h
  dsimp only at h
  split at h
  · cases h
  · next call hcall =>
    split at h
    · cases h
    · next state' call' hresume =>
      exact ⟨call, state', call', hcall, hresume, (Option.some.inj h).symm⟩

/-- A call that waits for an event out of reach. -/
structure Stranded (event idx index : Nat) (call : Call) (s : System) : Prop where
  here : s.calls[index]? = some call
  waiting : call.phase = .waiting idx event
  frozen : s.state.Frozen event

theorem Stranded.step {idx index : Nat} {call : Call} {s s' : System} {action : Action}
    (h : Stranded event idx index call s) (hstep : Broadcast.step s action = some s') :
    Stranded event idx index call s' := by
  cases action with
  | enter request =>
      obtain rfl := Option.some.inj hstep
      refine ⟨?_, h.waiting, startCall_frozen h.frozen request⟩
      obtain ⟨hlt, -⟩ := List.getElem?_eq_some_iff.mp h.here
      rw [List.getElem?_append_left hlt]
      exact h.here
  | resume other =>
      obtain ⟨resumed, state', call', hresumed, hresume, rfl⟩ := resume_cases hstep
      refine ⟨?_, h.waiting, resumeCall_frozen h.frozen hresume⟩
      have hne : other ≠ index := by
        rintro rfl
        rw [h.here] at hresumed
        obtain rfl := Option.some.inj hresumed
        rw [resumeCall, h.waiting] at hresume
        dsimp only at hresume
        rw [h.frozen.1] at hresume
        cases hresume
      rw [List.getElem?_set_ne hne]
      exact h.here

end Broadcast

/-! ### Calls that never return -/

/-- A call of `Barrier` waits for an event that was not set. -/
def GRPCServer.BarrierWaits (s : GRPCServer ι) (index : Nat) (call : Call ι) : Prop :=
  s.barrier.calls[index]? = some call ∧ ∃ event, call.phase = .waiting event ∧
    s.barrier.controller.eventFlags[event]? = some false

/-- A call of `Broadcast` waits for an event that was not set. -/
def GRPCServer.BroadcastWaits (s : GRPCServer ι) (index : Nat) (call : Broadcast.Call) : Prop :=
  s.broadcast.calls[index]? = some call ∧ ∃ idx event, call.phase = .waiting idx event ∧
    s.broadcast.state.eventFlags[event]? = some false

theorem barrier_strands {s t : GRPCServer ι} {history : List (GRPCServer ι × ServerAction ι)}
    (hpath : (serverMachine ι).Path Machine.anyMove s.reset history t) {index : Nat}
    {call : Call ι} (hwaits : s.BarrierWaits index call) : t.BarrierWaits index call := by
  obtain ⟨hhere, event, hwaiting, hflag⟩ := hwaits
  have hstranded : Stranded event index call t.barrier := by
    refine Machine.Path.invariant (fun t => Stranded event index call t.barrier) ?_ hpath
      ⟨hhere, hwaiting, Rendezvous.frozen_reset hflag⟩
    intro s action t h _ hstep
    rcases serverStep_cases hstep with ⟨_, hbarrier, -⟩ | ⟨_, -, hbarrier⟩ | rfl
    · exact h.step hbarrier
    · rw [hbarrier]
      exact h
    · exact ⟨h.here, h.waiting, Rendezvous.frozen_reset h.frozen.1⟩
  exact ⟨hstranded.here, event, hwaiting, hstranded.frozen.1⟩

theorem broadcast_strands {s t : GRPCServer ι} {history : List (GRPCServer ι × ServerAction ι)}
    (hpath : (serverMachine ι).Path Machine.anyMove s.reset history t) {index : Nat}
    {call : Broadcast.Call} (hwaits : s.BroadcastWaits index call) :
    t.BroadcastWaits index call := by
  obtain ⟨hhere, idx, event, hwaiting, hflag⟩ := hwaits
  have hstranded : Broadcast.Stranded event idx index call t.broadcast := by
    refine Machine.Path.invariant (fun t => Broadcast.Stranded event idx index call t.broadcast) ?_
      hpath ⟨hhere, hwaiting, Broadcast.State.frozen_reset hflag⟩
    intro s action t h _ hstep
    rcases serverStep_cases hstep with ⟨_, -, hbroadcast⟩ | ⟨_, hbroadcast, -⟩ | rfl
    · rw [hbroadcast]
      exact h
    · exact h.step hbroadcast
    · exact ⟨h.here, h.waiting, Broadcast.State.frozen_reset h.frozen.1⟩
  exact ⟨hstranded.here, idx, event, hwaiting, hstranded.frozen.1⟩

/-- **Reset strands the waiting calls.**  Whatever follows, a call that waits for an event that
was not set when the server is reset still waits for it. -/
theorem reset_strands {s t : GRPCServer ι} {history : List (GRPCServer ι × ServerAction ι)}
    (hpath : (serverMachine ι).Path Machine.anyMove s.reset history t) (index : Nat) :
    (∀ call, s.BarrierWaits index call → t.BarrierWaits index call) ∧
      ∀ call, s.BroadcastWaits index call → t.BroadcastWaits index call :=
  ⟨fun _ => barrier_strands hpath, fun _ => broadcast_strands hpath⟩

/-- A call of two workers' `Barrier` waits. -/
def oneWaits : GRPCServer Nat where
  barrier :=
    { controller := { Rendezvous.initial with barrierCtrs := .singleton 0 1 }
      calls := [⟨0, .barrier ⟨2⟩, 0, false, .waiting 0⟩] }
  broadcast := ⟨.initial, []⟩

/-- After the reset two workers meet, and the first call waits on. -/
theorem reset_strands_oneWaits : ∃ (t : GRPCServer Nat) (call : Call Nat),
    t.barrier.calls.map Call.hasReturned = [false, true, true] ∧ t.BarrierWaits 0 call := by
  have hview : ((serverMachine Nat).exec Machine.anyMove oneWaits.reset
      [.barrier 0 ⟨2⟩, .barrier 1 ⟨2⟩, .resumeBarrier 1, .resumeBarrier 1, .resumeBarrier 2,
        .resumeBarrier 2]).map (fun t => t.barrier.calls.map Call.hasReturned) =
          some [false, true, true] := by
    decide
  obtain ⟨t, hexec, hreturned⟩ := Option.map_eq_some_iff.mp hview
  have hpath := Machine.path_of_exec _ _ _ _ hexec
  exact ⟨t, _, hreturned, (reset_strands hpath 0).1 _ ⟨rfl, 0, rfl, rfl⟩⟩

end Controller
end FlashReduce
