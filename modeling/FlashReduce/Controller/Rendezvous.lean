import FlashReduce.Library.Fallible
import FlashReduce.Library.OrderedDict
import FlashReduce.Library.Transition

/-!
# The rendezvous of the controller

`Controller.Barrier` and `Controller.RdmaSession` run the same rendezvous over
one set of counters and events: a call joins the open barrier operation, closes
it when the counter reaches the call's own `num_workers`, tests the counter a
second time after the lock is dropped, and may wait on the operation's event and
count itself out.  `RdmaSession` also registers its request before the test and
looks its peer up, without the lock, after the rendezvous.

The module has two parts.

* The controller's fields and the pieces of the two handlers, in the order in
  which a handler runs them.  A piece that holds the lock is one definition.
* The system of calls in progress: `enter` starts a call with its first locked
  section, `resume` runs the next piece of a call.  A call keeps its place in
  the list of calls for good, so the list is in the order of the first locked
  sections.  A locked section is one step here; `FineRendezvous` runs code outside
  the lock between the statements of a section.

An event object is named by its index in `eventFlags`, the list of the flags of
all events created so far.  `Call.left` records whether a call has counted
itself out; the handlers never read it.
-/

namespace FlashReduce
namespace Controller

open Library

/-! ### Messages -/

structure BarrierRequest where
  numWorkers : Nat
  deriving DecidableEq

structure RdmaSessionRequest where
  sessionId : Nat
  rank : Nat
  numWorkers : Nat
  root : Nat
  mac : UInt64
  ipv4 : UInt32
  rkey : UInt32
  raddr : UInt64
  qpn : UInt32
  psn : UInt32
  gidSubnet : UInt64
  gidIface : UInt64
  lid : UInt32
  deriving DecidableEq

/-- An RdmaSession request of rank `rank` in session `sessionId`, without
queue-pair data. -/
def bareRequest (sessionId rank numWorkers root : Nat) : RdmaSessionRequest :=
  ⟨sessionId, rank, numWorkers, root, 0, 0, 0, 0, 0, 0, 0, 0, 0⟩

structure RdmaSessionResponse where
  rkey : UInt32
  raddr : UInt64
  qpn : UInt32
  psn : UInt32
  gidSubnet : UInt64
  gidIface : UInt64
  lid : UInt32
  deriving DecidableEq

/-- The response that carries the queue-pair data of a registered request. -/
def RdmaSessionRequest.response (req : RdmaSessionRequest) : RdmaSessionResponse where
  rkey := req.rkey
  raddr := req.raddr
  qpn := req.qpn
  psn := req.psn
  gidSubnet := req.gidSubnet
  gidIface := req.gidIface
  lid := req.lid

/-- A call of one of the two methods that share the rendezvous. -/
inductive Rpc
  | barrier (request : BarrierRequest)
  | rdmaSession (request : RdmaSessionRequest)
  deriving DecidableEq

inductive Response
  | barrier
  | rdmaSession (response : RdmaSessionResponse)
  deriving DecidableEq

def Rpc.numWorkers : Rpc → Nat
  | .barrier request => request.numWorkers
  | .rdmaSession request => request.numWorkers

def Rpc.isBarrier : Rpc → Bool
  | .barrier _ => true
  | .rdmaSession _ => false

/-- The session of a call. -/
def Rpc.sessionId? : Rpc → Option Nat
  | .barrier _ => none
  | .rdmaSession request => some request.sessionId

/-! ### The controller's fields -/

/-- The exceptions the handlers can raise. -/
inductive PyError
  | keyError
  | indexError
  | attributeError
  deriving DecidableEq

/-- One entry of `_sessions`. -/
structure SessionRecord where
  root : Option RdmaSessionRequest
  workers : OrderedDict Nat RdmaSessionRequest
  deriving DecidableEq

/-- The fields of `Controller` that the rendezvous uses. -/
structure Rendezvous where
  barrierOpId : Nat
  barrierCtrs : OrderedDict Nat Int
  barrierEvents : OrderedDict Nat Nat
  eventFlags : List Bool
  sessions : OrderedDict Nat SessionRecord
  deriving DecidableEq

/-- `Controller.__init__`: operation `0` is open with counter `0`. -/
def Rendezvous.initial : Rendezvous where
  barrierOpId := 0
  barrierCtrs := .singleton 0 0
  barrierEvents := .singleton 0 0
  eventFlags := [false]
  sessions := .empty

abbrev Handler := Fallible Rendezvous PyError

/-! ### The pieces of the handlers -/

/-- `self._barrier_ctrs[op]` -/
def counter (op : Nat) : Handler Int := do
  let self ← Fallible.read
  Fallible.demand (self.barrierCtrs.get? op) .keyError

/-- `self._barrier_ctrs[op] += amount` -/
def addToCounter (op : Nat) (amount : Int) : Handler Unit := do
  let ctr ← counter op
  Fallible.modify fun self =>
    { self with barrierCtrs := self.barrierCtrs.set op (ctr + amount) }

/-- `self._barrier_events[op]` -/
def barrierEvent (op : Nat) : Handler Nat := do
  let self ← Fallible.read
  Fallible.demand (self.barrierEvents.get? op) .keyError

/-- `event.set()` -/
def setEvent (event : Nat) : Handler Unit :=
  Fallible.modify fun self => { self with eventFlags := self.eventFlags.set event true }

/-- Open the next operation with counter `0` and a new event. -/
def openNextOp : Handler Unit :=
  Fallible.modify fun self =>
    { self with
      barrierOpId := self.barrierOpId + 1
      barrierCtrs := self.barrierCtrs.set (self.barrierOpId + 1) 0
      barrierEvents := self.barrierEvents.set (self.barrierOpId + 1) self.eventFlags.length
      eventFlags := self.eventFlags ++ [false] }

/-- The first locked section: join the open operation, run `register`, and
close the operation when the counter has reached `numWorkers`.  Returns
`current_op_id` and the event of the operation. -/
def joinOp (numWorkers : Nat) (register : Handler Unit) : Handler (Nat × Nat) := do
  let self ← Fallible.read
  let currentOpId := self.barrierOpId
  addToCounter currentOpId 1
  -- `RdmaSession` stores its request here, `Barrier` does nothing
  register
  let ctr ← counter currentOpId
  if ctr < numWorkers then
    let event ← barrierEvent currentOpId
    pure (currentOpId, event)
  else
    let event ← barrierEvent currentOpId
    setEvent event
    openNextOp
    pure (currentOpId, event)

/-- The test after the lock is dropped: whether the call has to wait.  Both
branches of the first section bind `event`, so only the counter decides. -/
def mustWait (numWorkers currentOpId : Nat) : Handler Bool := do
  let ctr ← counter currentOpId
  pure (ctr < numWorkers)

/-- The second locked section: count the call out and delete the operation's
entries when the counter is zero. -/
def leaveOp (currentOpId : Nat) : Handler Unit := do
  addToCounter currentOpId (-1)
  let ctr ← counter currentOpId
  if ctr = 0 then
    let _ ← counter currentOpId
    Fallible.modify fun self => { self with barrierCtrs := self.barrierCtrs.erase currentOpId }
    let _ ← barrierEvent currentOpId
    Fallible.modify fun self =>
      { self with barrierEvents := self.barrierEvents.erase currentOpId }

/-- `RdmaSession` stores its request in the record of its session. -/
def registerSession (request : RdmaSessionRequest) : Handler Unit := do
  Fallible.modify fun self =>
    if (self.sessions.get? request.sessionId).isSome then self
    else { self with sessions := self.sessions.set request.sessionId ⟨none, .empty⟩ }
  let self ← Fallible.read
  let session ← Fallible.demand (self.sessions.get? request.sessionId) .keyError
  if request.root = 1 then
    Fallible.modify fun self =>
      { self with
        sessions := self.sessions.set request.sessionId { session with root := some request } }
  else
    Fallible.modify fun self =>
      { self with
        sessions := self.sessions.set request.sessionId
          { session with workers := session.workers.set request.rank request } }

/-- The lookup of the peer, outside the lock. -/
def lookupPeer (request : RdmaSessionRequest) : Handler RdmaSessionResponse := do
  let self ← Fallible.read
  let session ← Fallible.demand (self.sessions.get? request.sessionId) .keyError
  if request.root = 1 then
    -- the first worker in the order of registration
    let peer ← Fallible.demand session.workers.keys.head? .indexError
    let req ← Fallible.demand (session.workers.get? peer) .keyError
    pure req.response
  else
    -- a session without a root: `None` has no attribute `rkey`
    let req ← Fallible.demand session.root .attributeError
    pure req.response

/-- The first locked section of a call. -/
def Rpc.enter : Rpc → Handler (Nat × Nat)
  | .barrier request => joinOp request.numWorkers (pure ())
  | .rdmaSession request => joinOp request.numWorkers (registerSession request)

/-- What a call does after the rendezvous. -/
def Rpc.finish : Rpc → Handler Response
  | .barrier _ => pure .barrier
  | .rdmaSession request => do
      let response ← lookupPeer request
      pure (.rdmaSession response)

/-! ### Calls in progress -/

/-- Where a call is.  `entered`: before the test outside the lock; `waiting`:
inside `event.wait()`; `woken`: the wait returned, before the second locked
section; `passed`: the rendezvous is over. -/
inductive Phase
  | entered (event : Nat)
  | waiting (event : Nat)
  | woken
  | passed
  | returned (response : Response)
  | raised (error : PyError)
  deriving DecidableEq

/-- A call, with the client that issued it. -/
structure Call (ι : Type) where
  client : ι
  rpc : Rpc
  opId : Nat
  left : Bool
  phase : Phase
  deriving DecidableEq

/-- The controller together with every call ever made, in the order of the
first locked sections. -/
structure System (ι : Type) where
  controller : Rendezvous
  calls : List (Call ι)

inductive Action (ι : Type)
  | enter (client : ι) (rpc : Rpc)
  | resume (index : Nat)
  deriving DecidableEq

variable {ι : Type}

def Call.hasReturned (call : Call ι) : Bool :=
  match call.phase with
  | .returned _ => true
  | _ => false

/-- A new call runs its first locked section. -/
def startCall (controller : Rendezvous) (client : ι) (rpc : Rpc) : Rendezvous × Call ι :=
  match rpc.enter controller with
  | (.ok (opId, event), controller') => (controller', ⟨client, rpc, opId, false, .entered event⟩)
  | (.error e, controller') =>
      (controller', ⟨client, rpc, controller.barrierOpId, false, .raised e⟩)

/-- The next piece of a call.  A waiting call is blocked until its event is
set; a call that returned or raised has no next piece. -/
def resumeCall (controller : Rendezvous) (call : Call ι) : Option (Rendezvous × Call ι) :=
  match call.phase with
  | .entered event =>
      match mustWait call.rpc.numWorkers call.opId controller with
      | (.ok true, controller') => some (controller', { call with phase := .waiting event })
      | (.ok false, controller') => some (controller', { call with phase := .passed })
      | (.error e, controller') => some (controller', { call with phase := .raised e })
  | .waiting event =>
      if controller.eventFlags[event]? = some true then
        some (controller, { call with phase := .woken })
      else none
  | .woken =>
      match leaveOp call.opId controller with
      | (.ok (), controller') => some (controller', { call with left := true, phase := .passed })
      | (.error e, controller') => some (controller', { call with phase := .raised e })
  | .passed =>
      match call.rpc.finish controller with
      | (.ok response, controller') =>
          some (controller', { call with phase := .returned response })
      | (.error e, controller') => some (controller', { call with phase := .raised e })
  | .returned _ => none
  | .raised _ => none

def step (s : System ι) : Action ι → Option (System ι)
  | .enter client rpc =>
      let (controller', call) := startCall s.controller client rpc
      some ⟨controller', s.calls ++ [call]⟩
  | .resume index =>
      match s.calls[index]? with
      | none => none
      | some call =>
          match resumeCall s.controller call with
          | none => none
          | some (controller', call') => some ⟨controller', s.calls.set index call'⟩

/-- The controller with no call made yet, and its calls in any interleaving. -/
def rendezvousMachine (ι : Type) : Machine (System ι) (Action ι) where
  init s := s = ⟨.initial, []⟩
  step := step

/-- No call of the client is in progress, and none of them raised. -/
def System.Idle (s : System ι) (client : ι) : Prop :=
  ∀ call ∈ s.calls, call.client = client → call.hasReturned = true

instance [DecidableEq ι] (s : System ι) (client : ι) : Decidable (s.Idle client) :=
  inferInstanceAs (Decidable (∀ call ∈ s.calls, call.client = client → call.hasReturned = true))

end Controller
end FlashReduce
