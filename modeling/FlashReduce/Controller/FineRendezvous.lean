import FlashReduce.Controller.RendezvousInvariant
import FlashReduce.Library.Simulation
import FlashReduce.Library.Triple

/-!
# The locked sections of the rendezvous, piece by piece

In `Rendezvous` a locked section is one step.  The second test of the counter, the
wait for the event and the lookup of the peer do not take the lock, though, so they
can run between any two statements of a section of another call: after the counter
has been raised, say, and before the request has been stored.

Here a section is a sequence of pieces.  `Holder` is the call that has the lock, with
the stage it has reached, and `fineStep` runs either its next piece or a piece of some
other call outside the lock.

* `Fine.settled` lets the section that is under way run to its end.
* `Ahead` is what the end of a section may change about the state in its middle, as far as
  code outside the lock can see it.
* `Fine.step_follows` shows that every step, seen through `settled`, is a step of the
  rendezvous or none, and `reachable_settled` that every run is seen as a run of the
  rendezvous.  The one thing that has to be assumed is `LookupAfterStore`: a call that
  looks its session up does not meet another call of the session between the counter and
  the stored request.  The lookup reads one record and is one piece.
* `FineMove` lists what a step may do to the calls and to the holder of the lock.
-/

namespace FlashReduce
namespace Controller

open Library Library.Fallible

variable {ι : Type}

/-! ### The pieces of the first locked section -/

/-- The call takes the id of the open operation and raises its counter. -/
def countIn : Handler Nat := do
  let self ← Fallible.read
  let currentOpId := self.barrierOpId
  addToCounter currentOpId 1
  pure currentOpId

/-- A session that is not in `_sessions` gets an empty record. -/
def createRecord (request : RdmaSessionRequest) : Handler Unit :=
  Fallible.modify fun self =>
    if (self.sessions.get? request.sessionId).isSome then self
    else { self with sessions := self.sessions.set request.sessionId ⟨none, .empty⟩ }

/-- The request goes into the record of its session. -/
def storeRequest (request : RdmaSessionRequest) : Handler Unit := do
  let self ← Fallible.read
  let session ← Fallible.demand (self.sessions.get? request.sessionId) .keyError
  if request.root = 1 then
    Fallible.modify fun self =>
      { self with
        sessions := self.sessions.set request.sessionId { session with root := some request } }
  else
    Fallible.modify fun self =>
      { self with
        sessions := self.sessions.set request.sessionId
          { session with workers := session.workers.set request.rank request } }

/-- `Barrier` has no record to create and no request to store. -/
def Rpc.createRecord : Rpc → Handler Unit
  | .barrier _ => pure ()
  | .rdmaSession request => Controller.createRecord request

def Rpc.storeRequest : Rpc → Handler Unit
  | .barrier _ => pure ()
  | .rdmaSession request => Controller.storeRequest request

/-- How far a call has come in its first locked section. -/
inductive Stage
  | counted
  | created
  | stored
  | signalled (event : Nat)
  deriving DecidableEq

/-- The next piece of the section: it leads to the next stage, or with the event of
the operation out of the section. -/
def Stage.piece (rpc : Rpc) (currentOpId : Nat) : Stage → Handler (Stage ⊕ Nat)
  | .counted => do
      rpc.createRecord
      pure (.inl .created)
  | .created => do
      rpc.storeRequest
      pure (.inl .stored)
  | .stored => do
      -- only the call that completes the operation signals it and opens the next one
      let ctr ← counter currentOpId
      if ctr < rpc.numWorkers then
        let event ← barrierEvent currentOpId
        pure (.inr event)
      else
        let event ← barrierEvent currentOpId
        setEvent event
        pure (.inl (.signalled event))
  | .signalled event => do
      openNextOp
      pure (.inr event)

/-- The counter test of the section and what follows it. -/
def closeOp (numWorkers currentOpId : Nat) : Handler Nat := do
  let ctr ← counter currentOpId
  if ctr < numWorkers then
    let event ← barrierEvent currentOpId
    pure event
  else
    let event ← barrierEvent currentOpId
    setEvent event
    openNextOp
    pure event

/-- All that is left of the section. -/
def Stage.rest (rpc : Rpc) (currentOpId : Nat) : Stage → Handler Nat
  | .counted => do
      rpc.createRecord
      rpc.storeRequest
      closeOp rpc.numWorkers currentOpId
  | .created => do
      rpc.storeRequest
      closeOp rpc.numWorkers currentOpId
  | .stored => closeOp rpc.numWorkers currentOpId
  | .signalled event => do
      openNextOp
      pure event

/-- How many pieces the section has left at most. -/
def Stage.left : Stage → Nat
  | .counted => 4
  | .created => 3
  | .stored => 2
  | .signalled _ => 1

/-- The session in whose record the request is still missing. -/
def Stage.pending (rpc : Rpc) : Stage → Option Nat
  | .counted => rpc.sessionId?
  | .created => rpc.sessionId?
  | .stored => none
  | .signalled _ => none

/-! ### The pieces of the second locked section -/

/-- How far a call has come in its second locked section. -/
inductive LeaveStage
  | counted
  | forgotten
  deriving DecidableEq

/-- The event of the operation is deleted. -/
def forgetEvent (currentOpId : Nat) : Handler Unit := do
  let _ ← barrierEvent currentOpId
  Fallible.modify fun self =>
    { self with barrierEvents := self.barrierEvents.erase currentOpId }

/-- The next piece of the section, with the stage it leads to, if any. -/
def LeaveStage.piece (currentOpId : Nat) : LeaveStage → Handler (Option LeaveStage)
  | .counted => do
      let ctr ← counter currentOpId
      -- the last call to leave deletes the entries, `del` raising when there is none
      if ctr = 0 then
        let _ ← counter currentOpId
        Fallible.modify fun self => { self with barrierCtrs := self.barrierCtrs.erase currentOpId }
        pure (some .forgotten)
      else
        pure none
  | .forgotten => do
      forgetEvent currentOpId
      pure none

/-- All that is left of the section. -/
def LeaveStage.rest (currentOpId : Nat) : LeaveStage → Handler Unit
  | .counted => do
      let ctr ← counter currentOpId
      if ctr = 0 then
        let _ ← counter currentOpId
        Fallible.modify fun self => { self with barrierCtrs := self.barrierCtrs.erase currentOpId }
        forgetEvent currentOpId
  | .forgotten => forgetEvent currentOpId

/-- How many pieces the section has left at most. -/
def LeaveStage.left : LeaveStage → Nat
  | .counted => 2
  | .forgotten => 1

/-! ### Calls in progress -/

/-- The call that has the lock.  A call that joins is not in the list of calls yet. -/
inductive Holder (ι : Type)
  | joining (client : ι) (rpc : Rpc) (opId : Nat) (stage : Stage)
  | leaving (index : Nat) (call : Call ι) (stage : LeaveStage)
  deriving DecidableEq

/-- The session in whose record the holder's request is still missing. -/
def Holder.pending : Holder ι → Option Nat
  | .joining _ rpc _ stage => stage.pending rpc
  | .leaving _ _ _ => none

/-- How many pieces the holder has left at most. -/
def Holder.left : Holder ι → Nat
  | .joining _ _ _ stage => stage.left
  | .leaving _ _ stage => stage.left

/-- The controller and its calls, together with the holder of the lock. -/
structure Fine (ι : Type) extends System ι where
  holder : Option (Holder ι)

inductive FineAction (ι : Type)
  | enter (client : ι) (rpc : Rpc)
  | proceed
  | resume (index : Nat)
  deriving DecidableEq

/-- A new call takes the lock. -/
def Fine.enter (f : Fine ι) (client : ι) (rpc : Rpc) : Fine ι :=
  match countIn f.controller with
  | (.ok opId, controller') => ⟨⟨controller', f.calls⟩, some (.joining client rpc opId .counted)⟩
  | (.error e, controller') =>
      ⟨⟨controller', f.calls ++ [⟨client, rpc, f.controller.barrierOpId, false, .raised e⟩]⟩, none⟩

/-- The holder of the lock runs its next piece. -/
def Fine.proceed (f : Fine ι) : Holder ι → Fine ι
  | .joining client rpc opId stage =>
      match stage.piece rpc opId f.controller with
      | (.ok (.inl next), controller') =>
          ⟨⟨controller', f.calls⟩, some (.joining client rpc opId next)⟩
      | (.ok (.inr event), controller') =>
          ⟨⟨controller', f.calls ++ [⟨client, rpc, opId, false, .entered event⟩]⟩, none⟩
      | (.error e, controller') =>
          ⟨⟨controller', f.calls ++ [⟨client, rpc, opId, false, .raised e⟩]⟩, none⟩
  | .leaving index call stage =>
      match stage.piece call.opId f.controller with
      | (.ok (some next), controller') =>
          ⟨⟨controller', f.calls⟩, some (.leaving index call next)⟩
      | (.ok none, controller') =>
          ⟨⟨controller', f.calls.set index { call with left := true, phase := .passed }⟩, none⟩
      | (.error e, controller') =>
          ⟨⟨controller', f.calls.set index { call with phase := .raised e }⟩, none⟩

/-- A woken call takes the lock again and counts itself out. -/
def Fine.leave (f : Fine ι) (index : Nat) (call : Call ι) : Fine ι :=
  match addToCounter call.opId (-1) f.controller with
  | (.ok (), controller') => ⟨⟨controller', f.calls⟩, some (.leaving index call .counted)⟩
  | (.error e, controller') =>
      ⟨⟨controller', f.calls.set index { call with phase := .raised e }⟩, none⟩

/-- The next piece of a call that does not have the lock.  A woken call needs it. -/
def Fine.resume (f : Fine ι) (index : Nat) : Option (Fine ι) :=
  match f.calls[index]? with
  | none => none
  | some call =>
      -- `with self.lock` after `event.wait()`
      if call.phase = .woken then
        match f.holder with
        | none => some (f.leave index call)
        | some _ => none
      else
        match resumeCall f.controller call with
        | none => none
        | some (controller', call') => some ⟨⟨controller', f.calls.set index call'⟩, f.holder⟩

def fineStep (f : Fine ι) : FineAction ι → Option (Fine ι)
  | .enter client rpc =>
      match f.holder with
      | none => some (f.enter client rpc)
      | some _ => none
  | .proceed => f.holder.map f.proceed
  | .resume index => f.resume index

def fineMachine (ι : Type) : Machine (Fine ι) (FineAction ι) where
  init f := f = ⟨⟨.initial, []⟩, none⟩
  step := fineStep

/-! ### The pieces make up the sections -/

/-- All that is left of the section is its next piece and what is left after it. -/
theorem Stage.rest_eq (rpc : Rpc) (opId : Nat) (stage : Stage) :
    stage.rest rpc opId = (do
      let next ← stage.piece rpc opId
      match next with
      | .inl later => later.rest rpc opId
      | .inr event => pure event) := by
  cases stage with
  | stored => simp only [rest, piece, closeOp, bind_then, ite_then, pure_then, then_pure]
  | counted | created | signalled => simp only [rest, piece, bind_then, pure_then]

theorem LeaveStage.rest_eq (opId : Nat) (stage : LeaveStage) :
    stage.rest opId = (do
      let next ← stage.piece opId
      match next with
      | some later => later.rest opId
      | none => pure ()) := by
  cases stage <;> simp only [rest, piece, forgetEvent, bind_then, ite_then, pure_then]
  rfl

/-- The pieces make up the first locked section. -/
theorem joinOp_eq (numWorkers : Nat) (register : Handler Unit) :
    joinOp numWorkers register = (do
      let opId ← countIn
      register
      let event ← closeOp numWorkers opId
      pure (opId, event)) := by
  simp only [joinOp, countIn, closeOp, bind_then, ite_then, pure_then]

theorem Rpc.enter_eq (rpc : Rpc) :
    rpc.enter = (do
      let opId ← countIn
      let event ← Stage.rest rpc opId .counted
      pure (opId, event)) := by
  cases rpc with
  | barrier request =>
      simp only [Rpc.enter, joinOp_eq, Stage.rest, Rpc.createRecord, Rpc.storeRequest, pure_then,
        numWorkers]
  | rdmaSession request =>
      simp only [Rpc.enter, joinOp_eq, Stage.rest, Rpc.createRecord, Rpc.storeRequest, bind_then,
        numWorkers]
      rfl

/-- The pieces make up the second locked section. -/
theorem leaveOp_eq (opId : Nat) : leaveOp opId = (do
    addToCounter opId (-1)
    LeaveStage.rest opId .counted) := rfl

/-! ### The section that is under way runs to its end -/

/-- The state in which the holder of the lock has finished its section. -/
def Fine.settled (f : Fine ι) : System ι :=
  match f.holder with
  | none => f.toSystem
  | some (.joining client rpc opId stage) =>
      match stage.rest rpc opId f.controller with
      | (.ok event, controller') =>
          ⟨controller', f.calls ++ [⟨client, rpc, opId, false, .entered event⟩]⟩
      | (.error e, controller') =>
          ⟨controller', f.calls ++ [⟨client, rpc, opId, false, .raised e⟩]⟩
  | some (.leaving index call stage) =>
      match stage.rest call.opId f.controller with
      | (.ok (), controller') =>
          ⟨controller', f.calls.set index { call with left := true, phase := .passed }⟩
      | (.error e, controller') =>
          ⟨controller', f.calls.set index { call with phase := .raised e }⟩

variable {f f' : Fine ι}

theorem Fine.settled_free (hfree : f.holder = none) : f.settled = f.toSystem := by
  simp only [settled, hfree]

/-- A piece of the section makes no difference to its end. -/
theorem Fine.settled_proceed {holder : Holder ι} (hholder : f.holder = some holder) :
    (f.proceed holder).settled = f.settled := by
  cases holder with
  | joining client rpc opId stage =>
      simp only [settled, proceed, hholder, stage.rest_eq, bind_apply]
      generalize stage.piece rpc opId f.controller = after
      obtain ⟨(error | later | event), controller'⟩ := after <;> rfl
  | leaving index call stage =>
      simp only [settled, proceed, hholder, stage.rest_eq, bind_apply]
      generalize stage.piece call.opId f.controller = after
      obtain ⟨(error | _ | later), controller'⟩ := after <;> rfl

theorem countIn_ok {self self' : Rendezvous} {opId : Nat}
    (h : countIn self = (.ok opId, self')) : opId = self.barrierOpId := by
  simp only [countIn, bind_apply, read_apply] at h
  generalize addToCounter self.barrierOpId 1 self = after at h
  obtain ⟨(error | _), controller'⟩ := after <;> cases h
  rfl

/-- Taking the lock is seen as the whole first section. -/
theorem Fine.settled_enter (hfree : f.holder = none) (client : ι) (rpc : Rpc) :
    step f.settled (.enter client rpc) = some (f.enter client rpc).settled := by
  rw [settled_free hfree]
  simp only [step, startCall, rpc.enter_eq, bind_apply, enter]
  cases hcount : countIn f.controller with
  | mk result controller' =>
      cases result with
      | error e => rfl
      | ok opId =>
          obtain rfl := countIn_ok hcount
          simp only [settled]
          generalize Stage.rest rpc f.controller.barrierOpId .counted controller' = after
          obtain ⟨(error | event), controller''⟩ := after <;> rfl

/-- Taking the lock again is seen as the whole second section. -/
theorem Fine.settled_leave (hfree : f.holder = none) {index : Nat} {call : Call ι}
    (hcall : f.calls[index]? = some call) (hwoken : call.phase = .woken) :
    step f.settled (.resume index) = some (f.leave index call).settled := by
  rw [settled_free hfree]
  simp only [step, hcall, resumeCall, hwoken, leaveOp_eq, bind_apply, leave]
  generalize addToCounter call.opId (-1) f.controller = after
  obtain ⟨(error | _), controller'⟩ := after
  · rfl
  · simp only [settled]
    generalize LeaveStage.rest call.opId .counted controller' = after
    obtain ⟨(error | _), controller''⟩ := after <;> rfl

/-! ### What can be seen outside the lock -/

/-- The session in whose record a request is still missing although it has been counted. -/
def Fine.pending (f : Fine ι) : Option Nat := f.holder.bind Holder.pending

/-- What the end of a section may change about the state in its middle: it deletes entries,
opens an operation nobody has joined, sets an event, and completes the pending record. -/
structure Ahead (pending : Option Nat) (now later : Rendezvous) : Prop where
  counters : ∀ op, later.barrierCtrs.get? op = now.barrierCtrs.get? op ∨
    later.barrierCtrs.get? op = none ∨ later.barrierCtrs.get? op = some 0
  flags : ∀ event : Nat, now.eventFlags[event]? = some true →
    later.eventFlags[event]? = some true
  sessions : ∀ sessionId, pending = some sessionId ∨
    later.sessions.get? sessionId = now.sessions.get? sessionId

variable {pending : Option Nat} {now later : Rendezvous}

theorem Ahead.refl (pending : Option Nat) (now : Rendezvous) : Ahead pending now now where
  counters _ := .inl rfl
  flags _ h := h
  sessions _ := .inr rfl

theorem counter_ahead (op : Nat) : Keeps (Ahead pending now) (counter op) :=
  (counter_readOnly op).keeps _

theorem barrierEvent_ahead (op : Nat) : Keeps (Ahead pending now) (barrierEvent op) :=
  (readOnly_read.bind fun _ => readOnly_demand _ _).keeps _

theorem setEvent_ahead (event : Nat) : Keeps (Ahead pending now) (setEvent event) := by
  refine Triple.modify _ fun later h => ⟨h.counters, fun other hother => ?_, h.sessions⟩
  have hset := h.flags other hother
  obtain ⟨hlt, -⟩ := List.getElem?_eq_some_iff.mp hset
  rcases eq_or_ne event other with rfl | hne
  · rw [List.getElem?_set_self hlt]
  · rw [List.getElem?_set_ne hne]
    exact hset

theorem openNextOp_ahead : Keeps (Ahead pending now) openNextOp := by
  refine Triple.modify _ fun later h => ⟨fun op => ?_, fun event hevent => ?_, h.sessions⟩
  · -- the new operation has nobody in it
    rw [OrderedDict.get?_set]
    split
    · exact .inr (.inr rfl)
    · exact h.counters op
  · have hset := h.flags event hevent
    rw [List.getElem?_append_left (List.getElem?_eq_some_iff.mp hset).1]
    exact hset

theorem closeOp_ahead (numWorkers op : Nat) :
    Keeps (Ahead pending now) (closeOp numWorkers op) := by
  refine (counter_ahead op).bind fun ctr => Triple.ite (fun _ => ?_) fun _ => ?_
  · exact barrierEvent_ahead op
  · refine (barrierEvent_ahead op).bind fun event => (setEvent_ahead event).bind fun _ => ?_
    exact openNextOp_ahead.bind fun _ => Triple.pure _ fun _ h => h

/-- A change of the pending record. -/
theorem Ahead.setSession {sessionId : Nat} (h : Ahead (some sessionId) now later)
    (record : SessionRecord) :
    Ahead (some sessionId) now
      { later with sessions := later.sessions.set sessionId record } := by
  refine ⟨h.counters, h.flags, fun other => ?_⟩
  rcases eq_or_ne other sessionId with rfl | hne
  · exact .inl rfl
  · rw [OrderedDict.get?_set, if_neg hne]
    exact h.sessions other

theorem createRecord_ahead (rpc : Rpc) : Keeps (Ahead rpc.sessionId? now) rpc.createRecord := by
  cases rpc with
  | barrier request => exact Triple.pure _ fun _ h => h
  | rdmaSession request =>
      refine Triple.modify _ fun later h => ?_
      split
      · exact h
      · exact h.setSession _

theorem storeRequest_ahead (rpc : Rpc) : Keeps (Ahead rpc.sessionId? now) rpc.storeRequest := by
  cases rpc with
  | barrier request => exact Triple.pure _ fun _ h => h
  | rdmaSession request =>
      refine Triple.read fun later h => ?_
      refine ((readOnly_demand _ _).keeps _).start (fun _ ht => ht ▸ h) |>.bind fun session => ?_
      exact Triple.ite (fun _ => Triple.modify _ fun _ h => h.setSession _)
        fun _ => Triple.modify _ fun _ h => h.setSession _

theorem Stage.rest_ahead (rpc : Rpc) (op : Nat) (stage : Stage) :
    Keeps (Ahead (stage.pending rpc) now) (stage.rest rpc op) := by
  cases stage with
  | counted =>
      refine (createRecord_ahead rpc).bind fun _ => (storeRequest_ahead rpc).bind fun _ => ?_
      exact closeOp_ahead _ op
  | created => exact (storeRequest_ahead rpc).bind fun _ => closeOp_ahead _ op
  | stored => exact closeOp_ahead _ op
  | signalled event => exact openNextOp_ahead.bind fun _ => Triple.pure _ fun _ h => h

theorem forgetEvent_ahead (op : Nat) : Keeps (Ahead pending now) (forgetEvent op) :=
  (barrierEvent_ahead op).bind fun _ =>
    Triple.modify _ fun _ h => ⟨h.counters, h.flags, h.sessions⟩

theorem LeaveStage.rest_ahead (op : Nat) (stage : LeaveStage) :
    Keeps (Ahead pending now) (stage.rest op) := by
  cases stage with
  | counted =>
      refine (counter_ahead op).bind fun ctr => Triple.ite (fun _ => ?_)
        fun _ => Triple.pure _ fun _ h => h
      refine (counter_ahead op).bind fun _ => keeps_then (forgetEvent_ahead op) fun later h => ?_
      refine ⟨fun other => ?_, h.flags, h.sessions⟩
      rw [OrderedDict.get?_erase]
      split
      · exact .inr (.inl rfl)
      · exact h.counters other
  | forgotten => exact forgetEvent_ahead op

theorem Fine.settled_ahead (f : Fine ι) : Ahead f.pending f.controller f.settled.controller := by
  have hrefl := Ahead.refl f.pending f.controller
  cases hholder : f.holder with
  | none =>
      rw [settled_free hholder]
      exact hrefl
  | some holder =>
      have hpending : f.pending = holder.pending := by simp [pending, hholder]
      rw [hpending] at hrefl ⊢
      simp only [settled, hholder]
      cases holder with
      | joining client rpc opId stage =>
          have hkept := (stage.rest_ahead rpc opId).state hrefl
          dsimp only
          split <;> next heq =>
            rw [heq] at hkept
            exact hkept
      | leaving index call stage =>
          have hkept := (stage.rest_ahead call.opId).state hrefl
          dsimp only
          split <;> next heq =>
            rw [heq] at hkept
            exact hkept

/-! ### Pieces outside the lock -/

theorem mustWait_congr {op : Nat} (h : later.barrierCtrs.get? op = now.barrierCtrs.get? op)
    (numWorkers : Nat) : (mustWait numWorkers op later).1 = (mustWait numWorkers op now).1 := by
  simp only [mustWait, counter, bind_apply, read_apply, h]
  cases now.barrierCtrs.get? op <;> rfl

theorem finish_congr {rpc : Rpc} (h : ∀ sessionId, rpc.sessionId? = some sessionId →
    later.sessions.get? sessionId = now.sessions.get? sessionId) :
    (rpc.finish later).1 = (rpc.finish now).1 := by
  cases rpc with
  | barrier request => rfl
  | rdmaSession request =>
      simp only [Rpc.finish, lookupPeer, bind_apply, read_apply, h request.sessionId rfl]
      cases now.sessions.get? request.sessionId with
      | none => rfl
      | some session =>
          by_cases hroot : request.root = 1
          · simp only [demand_some, pure_apply, hroot, if_true, bind_apply]
            cases session.workers.keys.head? with
            | none => rfl
            | some peer =>
                simp only [demand_some, pure_apply]
                cases session.workers.get? peer <;> rfl
          · simp only [demand_some, pure_apply, hroot, if_false, bind_apply]
            cases session.root <;> rfl

/-- A call outside the lock does in the middle of the section what it does at its end, when
its operation still counts it and the record it looks up is not pending. -/
theorem Ahead.resumeCall {call call' : Call ι} {controller' : Rendezvous}
    (h : Ahead pending now later)
    (hcounted : ∀ event, call.phase = .entered event →
      ∃ ctr, later.barrierCtrs.get? call.opId = some ctr ∧ ctr ≠ 0)
    (hstored : call.phase = .passed → ∀ sessionId, call.rpc.sessionId? = some sessionId →
      pending ≠ some sessionId)
    (hlock : call.phase ≠ .woken)
    (hresume : Controller.resumeCall now call = some (controller', call')) :
    controller' = now ∧ Controller.resumeCall later call = some (later, call') := by
  cases hphase : call.phase with
  | entered event =>
      -- the entry it tests is not among those that are deleted or opened
      obtain ⟨ctr, hctr, hpos⟩ := hcounted event hphase
      have hsame : later.barrierCtrs.get? call.opId = now.barrierCtrs.get? call.opId := by
        rcases h.counters call.opId with hsame | hnone | hzero
        · exact hsame
        · rw [hctr] at hnone
          cases hnone
        · rw [hctr] at hzero
          exact absurd (Option.some.inj hzero) hpos
      have hnow := mustWait_readOnly call.rpc.numWorkers call.opId now
      have hlater := mustWait_readOnly call.rpc.numWorkers call.opId later
      have hresult := mustWait_congr hsame call.rpc.numWorkers
      simp only [Controller.resumeCall, hphase] at hresume ⊢
      generalize mustWait call.rpc.numWorkers call.opId now = after at *
      generalize mustWait call.rpc.numWorkers call.opId later = after' at *
      obtain ⟨result, state⟩ := after
      obtain ⟨result', state'⟩ := after'
      obtain rfl : state = now := hnow
      obtain rfl : state' = later := hlater
      obtain rfl : result' = result := hresult
      obtain (error | _ | _) := result' <;> cases hresume <;> exact ⟨rfl, rfl⟩
  | waiting event =>
      simp only [Controller.resumeCall, hphase] at hresume ⊢
      obtain ⟨hset, heq⟩ := Option.ite_none_right_eq_some.mp hresume
      cases heq
      rw [if_pos (h.flags event hset)]
      exact ⟨rfl, rfl⟩
  | woken => exact absurd hphase hlock
  | passed =>
      have hnow := call.rpc.finish_readOnly now
      have hlater := call.rpc.finish_readOnly later
      have hresult : (call.rpc.finish later).1 = (call.rpc.finish now).1 := by
        -- nobody is about to store a request of the session
        refine finish_congr fun sessionId hsession => ?_
        exact (h.sessions sessionId).resolve_left (hstored hphase sessionId hsession)
      simp only [Controller.resumeCall, hphase] at hresume ⊢
      generalize call.rpc.finish now = after at *
      generalize call.rpc.finish later = after' at *
      obtain ⟨result, state⟩ := after
      obtain ⟨result', state'⟩ := after'
      obtain rfl : state = now := hnow
      obtain rfl : state' = later := hlater
      obtain rfl : result' = result := hresult
      obtain (error | response) := result' <;> cases hresume <;> exact ⟨rfl, rfl⟩
  | returned response =>
      simp only [Controller.resumeCall, hphase] at hresume
      cases hresume
  | raised error =>
      simp only [Controller.resumeCall, hphase] at hresume
      cases hresume

/-- A call that leaves an operation is still listed as woken. -/
def Fine.LeavesWoken (f : Fine ι) : Prop :=
  ∀ index call stage, f.holder = some (.leaving index call stage) →
    f.calls[index]? = some call ∧ call.phase = .woken

/-- The end of the section leaves the other calls alone, and they may move before it. -/
theorem Fine.settled_set (hwoken : f.LeavesWoken) {index : Nat} {call : Call ι}
    (hcall : f.calls[index]? = some call) (hlock : call.phase ≠ .woken) (call' : Call ι) :
    f.settled.calls[index]? = some call ∧
      (⟨⟨f.controller, f.calls.set index call'⟩, f.holder⟩ : Fine ι).settled =
        ⟨f.settled.controller, f.settled.calls.set index call'⟩ := by
  have hlt := (List.getElem?_eq_some_iff.mp hcall).1
  cases hholder : f.holder with
  | none =>
      rw [settled_free hholder]
      exact ⟨hcall, rfl⟩
  | some holder =>
      cases holder with
      | joining client rpc opId stage =>
          simp only [settled, hholder]
          generalize stage.rest rpc opId f.controller = after
          obtain ⟨(error | event), controller'⟩ := after <;> dsimp only <;>
            rw [List.getElem?_append_left hlt, List.set_append_left _ _ hlt] <;>
            exact ⟨hcall, rfl⟩
      | leaving other leaver stage =>
          -- the leaver is woken, so it is another call
          obtain ⟨hother, hphase⟩ := hwoken other leaver stage hholder
          have hne : other ≠ index := by
            rintro rfl
            rw [hcall] at hother
            cases hother
            exact hlock hphase
          simp only [settled, hholder]
          generalize stage.rest leaver.opId f.controller = after
          rw [← hcall]
          obtain ⟨(error | _), controller'⟩ := after <;> dsimp only <;>
            exact ⟨List.getElem?_set_ne hne, congrArg _ (List.set_comm _ _ hne.symm)⟩

/-- A call looks its session up only when no other call of the session is in its first locked
section with its request still to be stored. -/
def LookupAfterStore (f : Fine ι) : FineAction ι → Prop
  | .enter _ _ => True
  | .proceed => True
  | .resume index => ∀ call ∈ f.calls[index]?, call.phase = .passed →
      ∀ sessionId ∈ call.rpc.sessionId?, f.pending ≠ some sessionId

instance (f : Fine ι) : ∀ action, Decidable (LookupAfterStore f action)
  | .enter _ _ => inferInstanceAs (Decidable True)
  | .proceed => inferInstanceAs (Decidable True)
  | .resume index => inferInstanceAs (Decidable (∀ call ∈ f.calls[index]?,
      call.phase = .passed → ∀ sessionId ∈ call.rpc.sessionId?, f.pending ≠ some sessionId))

/-- The step of the rendezvous that is seen of a step in this machine. -/
def FineAction.seen : FineAction ι → Option (Action ι)
  | .enter client rpc => some (.enter client rpc)
  | .proceed => none
  | .resume index => some (.resume index)

theorem Fine.settled_resume (hwoken : f.LeavesWoken) (hinv : Inv f.settled) {index : Nat}
    (hlookup : LookupAfterStore f (.resume index)) (hresume : f.resume index = some f') :
    step f.settled (.resume index) = some f'.settled := by
  simp only [resume] at hresume
  cases hcall : f.calls[index]? with
  | none => simp [hcall] at hresume
  | some call =>
      simp only [hcall] at hresume
      by_cases hlock : call.phase = .woken
      · simp only [hlock, if_true] at hresume
        cases hholder : f.holder with
        | none =>
            simp only [hholder, Option.some.injEq] at hresume
            rw [← hresume]
            exact settled_leave hholder hcall hlock
        | some holder => simp [hholder] at hresume
      · simp only [hlock, if_false] at hresume
        cases hpiece : resumeCall f.controller call with
        | none => simp [hpiece] at hresume
        | some result =>
            obtain ⟨controller', call'⟩ := result
            simp only [hpiece, Option.some.injEq] at hresume
            obtain ⟨hget, hset⟩ := settled_set hwoken hcall hlock call'
            have hmem := List.mem_of_getElem? hget
            -- the counter of a call that has not left its operation is positive
            have hcounted : ∀ event, call.phase = .entered event →
                ∃ ctr, f.settled.controller.barrierCtrs.get? call.opId = some ctr ∧ ctr ≠ 0 := by
              intro event hphase
              have hleft : call.left = false := by
                have hok := hinv.phase call hmem
                simp only [PhaseOk, hphase] at hok
                exact hok.2
              have hgone := f.settled.gone_lt_joined hmem hleft
              exact ⟨_, hinv.ctr_of_mem hmem hleft, by omega⟩
            obtain ⟨rfl, hlater⟩ := f.settled_ahead.resumeCall hcounted
              (fun hphase => hlookup call hcall hphase) hlock hpiece
            rw [← hresume, hset]
            simp only [step, hget, hlater]

/-- **The sections are seen as one step each.** -/
theorem Fine.step_follows {guard : System ι → Action ι → Prop} {action : FineAction ι}
    (hwoken : f.LeavesWoken) (hinv : Inv f.settled) (hlookup : LookupAfterStore f action)
    (hallowed : ∀ taken, action.seen = some taken → guard f.settled taken)
    (hstep : fineStep f action = some f') :
    (rendezvousMachine ι).Follows guard f.settled action.seen f'.settled := by
  cases action with
  | enter client rpc =>
      refine ⟨hallowed _ rfl, ?_⟩
      simp only [fineStep] at hstep
      cases hholder : f.holder with
      | none =>
          simp only [hholder, Option.some.injEq] at hstep
          rw [← hstep]
          exact settled_enter hholder client rpc
      | some holder => simp [hholder] at hstep
  | proceed =>
      -- the end of the section stays the same
      obtain ⟨holder, hholder, rfl⟩ := Option.map_eq_some_iff.mp hstep
      exact settled_proceed hholder
  | resume index => exact ⟨hallowed _ rfl, settled_resume hwoken hinv hlookup hstep⟩

/-! ### What one step does to the calls -/

/-- What a step may do to the calls and to the holder of the lock, whatever the controller. -/
inductive FineMove (f : Fine ι) : FineAction ι → Fine ι → Prop
  | join (client : ι) (rpc : Rpc) (opId : Nat) (controller : Rendezvous)
      (hfree : f.holder = none) :
      FineMove f (.enter client rpc)
        ⟨⟨controller, f.calls⟩, some (.joining client rpc opId .counted)⟩
  | joinRaise (client : ι) (rpc : Rpc) (call : Call ι) (controller : Rendezvous)
      (hfree : f.holder = none) (hreturned : call.hasReturned = false) :
      FineMove f (.enter client rpc) ⟨⟨controller, f.calls ++ [call]⟩, none⟩
  | joinNext (client : ι) (rpc : Rpc) (opId : Nat) (stage next : Stage) (controller : Rendezvous)
      (hholder : f.holder = some (.joining client rpc opId stage))
      (hleft : next.left < stage.left)
      (hpending : stage.pending rpc = none → next.pending rpc = none) :
      FineMove f .proceed ⟨⟨controller, f.calls⟩, some (.joining client rpc opId next)⟩
  | joinEnd (client : ι) (rpc : Rpc) (opId : Nat) (stage : Stage) (call : Call ι)
      (controller : Rendezvous) (hholder : f.holder = some (.joining client rpc opId stage))
      (hrpc : call.rpc = rpc) (hreturned : call.hasReturned = false) :
      FineMove f .proceed ⟨⟨controller, f.calls ++ [call]⟩, none⟩
  | leave (index : Nat) (call : Call ι) (controller : Rendezvous) (hfree : f.holder = none)
      (hcall : f.calls[index]? = some call) (hwoken : call.phase = .woken) :
      FineMove f (.resume index)
        ⟨⟨controller, f.calls⟩, some (.leaving index call .counted)⟩
  | leaveRaise (index : Nat) (call call' : Call ι) (controller : Rendezvous)
      (hfree : f.holder = none) (hcall : f.calls[index]? = some call)
      (horigin : call'.origin = call.origin) (hreturned : call'.hasReturned = false) :
      FineMove f (.resume index) ⟨⟨controller, f.calls.set index call'⟩, none⟩
  | leaveNext (index : Nat) (call : Call ι) (stage next : LeaveStage) (controller : Rendezvous)
      (hholder : f.holder = some (.leaving index call stage)) (hleft : next.left < stage.left) :
      FineMove f .proceed ⟨⟨controller, f.calls⟩, some (.leaving index call next)⟩
  | leaveEnd (index : Nat) (call call' : Call ι) (stage : LeaveStage) (controller : Rendezvous)
      (hholder : f.holder = some (.leaving index call stage))
      (horigin : call'.origin = call.origin) (hreturned : call'.hasReturned = false) :
      FineMove f .proceed ⟨⟨controller, f.calls.set index call'⟩, none⟩
  | resume (index : Nat) (call call' : Call ι) (controller : Rendezvous)
      (hcall : f.calls[index]? = some call) (hwoken : call.phase ≠ .woken)
      (hpiece : resumeCall f.controller call = some (controller, call')) :
      FineMove f (.resume index) ⟨⟨controller, f.calls.set index call'⟩, f.holder⟩

theorem Stage.piece_next (rpc : Rpc) (op : Nat) (stage : Stage) :
    Triple (fun _ => True) (stage.piece rpc op)
      (fun result _ => ∀ next, result = .inl next → next.left < stage.left ∧
        (stage.pending rpc = none → next.pending rpc = none)) fun _ _ => True := by
  cases stage with
  | counted =>
      refine (Triple.any _ _).bind fun _ => Triple.pure _ fun _ _ next hnext => ?_
      cases hnext
      exact ⟨by decide, id⟩
  | created =>
      refine (Triple.any _ _).bind fun _ => Triple.pure _ fun _ _ next hnext => ?_
      cases hnext
      exact ⟨by decide, fun _ => rfl⟩
  | stored =>
      refine (Triple.any _ _).bind fun ctr => Triple.ite (fun _ => ?_) fun _ => ?_
      · refine (Triple.any _ _).bind fun event => Triple.pure _ fun _ _ next hnext => ?_
        cases hnext
      · refine (Triple.any _ _).bind fun event => (Triple.any _ _).bind fun _ => ?_
        refine Triple.pure _ fun _ _ next hnext => ?_
        cases hnext
        exact ⟨Nat.lt_succ_self 1, fun _ => rfl⟩
  | signalled event =>
      refine (Triple.any _ _).bind fun _ => Triple.pure _ fun _ _ next hnext => ?_
      cases hnext

theorem LeaveStage.piece_next (op : Nat) (stage : LeaveStage) :
    Triple (fun _ => True) (stage.piece op)
      (fun result _ => ∀ next, result = some next → next.left < stage.left) fun _ _ => True := by
  cases stage with
  | counted =>
      refine (Triple.any _ _).bind fun ctr => Triple.ite (fun _ => ?_) fun _ => ?_
      · refine (Triple.any _ _).bind fun _ => (Triple.any _ _).bind fun _ => ?_
        refine Triple.pure _ fun _ _ next hnext => ?_
        cases hnext
        decide
      · refine Triple.pure _ fun _ _ next hnext => ?_
        cases hnext
  | forgotten =>
      refine (Triple.any _ _).bind fun _ => Triple.pure _ fun _ _ next hnext => ?_
      cases hnext

/-- The list of moves is complete. -/
theorem fineStep_move {action : FineAction ι} (hstep : fineStep f action = some f') :
    FineMove f action f' := by
  cases action with
  | enter client rpc =>
      simp only [fineStep] at hstep
      split at hstep <;> cases hstep
      next hfree =>
      simp only [Fine.enter]
      split
      · exact .join client rpc _ _ hfree
      · exact .joinRaise client rpc _ _ hfree rfl
  | proceed =>
      obtain ⟨holder, hholder, rfl⟩ := Option.map_eq_some_iff.mp hstep
      cases holder with
      | joining client rpc opId stage =>
          obtain ⟨hnext, -⟩ := stage.piece_next rpc opId f.controller trivial
          simp only [Fine.proceed]
          split
          · next later controller heq =>
            obtain ⟨hleft, hpending⟩ := hnext _ (congrArg Prod.fst heq) later rfl
            exact .joinNext client rpc opId stage later controller hholder hleft hpending
          · exact .joinEnd client rpc opId stage _ _ hholder rfl rfl
          · exact .joinEnd client rpc opId stage _ _ hholder rfl rfl
      | leaving index call stage =>
          obtain ⟨hnext, -⟩ := stage.piece_next call.opId f.controller trivial
          simp only [Fine.proceed]
          split
          · next later controller heq =>
            exact .leaveNext index call stage later controller hholder
              (hnext _ (congrArg Prod.fst heq) later rfl)
          · exact .leaveEnd index call _ stage _ hholder rfl rfl
          · exact .leaveEnd index call _ stage _ hholder rfl rfl
  | resume index =>
      simp only [fineStep, Fine.resume] at hstep
      split at hstep
      · cases hstep
      · next call hcall =>
        split at hstep
        · next hwoken =>
          split at hstep <;> cases hstep
          next hfree =>
          simp only [Fine.leave]
          split
          · exact .leave index call _ hfree hcall hwoken
          · exact .leaveRaise index call _ _ hfree hcall rfl rfl
        · next hwoken =>
          split at hstep
          · cases hstep
          · next controller call' hpiece =>
            cases hstep
            exact .resume index call call' controller hcall hwoken hpiece

theorem Fine.LeavesWoken.step {action : FineAction ι} (h : f.LeavesWoken)
    (hstep : fineStep f action = some f') : f'.LeavesWoken := by
  intro index leaver stage hholder
  cases fineStep_move hstep with
  | join | joinRaise | joinNext | joinEnd | leaveRaise | leaveEnd => cases hholder
  | leave other call controller hfree hcall hwoken =>
      cases hholder
      exact ⟨hcall, hwoken⟩
  | leaveNext other call reached next controller hold =>
      cases hholder
      exact h index leaver reached hold
  | resume other call call' controller hcall hwoken =>
      obtain ⟨hget, hphase⟩ := h index leaver stage hholder
      have hne : other ≠ index := by
        rintro rfl
        rw [hcall] at hget
        cases hget
        exact hwoken hphase
      exact ⟨(List.getElem?_set_ne hne).trans hget, hphase⟩

theorem reachable_leavesWoken {guard : Fine ι → FineAction ι → Prop}
    (hreach : (fineMachine ι).Reachable guard f) : f.LeavesWoken := by
  refine hreach.invariant Fine.LeavesWoken ?_ fun _ _ _ h _ hstep => h.step hstep
  rintro f rfl index call stage hholder
  cases hholder

/-- A run of the machine is seen as a run of the rendezvous. -/
theorem reachable_settled {guard : Fine ι → FineAction ι → Prop}
    {coarse : System ι → Action ι → Prop}
    (hlookup : ∀ f action, guard f action → LookupAfterStore f action)
    (henter : ∀ f client rpc, guard f (.enter client rpc) →
      coarse f.toSystem (.enter client rpc))
    (hresume : ∀ s index, coarse s (.resume index))
    (hreach : (fineMachine ι).Reachable guard f) :
    (rendezvousMachine ι).Reachable coarse f.settled := by
  refine hreach.refines Fine.settled FineAction.seen ?_ ?_
  · rintro f rfl
    rfl
  · intro f action f' hbefore hmapped hguard hstep
    refine Fine.step_follows (reachable_leavesWoken hbefore) (reachable_inv hmapped)
      (hlookup f action hguard) (fun taken htaken => ?_) hstep
    cases action with
    | enter client rpc =>
        cases htaken
        have hfree : f.holder = none := by
          cases hholder : f.holder with
          | none => rfl
          | some holder =>
              simp only [fineMachine, fineStep, hholder] at hstep
              cases hstep
        rw [Fine.settled_free hfree]
        exact henter f client rpc hguard
    | proceed => cases htaken
    | resume index =>
        cases htaken
        exact hresume _ index

end Controller
end FlashReduce
