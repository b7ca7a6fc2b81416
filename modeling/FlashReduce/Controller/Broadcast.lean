import FlashReduce.Library.Fallible
import FlashReduce.Library.Transition
import FlashReduce.Controller.Rendezvous

/-!
# Broadcast

`Controller.Broadcast` keeps one operation per position of three parallel lists:
the value (or `None`), the row of ranks that have been served, and the event the
waiting ranks block on.  A call deletes the operations that served every rank,
selects the first one that has not served its own rank (or appends a new one),
and stores or picks up the value there.  A rank that comes before the root
releases the lock, waits, and marks itself as served at the position it had
selected; every call reads the value it returns at that position after the lock
has been released.

The first part of the module models the fields and the pieces of the handler,
the second part the calls in progress.  `Call.joined` is the event of the
operation a call selected; the handler never reads it.
-/

namespace FlashReduce
namespace Controller
namespace Broadcast

open Library

/-! ### The fields and the request -/

structure Request where
  value : UInt64
  rank : Nat
  numWorkers : Nat
  root : Nat
  deriving DecidableEq

/-- The fields of `Controller` that `Broadcast` uses, and the flags of all
events created so far. -/
structure State where
  values : List (Option UInt64)
  bitmap : List (List Bool)
  events : List Nat
  eventFlags : List Bool
  deriving DecidableEq

def State.initial : State := ⟨[], [], [], []⟩

abbrev Handler := Fallible State PyError

/-! ### The pieces of the handler -/

/-- `del l[i]`, or nothing when `i` is out of range. -/
def deleteAt {α : Type} (l : List α) (i : Nat) : Option (List α) :=
  if i < l.length then some (l.eraseIdx i) else none

/-- `l[i] = a`, or nothing when `i` is out of range. -/
def assignAt {α : Type} (l : List α) (i : Nat) (a : α) : Option (List α) :=
  if i < l.length then some (l.set i a) else none

/-- Delete position `i` of the three lists, one after the other. -/
def deleteOp (i : Nat) : Handler Unit := do
  let bitmap ← Fallible.demand (deleteAt (← Fallible.read).bitmap i) .indexError
  Fallible.modify fun self => { self with bitmap := bitmap }
  let values ← Fallible.demand (deleteAt (← Fallible.read).values i) .indexError
  Fallible.modify fun self => { self with values := values }
  let events ← Fallible.demand (deleteAt (← Fallible.read).events i) .indexError
  Fallible.modify fun self => { self with events := events }

/-- The cleanup loop over the positions below `i`, from the last to the first. -/
def cleanupBelow : Nat → Handler Unit
  | 0 => pure ()
  | i + 1 => do
      let row ← Fallible.demand (← Fallible.read).bitmap[i]? .indexError
      if row.all id then deleteOp i
      cleanupBelow i

/-- The search loop from position `i` on: the first row that has not served the
rank. -/
def searchFrom (rank : Nat) : Nat → List (List Bool) → Handler (Option Nat)
  | _, [] => pure none
  | i, row :: rest => do
      let served ← Fallible.demand row[rank]? .indexError
      if !served then pure (some i) else searchFrom rank (i + 1) rest

/-- Append a new operation and return its position. -/
def createOp (numWorkers : Nat) : Handler Nat := do
  let idx := (← Fallible.read).bitmap.length
  Fallible.modify fun self =>
    { self with bitmap := self.bitmap ++ [List.replicate numWorkers false] }
  Fallible.modify fun self => { self with values := self.values ++ [none] }
  Fallible.modify fun self =>
    { self with
      events := self.events ++ [self.eventFlags.length]
      eventFlags := self.eventFlags ++ [false] }
  pure idx

/-- `self._bcast_bitmap[idx][rank] = True` -/
def markServed (idx rank : Nat) : Handler Unit := do
  let row ← Fallible.demand (← Fallible.read).bitmap[idx]? .indexError
  let row' ← Fallible.demand (assignAt row rank true) .indexError
  Fallible.modify fun self => { self with bitmap := self.bitmap.set idx row' }

/-- How the first locked section ends: the call has been served at a position,
or it waits for an event before it is served there. -/
inductive Outcome
  | served (idx : Nat)
  | wait (idx event : Nat)
  deriving DecidableEq

/-- The first locked section, up to the release of the lock. -/
def enter (request : Request) : Handler Outcome := do
  cleanupBelow (← Fallible.read).bitmap.length
  -- the search starts after the cleanup, on the shortened list
  let found ← searchFrom request.rank 0 (← Fallible.read).bitmap
  let idx ← match found with
    | some i => pure i
    | none => createOp request.numWorkers
  if request.rank = request.root then
    let values ←
      Fallible.demand (assignAt (← Fallible.read).values idx (some request.value)) .indexError
    Fallible.modify fun self => { self with values := values }
    let event ← Fallible.demand (← Fallible.read).events[idx]? .indexError
    Fallible.modify fun self => { self with eventFlags := self.eventFlags.set event true }
    markServed idx request.rank
    pure (.served idx)
  else
    let value ← Fallible.demand (← Fallible.read).values[idx]? .indexError
    if value = none then
      -- the position is kept while the lock is released
      let event ← Fallible.demand (← Fallible.read).events[idx]? .indexError
      pure (.wait idx event)
    else
      markServed idx request.rank
      pure (.served idx)

/-- The value of the response, read without the lock.  A message field that is
given `None` keeps its default `0`. -/
def readValue (idx : Nat) : Handler UInt64 := do
  let value ← Fallible.demand (← Fallible.read).values[idx]? .indexError
  pure (value.getD 0)

/-! ### Calls in progress -/

/-- Where a call is.  `waiting`: inside `current_event.wait()`; `woken`: the wait
returned, before the lock is taken again; `served`: the lock is released, before
the value is read. -/
inductive Phase
  | waiting (idx event : Nat)
  | woken (idx : Nat)
  | served (idx : Nat)
  | returned (value : UInt64)
  | raised (error : PyError)
  deriving DecidableEq

structure Call where
  request : Request
  joined : Option Nat
  phase : Phase
  deriving DecidableEq

/-- The fields together with every call ever made, in the order of the first
locked sections. -/
structure System where
  state : State
  calls : List Call
  deriving DecidableEq

inductive Action
  | enter (request : Request)
  | resume (index : Nat)
  deriving DecidableEq

def Call.hasReturned (call : Call) : Bool :=
  match call.phase with
  | .returned _ => true
  | _ => false

/-- A new call runs its first locked section. -/
def startCall (state : State) (request : Request) : State × Call :=
  match Broadcast.enter request state with
  | (.ok (.served idx), state') => (state', ⟨request, state'.events[idx]?, .served idx⟩)
  | (.ok (.wait idx event), state') => (state', ⟨request, state'.events[idx]?, .waiting idx event⟩)
  | (.error e, state') => (state', ⟨request, none, .raised e⟩)

/-- The next piece of a call. -/
def resumeCall (state : State) (call : Call) : Option (State × Call) :=
  match call.phase with
  | .waiting idx event =>
      if state.eventFlags[event]? = some true then some (state, { call with phase := .woken idx })
      else none
  | .woken idx =>
      match markServed idx call.request.rank state with
      | (.ok (), state') => some (state', { call with phase := .served idx })
      | (.error e, state') => some (state', { call with phase := .raised e })
  | .served idx =>
      match readValue idx state with
      | (.ok value, state') => some (state', { call with phase := .returned value })
      | (.error e, state') => some (state', { call with phase := .raised e })
  | .returned _ => none
  | .raised _ => none

def step (s : System) : Action → Option System
  | .enter request =>
      let (state', call) := startCall s.state request
      some ⟨state', s.calls ++ [call]⟩
  | .resume index =>
      match s.calls[index]? with
      | none => none
      | some call =>
          match resumeCall s.state call with
          | none => none
          | some (state', call') => some ⟨state', s.calls.set index call'⟩

/-- The controller with no call made yet, and its Broadcast calls in any
interleaving. -/
def machine : Machine System Action where
  init s := s = ⟨.initial, []⟩
  step := step

/-- The calls of one rank, in the order in which they entered. -/
def System.callsOf (s : System) (rank : Nat) : List Call :=
  s.calls.filter fun call => call.request.rank = rank

/-- Every call the rank made has returned. -/
def System.Idle (s : System) (rank : Nat) : Prop :=
  ∀ call ∈ s.calls, call.request.rank = rank → call.hasReturned = true

instance (s : System) (rank : Nat) : Decidable (s.Idle rank) :=
  inferInstanceAs (Decidable
    (∀ call ∈ s.calls, call.request.rank = rank → call.hasReturned = true))

end Broadcast
end Controller
end FlashReduce
