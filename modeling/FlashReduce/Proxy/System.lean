import FlashReduce.Library.Transition
import FlashReduce.Proxy.Handler

/-!
# The proxy as a system

Any number of threads call `allocateArgs`, `ProxyArgsAppend`, `ProxyStart` and
the first section of `ProxyDestroy` while `persistentThread` works on the queue.
Every locked section, every call of a progress callback and every unlocked piece
of code between them is one step, with one exception: `return NULL` belongs to the
locked section that has found `stop` set, since it touches nothing after the unlock.

The slots in the hands of the callers are recorded: `returning` are those inside
`allocateArgs` after its locked section, `held` those that a caller has got and
not yet appended.  A `NULL` dereference sets `crashed`, and nothing runs after
it.
-/

namespace FlashReduce
namespace Proxy

open Library

/-- Where the worker is, with its local variable `op`.  `sleeping`: inside
`pthread_cond_wait`; `waking`: signalled, before it takes the mutex again;
`running`: inside the progress callback; `advance`: before the locked section at
the end of an iteration. -/
inductive Pc
  | top (op : Option Slot)
  | fetch
  | sleeping
  | waking
  | visit (op : Slot)
  | running (op : Slot)
  | advance (op : Slot)
  | returned (stopped : Bool)
  deriving DecidableEq

/-- The local variable `op` of the worker. -/
def Pc.op : Pc → Option Slot
  | .top op => op
  | .visit op => some op
  | .running op => some op
  | .advance op => some op
  | _ => none

/-- The worker with its local variables, and the number of its `sched_yield`
calls. -/
structure Worker where
  pc : Pc
  idle : Bool
  idleSpin : Nat
  yields : Nat
  deriving DecidableEq

def Worker.initial : Worker := ⟨.top none, true, 0, 0⟩

structure System (Chan : Type) where
  store : Store Chan
  returning : List Slot
  held : List Slot
  worker : Worker
  crashed : Bool

def System.initial (Chan : Type) : System Chan := ⟨.initial, [], [], .initial, false⟩

inductive Action (Chan : Type)
  | allocateArgs
  | allocateArgsReturn (s : Slot)
  | fill (s : Slot) (state : ProxyOpState) (proxyTail : Chan)
  | proxyArgsAppend (s : Slot)
  | proxyStart
  | requestStop
  | setAbortFlag (value : Bool)
  | worker
  | progressReturn (state : ProxyOpState) (idle : Bool)
  | spuriousWakeup

variable {Chan : Type}

/-- `pthread_cond_signal` -/
def Worker.signal (w : Worker) : Worker :=
  match w.pc with
  | .sleeping => { w with pc := .waking }
  | _ => w

/-- The end of the locked section, after its writes: `idleSpin`, `idle` and the
yield. -/
def Worker.endIteration (w : Worker) (next ops : Option Slot) : Worker :=
  let idleSpin := if w.idle then w.idleSpin else 0
  if next = ops then
    if w.idle then
      if idleSpin + 1 = 10 then ⟨.top next, true, 0, w.yields + 1⟩
      else ⟨.top next, true, idleSpin + 1, w.yields⟩
    else ⟨.top next, true, idleSpin, w.yields⟩
  else ⟨.top next, w.idle, idleSpin, w.yields⟩

variable [DecidableEq Chan]

/-- One piece of `persistentThread`.  The progress callback returns in a step of
its own. -/
def workerStep (s : System Chan) : Option (System Chan) :=
  match s.worker.pc with
  | .top op =>
      if s.store.abortFlag then some { s with worker := { s.worker with pc := .returned false } }
      else
        match op with
        | none => some { s with worker := { s.worker with pc := .fetch } }
        | some op => some { s with worker := { s.worker with pc := .visit op } }
  | .fetch =>
      -- one locked section; `pthread_cond_wait` releases the mutex
      match s.store.ops with
      | none =>
          if s.store.stop then some { s with worker := { s.worker with pc := .returned true } }
          else some { s with worker := { s.worker with pc := .sleeping } }
      | some op => some { s with worker := { s.worker with pc := .visit op } }
  | .sleeping => none
  -- the loop tests `abortFlag` again
  | .waking => some { s with worker := { s.worker with pc := .top none } }
  | .visit op =>
      let store := { s.store with idle := Function.update s.store.idle op false }
      -- without a callback `op->idle` stays 0
      if store.state op ≠ .proxyOpNone then
        some { s with store := store, worker := { s.worker with pc := .running op } }
      else
        some { s with
          store := store
          worker := { s.worker with pc := .advance op, idle := s.worker.idle && store.idle op } }
  | .running _ => none
  | .advance op =>
      match s.store.advanceWrites op with
      | none => some { s with crashed := true }
      | some (ws, next) =>
          let store := s.store.writes ws
          some { s with store := store, worker := s.worker.endIteration next store.ops }
  | .returned _ => none

/-- The progress callback returns: it has set `state` and `idle` of the
operation. -/
def progressReturn (s : System Chan) (state : ProxyOpState) (idle : Bool) :
    Option (System Chan) :=
  match s.worker.pc with
  | .running op =>
      let store :=
        { s.store with
          state := Function.update s.store.state op state
          idle := Function.update s.store.idle op idle }
      some { s with
        store := store
        worker := { s.worker with pc := .advance op, idle := s.worker.idle && store.idle op } }
  | _ => none

/-- One step of a system that has not crashed. -/
def liveStep (s : System Chan) : Action Chan → Option (System Chan)
  | .allocateArgs =>
      match s.store.allocateArgs with
      | none => some { s with crashed := true }
      | some (elem, store) => some { s with store := store, returning := elem :: s.returning }
  | .allocateArgsReturn elem =>
      if elem ∈ s.returning then
        some { s with
          store := s.store.allocateArgsReturn elem
          returning := s.returning.erase elem
          held := elem :: s.held }
      else none
  | .fill slot state proxyTail =>
      if slot ∈ s.held then some { s with store := s.store.fill slot state proxyTail } else none
  | .proxyArgsAppend slot =>
      if slot ∈ s.held then
        match s.store.proxyArgsAppend slot with
        | none => some { s with crashed := true }
        | some store => some { s with store := store, held := s.held.erase slot }
      else none
  | .proxyStart =>
      if s.store.ops ≠ none then
        some { s with store := { s.store with stop := false }, worker := s.worker.signal }
      else some s
  | .requestStop =>
      some { s with store := { s.store with stop := true }, worker := s.worker.signal }
  | .setAbortFlag value => some { s with store := { s.store with abortFlag := value } }
  | .worker => workerStep s
  | .progressReturn state idle => progressReturn s state idle
  | .spuriousWakeup =>
      match s.worker.pc with
      | .sleeping => some { s with worker := { s.worker with pc := .waking } }
      | _ => none

def step (s : System Chan) (action : Action Chan) : Option (System Chan) :=
  if s.crashed then none else liveStep s action

variable (Chan) in
/-- The proxy after `ProxyCreate`, under any interleaving. -/
def machine : Machine (System Chan) (Action Chan) where
  init s := s = .initial Chan
  step := step

/-- A slot is appended with the address of a channel cell in it. -/
def CellsGiven (s : System Chan) : Action Chan → Prop
  | .proxyArgsAppend slot => s.store.proxyTail slot ≠ none
  | _ => True

instance (s : System Chan) : ∀ action, Decidable (CellsGiven s action)
  | .proxyArgsAppend slot => inferInstanceAs (Decidable (s.store.proxyTail slot ≠ none))
  | .allocateArgs => inferInstanceAs (Decidable True)
  | .allocateArgsReturn _ => inferInstanceAs (Decidable True)
  | .fill _ _ _ => inferInstanceAs (Decidable True)
  | .proxyStart => inferInstanceAs (Decidable True)
  | .requestStop => inferInstanceAs (Decidable True)
  | .setAbortFlag _ => inferInstanceAs (Decidable True)
  | .worker => inferInstanceAs (Decidable True)
  | .progressReturn _ _ => inferInstanceAs (Decidable True)
  | .spuriousWakeup => inferInstanceAs (Decidable True)

end Proxy
end FlashReduce
