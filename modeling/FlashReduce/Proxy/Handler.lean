import Mathlib.Algebra.GroupWithZero.Nat
import Mathlib.Data.Fin.Basic
import Mathlib.Logic.Function.Basic
import Mathlib.Tactic.Common

/-!
# The proxy handler

The memory of the proxy: the slots of all pool blocks, the channel cells that
`proxyTail` points to, and the fields of `ProxyHandler`.  A slot is a pool block
and an index into its `elems`, and each field of `ProxyArgs` is a function of the
slot.  A pointer is an optional slot, and `none` is `NULL`.  Code that
dereferences `NULL` has no result.

Each locked section is a function of the memory.  The removal of a finished
operation is given as the list of its writes in program order
(`advanceWrites`), because `ProxyWaitAllOpFinished` can observe the memory
between any two of them.
-/

namespace FlashReduce
namespace Proxy

/-- `PROXYARGS_ALLOCATE_SIZE` -/
abbrev proxyArgsAllocateSize : Nat := 32

instance : NeZero proxyArgsAllocateSize := ⟨by decide⟩

/-- An element of a pool block. -/
structure Slot where
  block : Nat
  elem : Fin proxyArgsAllocateSize
  deriving DecidableEq, Repr

inductive ProxyOpState
  | proxyOpNone
  | proxyOpReady
  | proxyOpProgress
  deriving DecidableEq, Repr

/-- The memory that the proxy works on: one function for each field of
`ProxyArgs` that the queue reads or writes, the channel cells, the fields of
`ProxyHandler`, and the address of the next pool block. -/
structure Store (Chan : Type) where
  idle : Slot → Bool
  state : Slot → ProxyOpState
  proxyTail : Slot → Option Chan
  next : Slot → Option Slot
  nextPeer : Slot → Option Slot
  cell : Chan → Option Slot
  ops : Option Slot
  stop : Bool
  abortFlag : Bool
  pool : Option Slot
  pools : List Nat
  nextBlock : Nat

variable {Chan : Type}

/-- A zeroed handler after `ProxyCreate`, with every channel cell `NULL`. -/
def Store.initial : Store Chan where
  idle := fun _ => false
  state := fun _ => .proxyOpNone
  proxyTail := fun _ => none
  next := fun _ => none
  nextPeer := fun _ => none
  cell := fun _ => none
  ops := none
  stop := false
  abortFlag := false
  pool := none
  pools := []
  nextBlock := 0

/-! ### Writes -/

/-- The writes that the locked sections make to shared memory. -/
inductive Write (Chan : Type)
  | next (s : Slot) (v : Option Slot)
  | nextPeer (s : Slot) (v : Option Slot)
  | cell (c : Chan) (v : Option Slot)
  | ops (v : Option Slot)
  | pool (v : Option Slot)

variable [DecidableEq Chan]

/-- Perform one write. -/
def Store.write (st : Store Chan) : Write Chan → Store Chan
  | .next s v => { st with next := Function.update st.next s v }
  | .nextPeer s v => { st with nextPeer := Function.update st.nextPeer s v }
  | .cell c v => { st with cell := Function.update st.cell c v }
  | .ops v => { st with ops := v }
  | .pool v => { st with pool := v }

/-- Perform writes one after the other. -/
def Store.writes (st : Store Chan) (ws : List (Write Chan)) : Store Chan :=
  ws.foldl Store.write st

@[simp] theorem Store.writes_nil (st : Store Chan) : st.writes [] = st := rfl

@[simp] theorem Store.writes_cons (st : Store Chan) (w : Write Chan) (ws : List (Write Chan)) :
    st.writes (w :: ws) = (st.write w).writes ws := rfl

theorem Store.writes_append (st : Store Chan) (first second : List (Write Chan)) :
    st.writes (first ++ second) = (st.writes first).writes second :=
  List.foldl_append

/-! ### allocateArgs -/

/-- The link that the loop over a new block writes into element `i`. -/
def elemNext (block : Nat) (i : Fin proxyArgsAllocateSize) : Option Slot :=
  if h : i.val + 1 < proxyArgsAllocateSize then some ⟨block, ⟨i.val + 1, h⟩⟩ else none

omit [DecidableEq Chan] in
/-- Allocate a pool block: zeros, except for the links between its elements. -/
def Store.addPool (st : Store Chan) : Store Chan :=
  { st with
    idle := fun s => if s.block = st.nextBlock then false else st.idle s
    state := fun s => if s.block = st.nextBlock then .proxyOpNone else st.state s
    proxyTail := fun s => if s.block = st.nextBlock then none else st.proxyTail s
    next := fun s => if s.block = st.nextBlock then elemNext s.block s.elem else st.next s
    nextPeer := fun s => if s.block = st.nextBlock then none else st.nextPeer s
    pool := some ⟨st.nextBlock, 0⟩
    pools := st.nextBlock :: st.pools
    nextBlock := st.nextBlock + 1 }

/-- The locked section of `allocateArgs`. -/
def Store.allocateArgs (st : Store Chan) : Option (Slot × Store Chan) := do
  let st := if st.pool = none then st.addPool else st
  let elem ← st.pool
  pure (elem, { st with pool := st.next elem })

/-- `elem->next = elem->nextPeer = NULL`, after the lock is released. -/
def Store.allocateArgsReturn (st : Store Chan) (elem : Slot) : Store Chan :=
  st.writes [.nextPeer elem none, .next elem none]

/-- What a caller writes into the slot it got. -/
def Store.fill (st : Store Chan) (s : Slot) (state : ProxyOpState) (proxyTail : Chan) :
    Store Chan :=
  { st with
    state := Function.update st.state s state
    proxyTail := Function.update st.proxyTail s (some proxyTail) }

/-! ### ProxyArgsAppend -/

/-- The writes of `ProxyArgsAppend`. -/
def Store.appendWrites (st : Store Chan) (args : Slot) : Option (List (Write Chan)) := do
  let proxyTail ← st.proxyTail args
  match st.cell proxyTail with
  | none =>
      match st.ops with
      -- the queue is empty
      | none => pure [.next args (some args), .ops (some args), .cell proxyTail (some args)]
      | some ops =>
          pure [.next args (st.next ops), .next ops (some args), .cell proxyTail (some args)]
  -- the channel is busy: only the chain and the cell change
  | some tail => pure [.nextPeer tail (some args), .cell proxyTail (some args)]

/-- `ProxyArgsAppend` -/
def Store.proxyArgsAppend (st : Store Chan) (args : Slot) : Option (Store Chan) := do
  let ws ← st.appendWrites args
  pure (st.writes ws)

/-! ### The locked section of `persistentThread` -/

/-- The writes that take the finished operation `freeOp` out of the queue, where
`op` is the operation before it, and the operation after it. -/
def Store.unlinkWrites (st : Store Chan) (op freeOp : Slot) :
    Option (List (Write Chan) × Option Slot) :=
  match st.nextPeer freeOp with
  | some peer =>
      -- the next operation of the channel takes the place in the ring
      if op ≠ freeOp then
        pure ([.next peer (st.next freeOp), .next op (some peer)], some peer)
      else
        pure ([.next peer (some peer)], some peer)
  | none => do
      -- the channel has no other operation: its cell becomes `NULL`
      let proxyTail ← st.proxyTail freeOp
      if op ≠ freeOp then
        pure ([.cell proxyTail none, .next op (st.next freeOp)], st.next freeOp)
      else
        pure ([.cell proxyTail none], none)

/-- The writes after that: `handler->ops` moves to `next` when it pointed to
`freeOp`, and `freeOp` goes to the pool. -/
def Store.freeWrites (st : Store Chan) (freeOp : Slot) (next : Option Slot) : List (Write Chan) :=
  (if some freeOp = st.ops then [.ops next] else []) ++
    [.next freeOp st.pool, .pool (some freeOp)]

/-- The writes of the locked section for the current operation `op`, and the
next operation. -/
def Store.advanceWrites (st : Store Chan) (op : Slot) :
    Option (List (Write Chan) × Option Slot) := do
  let freeOp ← st.next op
  if st.state freeOp = .proxyOpNone then
    let (unlink, next) ← st.unlinkWrites op freeOp
    pure (unlink ++ st.freeWrites freeOp next, next)
  else
    pure ([], some freeOp)

end Proxy
end FlashReduce
