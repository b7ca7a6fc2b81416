import FlashReduce.Library.ByteStream
import FlashReduce.Library.Transition
import Mathlib.Algebra.Group.Nat.Defs
import Mathlib.Logic.Function.Basic

/-!
# A connection of two socket endpoints

Two `SocketEndpoint`s, the daemon and the client of one TCP connection, make calls of
`syncData` and `syncReady`.  The calls of a side are given by the buffers that it
passes, as a sequence; it may close its socket at any time, between two calls or, when
its process ends, inside one.

Every system call is one step.  Its result is chosen by the environment: `send` takes
any part of the buffer, `recv` returns any part of what has arrived, 0 at the end of
the stream, and both may fail with -1.
-/

namespace FlashReduce
namespace Socket

open Library

/-- The two values of `isDaemon_`. -/
inductive Side
  | daemon
  | client
  deriving DecidableEq, Repr

def Side.peer : Side → Side
  | .daemon => .client
  | .client => .daemon

@[simp] theorem Side.peer_peer (side : Side) : side.peer.peer = side := by
  cases side <;> rfl

theorem Side.peer_ne (side : Side) : side.peer ≠ side := by
  cases side <;> nofun

/-- A call of `syncData`: the contents of the two buffers, of `size` bytes each, and whether
they are the same buffer. -/
structure Call where
  outBuf : List UInt8
  inBuf : List UInt8
  shared : Bool
  sizes : inBuf.length = outBuf.length
  same : shared = true → inBuf = outBuf

/-- The argument `size`. -/
def Call.size (call : Call) : Nat := call.outBuf.length

/-- `syncReady` calls `syncData` with one buffer for both directions. -/
def syncReady : Call := ⟨['a'.toUInt8], ['a'.toUInt8], true, rfl, fun _ => rfl⟩

/-- Where a side is: between two calls, or before the first or second system call of
`syncData`. -/
inductive Phase
  | idle
  | first
  | second
  deriving DecidableEq, Repr

inductive Syscall
  | send
  | recv
  deriving DecidableEq, Repr

/-- The system calls of the two branches of `syncData`, in order. -/
def Side.syscall : Side → Phase → Option Syscall
  | .daemon, .first => some .send
  | .daemon, .second => some .recv
  | .client, .first => some .recv
  | .client, .second => some .send
  | _, .idle => none

/-- An endpoint, with the buffers of the current call.  `returned` are the results of the
calls that have returned, each with what `inBuf` held then. -/
structure Endpoint where
  phase : Phase
  outBuf : List UInt8
  inBuf : List UInt8
  returned : List (Int × List UInt8)
  closed : Bool

def Endpoint.initial : Endpoint := ⟨.idle, [], [], [], false⟩

/-- How many calls have returned. -/
def Endpoint.index (e : Endpoint) : Nat := e.returned.length

def Endpoint.enter (e : Endpoint) (call : Call) : Endpoint :=
  { e with phase := .first, outBuf := call.outBuf, inBuf := call.inBuf }

/-- `return rc` -/
def Endpoint.finish (e : Endpoint) (rc : Int) : Endpoint :=
  { e with phase := .idle, returned := e.returned ++ [(rc, e.inBuf)] }

/-- A system call of `syncData` has returned `rc`: `if (rc <= 0) return rc;`, and after the
second one `return 0;`. -/
def Endpoint.proceed (e : Endpoint) (rc : Int) : Endpoint :=
  if rc ≤ 0 then e.finish rc
  else if e.phase = .first then { e with phase := .second }
  else e.finish 0

/-- The conversion of a result to the `int rc`. -/
def toInt (n : Nat) : Int := (n : Int).bmod (2 ^ 32)

/-- The bytes arrive in `inBuf`, which `outBuf` may be too. -/
def Endpoint.receive (e : Endpoint) (shared : Bool) (bytes : List UInt8) : Endpoint :=
  let inBuf := bytes ++ e.inBuf.drop bytes.length
  { e with inBuf := inBuf, outBuf := if shared then inBuf else e.outBuf }

/-- Both endpoints, and the bytes that each has sent. -/
structure Connection where
  endpoint : Side → Endpoint
  stream : Side → ByteStream UInt8

def Connection.initial : Connection := ⟨fun _ => .initial, fun _ => .empty⟩

/-- The steps; `none` is the result -1 of a system call. -/
inductive Action
  | call (side : Side)
  | send (side : Side) (result : Option Nat)
  | recv (side : Side) (result : Option Nat)
  | close (side : Side)

def Connection.setEndpoint (c : Connection) (side : Side) (e : Endpoint) : Connection :=
  { c with endpoint := Function.update c.endpoint side e }

def Connection.setStream (c : Connection) (side : Side) (stream : ByteStream UInt8) : Connection :=
  { c with stream := Function.update c.stream side stream }

/-- `send` takes the first `n` bytes of a buffer of `size` bytes. -/
def SendResult (size n : Nat) : Prop := n ≤ size ∧ (n = 0 → size = 0)

/-- `recv` returns `n` of the bytes that have arrived, or 0 after the last one. -/
def RecvResult (size : Nat) (arrived : List UInt8) (closed : Bool) (n : Nat) : Prop :=
  n ≤ size ∧ n ≤ arrived.length ∧ (n = 0 → size = 0 ∨ arrived = [] ∧ closed = true)

instance (size n : Nat) : Decidable (SendResult size n) :=
  inferInstanceAs (Decidable (n ≤ size ∧ (n = 0 → size = 0)))

instance (size : Nat) (arrived : List UInt8) (closed : Bool) (n : Nat) :
    Decidable (RecvResult size arrived closed n) :=
  inferInstanceAs (Decidable (n ≤ size ∧ n ≤ arrived.length ∧
    (n = 0 → size = 0 ∨ arrived = [] ∧ closed = true)))

variable (plan : Side → Nat → Call)

/-- One step of the connection, where `plan` are the calls of both sides. -/
def step (c : Connection) : Action → Option Connection
  | .call side =>
      let e := c.endpoint side
      if e.phase = .idle ∧ e.closed = false then
        some (c.setEndpoint side (e.enter (plan side e.index)))
      else none
  | .send side result =>
      let e := c.endpoint side
      if side.syscall e.phase = some .send ∧ e.closed = false then
        match result with
        | none => some (c.setEndpoint side (e.proceed (-1)))
        | some n =>
            if SendResult (plan side e.index).size n then
              some ((c.setStream side ((c.stream side).write (e.outBuf.take n))).setEndpoint side
                (e.proceed (toInt n)))
            else none
      else none
  | .recv side result =>
      let e := c.endpoint side
      if side.syscall e.phase = some .recv ∧ e.closed = false then
        match result with
        | none => some (c.setEndpoint side (e.proceed (-1)))
        | some n =>
            let stream := c.stream side.peer
            if RecvResult (plan side e.index).size stream.available
                (c.endpoint side.peer).closed n then
              some ((c.setStream side.peer (stream.skip n)).setEndpoint side
                ((e.receive (plan side e.index).shared (stream.available.take n)).proceed
                  (toInt n)))
            else none
      else none
  | .close side => some (c.setEndpoint side { c.endpoint side with closed := true })

/-- What a step can do. -/
inductive Move (c : Connection) : Action → Connection → Prop
  | call {side} (hidle : (c.endpoint side).phase = .idle) :
      Move c (.call side) (c.setEndpoint side
        ((c.endpoint side).enter (plan side (c.endpoint side).index)))
  | send {side n} (hsyscall : side.syscall (c.endpoint side).phase = some .send)
      (hresult : SendResult (plan side (c.endpoint side).index).size n) :
      Move c (.send side (some n))
        ((c.setStream side ((c.stream side).write ((c.endpoint side).outBuf.take n))).setEndpoint
          side ((c.endpoint side).proceed (toInt n)))
  | recv {side n} (hsyscall : side.syscall (c.endpoint side).phase = some .recv)
      (hresult : RecvResult (plan side (c.endpoint side).index).size
        (c.stream side.peer).available (c.endpoint side.peer).closed n) :
      Move c (.recv side (some n))
        ((c.setStream side.peer ((c.stream side.peer).skip n)).setEndpoint side
          (((c.endpoint side).receive (plan side (c.endpoint side).index).shared
            ((c.stream side.peer).available.take n)).proceed (toInt n)))
  | sendFail {side} :
      Move c (.send side none) (c.setEndpoint side ((c.endpoint side).proceed (-1)))
  | recvFail {side} :
      Move c (.recv side none) (c.setEndpoint side ((c.endpoint side).proceed (-1)))
  | close {side} : Move c (.close side) (c.setEndpoint side { c.endpoint side with closed := true })

variable {plan} in
theorem step_move {c c' : Connection} {action : Action} (hstep : step plan c action = some c') :
    Move plan c action c' := by
  unfold step at hstep
  cases action with
  | call side =>
      dsimp only at hstep
      split at hstep
      · next hidle =>
        obtain rfl := Option.some.inj hstep
        exact .call hidle.1
      · cases hstep
  | send side result =>
      dsimp only at hstep
      split at hstep
      · next hsyscall =>
        cases result with
        | none =>
            obtain rfl := Option.some.inj hstep
            exact .sendFail
        | some n =>
            dsimp only at hstep
            split at hstep
            · next hresult =>
              obtain rfl := Option.some.inj hstep
              exact .send hsyscall.1 hresult
            · cases hstep
      · cases hstep
  | recv side result =>
      dsimp only at hstep
      split at hstep
      · next hsyscall =>
        cases result with
        | none =>
            obtain rfl := Option.some.inj hstep
            exact .recvFail
        | some n =>
            dsimp only at hstep
            split at hstep
            · next hresult =>
              obtain rfl := Option.some.inj hstep
              exact .recv hsyscall.1 hresult
            · cases hstep
      · cases hstep
  | close side =>
      obtain rfl := Option.some.inj hstep
      exact .close

/-- The connection after `accept` and `connect`. -/
def machine : Machine Connection Action where
  init c := c = .initial
  step := step plan

/-- The calls of both sides have matching sizes. -/
def Matching : Prop := ∀ k, (plan .daemon k).size = (plan .client k).size

end Socket
end FlashReduce
