import FlashReduce.Rdma.Transitions
import FlashReduce.Socket.Handshake
import FlashReduce.WriteTest.Script

/-!
# The two hosts of a write test

The daemon of the socket is the server, which posts receives, and the client posts writes
with immediate data.  Each host runs its script; the socket, the network and the
completion queues are the environment.

* `Test` is a pair of scripts with the values that both hosts use, and the conditions that
  make the scripts fit together: what the client sends after a `sync` is covered by the
  receives that the server has posted before its own.
* A step of a host is the next command of its script.  The worker of a proxy makes rounds of
  the benchmark too, from the moment when its host has appended the operation: it need not
  wait until the host has closed its socket.
* A write that arrives consumes a posted receive.  When there is none, or the server's queue
  pair is not connected, the write is `refused`; nothing in the programs handles that.
* `rdmaWriteTest` and `proxySendRecv` are the programs of the repository.
-/

namespace FlashReduce
namespace WriteTest

open Library Controller Rdma Benchmark Socket

/-- The object representation of `QpInfo`, which the two programs have in common. -/
structure QpInfoBytes where
  size : Nat
  bytes : QpInfo → List UInt8
  ofBytes : List UInt8 → QpInfo
  size_pos : 0 < size
  size_lt : size < 2 ^ 31
  length_bytes : ∀ info, (bytes info).length = size
  ofBytes_bytes : ∀ info, ofBytes (bytes info) = info

/-- `kSendQueueDepth` -/
def kSendQueueDepth : Nat := 256
/-- `kReceiveQueueDepth` -/
def kReceiveQueueDepth : Nat := 512
/-- `kCompletionQueueDepth` -/
def kCompletionQueueDepth : Nat := 1024

/-! ### Tests -/

/-- What a side does after the exchange of the `QpInfo`s and `modify_qp_to_rts`, before and
after it closes the socket. -/
structure Script where
  before : List Command
  after : List Command
  before_open : .closeSocket ∉ before
  after_closed : .closeSocket ∉ after
  after_syncs : syncs after = 0
  after_recvs : weight Command.recvs after = 0
  /-- The queue pairs are connected only once. -/
  connects : .modifyQpToRts ∉ before ++ after

def Script.rest (script : Script) : List Command :=
  script.before ++ .closeSocket :: script.after

/-- Two scripts that fit together. -/
structure Test (σ τ : Type) where
  parts : Side → Script
  sender : Sender σ
  receiver : Receiver τ
  mtu : IbvMtu
  /-- the transport of the queue pairs -/
  qpType : QpType
  /-- what `modify_qp_to_rts` is called with -/
  reliable : Int
  names : Names reliable qpType
  /-- The client sends nothing before its next `sync`. -/
  quiet : weightBefore Command.sends (parts .client).rest 0 = 0
  /-- What the client sends is covered by what the server has posted one `sync` before. -/
  covered : ∀ k, weightBefore Command.sends (parts .client).rest (k + 1) ≤
    weightBefore Command.recvs (parts .daemon).rest k
  /-- The client waits for every call of the server. -/
  waits : syncs (parts .daemon).rest ≤ syncs (parts .client).rest
  daemon_syncs : 0 < syncs (parts .daemon).rest
  recvs_le : weight Command.recvs (parts .daemon).rest ≤ kReceiveQueueDepth
  sends_le : weight Command.sends (parts .client).rest ≤ kSendQueueDepth

variable {σ τ : Type}

def Test.rest (t : Test σ τ) (side : Side) : List Command := (t.parts side).rest

def Test.script (t : Test σ τ) (side : Side) : List Command :=
  .sync :: .modifyQpToRts :: t.rest side

theorem Test.connects (t : Test σ τ) (side : Side) : .modifyQpToRts ∉ t.rest side := by
  simpa [Test.rest, Script.rest] using (t.parts side).connects

/-- After its `closeSocket` a side makes no calls and posts no receives. -/
theorem Test.closes (t : Test σ τ) (side : Side) (before after : List Command)
    (h : t.rest side = before ++ .closeSocket :: after) :
    syncs after = 0 ∧ weight Command.recvs after = 0 := by
  obtain ⟨-, -, rfl⟩ := (List.append_cons_inj_of_notMem (t.parts side).before_open
    (t.parts side).after_closed).mp h
  exact ⟨(t.parts side).after_syncs, (t.parts side).after_recvs⟩

/-- The queue pairs of the two hosts, and what `neighbor_qp_info` holds before the exchange. -/
structure Hosts where
  repr : QpInfoBytes
  info : Side → QpInfo
  memory : Side → List UInt8
  length_memory : ∀ side, (memory side).length = repr.size
  psn_zero : ∀ side, (info side).psn = 0

/-- The calls on the socket: `syncData` of the `QpInfo`s, and then `syncReady`. -/
def Hosts.plan (hosts : Hosts) (side : Side) : Nat → Call
  | 0 =>
      { outBuf := hosts.repr.bytes (hosts.info side)
        inBuf := hosts.memory side
        shared := false
        sizes := by rw [hosts.length_memory, hosts.repr.length_bytes]
        same := by nofun }
  | _ + 1 => syncReady

/-! ### States -/

structure State (σ τ : Type) where
  conn : Connection
  done : Side → List Command
  left : Side → List Command
  qp : Side → QpAttr
  sender : σ
  receiver : τ
  /-- the writes that are on their way -/
  inFlight : Nat
  /-- the writes that have consumed a receive -/
  arrived : Nat
  /-- the completions of them that the server has polled -/
  taken : Nat
  /-- the sends that have completed -/
  completed : Nat
  refused : Nat

inductive Action
  /-- a step of a call on the socket -/
  | socket (action : Socket.Action)
  /-- the next step of a host, in which a poll returns the given number -/
  | run (side : Side) (numCompletions : Nat)
  /-- a visit of the worker of a proxy, whose host has appended the operation and has to close
  the socket -/
  | visit (side : Side) (numCompletions : Nat)
  | deliver
  | lose
  | complete

/-- The result of `ibv_poll_cq(cq, 32, wcs)` at the server: the next completions, at most as
many as there are. -/
def pollResult (posted : List UInt64) (arrived taken numCompletions : Nat) : PollResult where
  wcs := ((posted.take arrived).drop taken).take (min numCompletions 32)
  length_le := (List.length_take_le ..).trans (Nat.min_le_right ..)

variable (t : Test σ τ) (hosts : Hosts) (ibvModifyQp : ModifyQp)

/-- The host has finished the command. -/
def State.advance (s : State σ τ) (side : Side) (command : Command) : State σ τ :=
  { s with
    done := Function.update s.done side (s.done side ++ [command])
    left := Function.update s.left side (s.left side).tail }

/-- `neighbor_qp_info` after the first call on the socket. -/
def State.neighborQpInfo (s : State σ τ) (side : Side) : Option QpInfo :=
  (s.conn.endpoint side).returned[0]?.map fun result => hosts.repr.ofBytes result.2

/-- A round of the benchmark of the server. -/
def State.receive (s : State σ τ) (numCompletions : Nat) : State σ τ :=
  let poll := pollResult (t.receiver.recvs s.receiver).posted s.arrived s.taken numCompletions
  match t.receiver.round s.receiver poll with
  | some receiver =>
      { s with
        receiver := receiver
        taken := if t.receiver.polls s.receiver then s.taken + poll.numCompletions else s.taken }
  | none => s.advance .daemon .benchmark

/-- A round of the benchmark of the client. -/
def State.send (s : State σ τ) (numCompletions : Nat) : State σ τ :=
  let outstanding := s.completed - (t.sender.sends s.sender).polled
  match t.sender.round s.sender (min numCompletions (min outstanding 32)) with
  | some sender =>
      { s with
        sender := sender
        inFlight := s.inFlight +
          ((t.sender.sends sender).posted.length - (t.sender.sends s.sender).posted.length) }
  | none => s.advance .client .benchmark

/-- `modify_qp_to_rts` and the `CHECK` of its result. -/
def State.connect (s : State σ τ) (side : Side) : Option (State σ τ) :=
  match s.neighborQpInfo hosts side with
  | none => none
  | some neighborQpInfo =>
      match modifyQpToRts ibvModifyQp (s.qp side) neighborQpInfo t.mtu t.reliable with
      | none => none
      | some (ret, qp) =>
          if 0 ≤ ret then
            some { s.advance side .modifyQpToRts with qp := Function.update s.qp side qp }
          else none

/-- A step of a host whose next command this is. -/
def State.execute (s : State σ τ) (numCompletions : Nat) :
    Side → Command → Option (State σ τ)
  | side, .sync =>
      if syncs (s.done side) < (s.conn.endpoint side).index then some (s.advance side .sync)
      else none
  | side, .modifyQpToRts => s.connect t hosts ibvModifyQp side
  | .daemon, .postRecv wrId =>
      some { s.advance .daemon (.postRecv wrId) with
        receiver := t.receiver.withRecvs s.receiver
          ((t.receiver.recvs s.receiver).postRecv wrId) }
  | .client, .postSend wrId =>
      some { s.advance .client (.postSend wrId) with
        sender := t.sender.withSends s.sender ((t.sender.sends s.sender).postSend wrId)
        inFlight := s.inFlight + 1 }
  | .daemon, .waitCompletion =>
      if s.taken < s.arrived then
        some { s.advance .daemon .waitCompletion with taken := s.taken + 1 }
      else none
  | .client, .waitCompletion =>
      if (t.sender.sends s.sender).polled < s.completed then
        some { s.advance .client .waitCompletion with
          sender := t.sender.withSends s.sender ((t.sender.sends s.sender).pollCq 1) }
      else none
  | .daemon, .benchmark => some (s.receive t numCompletions)
  | .client, .benchmark => some (s.send t numCompletions)
  | side, .closeSocket =>
      some { s.advance side .closeSocket with
        conn := s.conn.setEndpoint side { s.conn.endpoint side with closed := true } }
  | .client, .postRecv _ => none
  | .daemon, .postSend _ => none

/-- A call is made by the command, and only by the command that closes the socket is it
closed. -/
def State.MayAct (s : State σ τ) : Socket.Action → Prop
  | .call side => (s.left side).head? = some .sync ∧
      (s.conn.endpoint side).index = syncs (s.done side)
  | .close _ => False
  | _ => True

instance (s : State σ τ) : ∀ action, Decidable (s.MayAct action)
  | .call side => inferInstanceAs (Decidable ((s.left side).head? = some .sync ∧
      (s.conn.endpoint side).index = syncs (s.done side)))
  | .close _ => inferInstanceAs (Decidable False)
  | .send _ _ => inferInstanceAs (Decidable True)
  | .recv _ _ => inferInstanceAs (Decidable True)

/-- The queue pair of the server takes a write with immediate data. -/
def State.Takes (s : State σ τ) : Prop :=
  (s.qp .daemon).qpState = .rts ∧ s.arrived < (t.receiver.recvs s.receiver).posted.length

instance (s : State σ τ) : Decidable (s.Takes t) :=
  inferInstanceAs (Decidable ((s.qp .daemon).qpState = .rts ∧
    s.arrived < (t.receiver.recvs s.receiver).posted.length))

def step (s : State σ τ) : Action → Option (State σ τ)
  | .socket action =>
      if s.MayAct action then
        (Socket.step hosts.plan s.conn action).map fun conn => { s with conn := conn }
      else none
  | .run side numCompletions =>
      match s.left side with
      | [] => none
      | command :: _ => s.execute t hosts ibvModifyQp numCompletions side command
  | .visit side numCompletions =>
      match s.left side with
      | .closeSocket :: .benchmark :: _ =>
          -- the operation has not finished
          (s.execute t hosts ibvModifyQp numCompletions side .benchmark).filter
            fun s' => s'.left side = s.left side
      | _ => none
  | .deliver =>
      if 0 < s.inFlight then
        if s.Takes t then some { s with inFlight := s.inFlight - 1, arrived := s.arrived + 1 }
        else some { s with inFlight := s.inFlight - 1, refused := s.refused + 1 }
      else none
  | .lose => if 0 < s.inFlight then some { s with inFlight := s.inFlight - 1 } else none
  | .complete =>
      if s.completed < (t.sender.sends s.sender).posted.length then
        some { s with completed := s.completed + 1 }
      else none

/-- Both hosts have run `modify_qp_to_init` and are about to exchange their `QpInfo`s. -/
def Initial (s : State σ τ) : Prop :=
  (∀ side, (s.qp side).qpState = .init) ∧
  s = { conn := .initial
        done := fun _ => []
        left := t.script
        qp := s.qp
        sender := t.sender.start
        receiver := t.receiver.start
        inFlight := 0
        arrived := 0
        taken := 0
        completed := 0
        refused := 0 }

def machine : Machine (State σ τ) Action where
  init := Initial t
  step := step t hosts ibvModifyQp

/-- Every system call on the socket transfers the whole buffer or meets the end of the
stream. -/
def Delivers (s : State σ τ) : Action → Prop
  | .socket (.send side result) =>
      result = some (hosts.plan side (s.conn.endpoint side).index).size
  | .socket (.recv side result) =>
      result = some (hosts.plan side (s.conn.endpoint side).index).size ∨ result = some 0
  | _ => True

instance (s : State σ τ) : ∀ action, Decidable (Delivers hosts s action)
  | .socket (.send side result) => inferInstanceAs (Decidable
      (result = some (hosts.plan side (s.conn.endpoint side).index).size))
  | .socket (.recv side result) => inferInstanceAs (Decidable
      (result = some (hosts.plan side (s.conn.endpoint side).index).size ∨ result = some 0))
  | .socket (.call _) => inferInstanceAs (Decidable True)
  | .socket (.close _) => inferInstanceAs (Decidable True)
  | .run _ _ => inferInstanceAs (Decidable True)
  | .visit _ _ => inferInstanceAs (Decidable True)
  | .deliver => inferInstanceAs (Decidable True)
  | .lose => inferInstanceAs (Decidable True)
  | .complete => inferInstanceAs (Decidable True)

end WriteTest
end FlashReduce
