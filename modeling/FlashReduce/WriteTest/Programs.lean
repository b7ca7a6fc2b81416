import FlashReduce.Library.LittleEndian
import FlashReduce.WriteTest.Safety

/-!
# The write tests of the repository

`rdmaWriteTest` is the program of `rdma_write_rc_test` and `rdma_write_uc_test`, which
differ in the transport, and `proxySendRecv` that of `proxy_send_recv`, where the worker of
the proxy runs the benchmark.  There the client calls `syncReady` once more than the server;
that call returns at the end of the stream, when the server has closed its socket.

The program declares its `ProxyHandler` on the stack and does not initialise it.  It is taken
as zeroed here, so that `ProxyCreate` creates a worker.  The worker has the operation from
`ProxyArgsAppend` on, with which the host goes on to close the socket: it makes visits until
the operation has finished, before and after the socket is closed.  The command `benchmark`
ends when `ProxyWaitAllOpFinished` returns.
-/

namespace FlashReduce
namespace WriteTest

open Library Controller Rdma Benchmark Socket

/-! ### The scripts -/

/-- The loop that posts receives with the numbers up to `n`. -/
def postRecvs (n : Nat) : List Command := (List.range n).map fun i => .postRecv (UInt64.ofNat i)

theorem mem_postRecvs {n : Nat} {command : Command} (h : command ∈ postRecvs n) :
    ∃ wrId, command = .postRecv wrId := by
  obtain ⟨i, -, rfl⟩ := List.mem_map.mp h
  exact ⟨_, rfl⟩

theorem syncs_postRecvs (n : Nat) : syncs (postRecvs n) = 0 := by
  refine List.count_eq_zero.mpr fun hmem => ?_
  obtain ⟨wrId, heq⟩ := mem_postRecvs hmem
  cases heq

theorem weight_postRecvs (n : Nat) : weight Command.recvs (postRecvs n) = n := by
  induction n with
  | zero => rfl
  | succ n ih =>
      have hsucc : postRecvs (n + 1) = postRecvs n ++ [.postRecv (UInt64.ofNat n)] := by
        simp [postRecvs, List.range_succ]
      rw [hsucc, weight_append, ih]
      rfl

theorem weightBefore_postRecvs (n k : Nat) (rest : List Command) :
    weightBefore Command.recvs (postRecvs n ++ rest) k =
      n + weightBefore Command.recvs rest k := by
  rw [weightBefore_append rfl, syncs_postRecvs, if_neg (Nat.not_lt_zero k), weight_postRecvs,
    Nat.sub_zero]

/-- The server of `rdma_write_rc_test` and `rdma_write_uc_test`. -/
def rdmaWriteServer : Script where
  before := [.postRecv 0, .sync, .waitCompletion] ++ postRecvs kSendQueueDepth ++
    [.sync, .benchmark]
  after := []
  before_open := by
    intro hmem
    simp only [List.mem_append, List.mem_cons, List.not_mem_nil, reduceCtorEq, or_false,
      false_or] at hmem
    obtain ⟨wrId, heq⟩ := mem_postRecvs hmem
    cases heq
  after_closed := by decide
  after_syncs := rfl
  after_recvs := rfl
  connects := by
    intro hmem
    simp only [List.mem_append, List.mem_cons, List.not_mem_nil, reduceCtorEq, or_false,
      false_or] at hmem
    obtain ⟨wrId, heq⟩ := mem_postRecvs hmem
    cases heq

/-- The client of `rdma_write_rc_test` and `rdma_write_uc_test`. -/
def rdmaWriteClient : Script where
  before := [.sync, .postSend 0, .waitCompletion, .sync, .benchmark]
  after := []
  before_open := by decide
  after_closed := by decide
  after_syncs := rfl
  after_recvs := rfl
  connects := by decide

/-- The server of `proxy_send_recv`. -/
def proxyServer : Script where
  before := postRecvs kSendQueueDepth ++ [.sync]
  after := [.benchmark]
  before_open := by
    intro hmem
    simp only [List.mem_append, List.mem_singleton, reduceCtorEq, or_false] at hmem
    obtain ⟨wrId, heq⟩ := mem_postRecvs hmem
    cases heq
  after_closed := by decide
  after_syncs := rfl
  after_recvs := rfl
  connects := by
    intro hmem
    simp only [List.mem_append, List.mem_singleton, reduceCtorEq, or_false] at hmem
    obtain ⟨wrId, heq⟩ := mem_postRecvs hmem
    cases heq

/-- The client of `proxy_send_recv`. -/
def proxyClient : Script where
  before := [.sync, .sync]
  after := [.benchmark]
  before_open := by decide
  after_closed := by decide
  after_syncs := rfl
  after_recvs := rfl
  connects := by decide

/-! ### The programs -/

/-- The programs of the two sides. -/
def sides (server client : Script) (side : Side) : Script :=
  if side = .daemon then server else client

@[simp] theorem sides_daemon (server client : Script) : sides server client .daemon = server := rfl

@[simp] theorem sides_client (server client : Script) : sides server client .client = client := rfl

/-- The receives of the server of the write tests, by the `sync` that comes next. -/
theorem weightBefore_rdmaWriteServer (k : Nat) :
    weightBefore Command.recvs rdmaWriteServer.rest (k + 1) = 1 + (kSendQueueDepth +
      weightBefore Command.recvs [.sync, .benchmark, .closeSocket] k) := by
  rw [← weightBefore_postRecvs]
  simp [Script.rest, rdmaWriteServer, weightBefore, Command.recvs]

/-- The same for the server of `proxy_send_recv`. -/
theorem weightBefore_proxyServer (k : Nat) :
    weightBefore Command.recvs proxyServer.rest k = kSendQueueDepth +
      weightBefore Command.recvs [.sync, .closeSocket, .benchmark] k := by
  rw [← weightBefore_postRecvs]
  simp [Script.rest, proxyServer]

/-- The last argument of `modify_qp_to_rts` in `rdma_write_rc_test` and `rdma_write_uc_test`. -/
def reliableOf (qpType : QpType) : Int := if qpType = .rc then 1 else 0

theorem names_reliableOf (qpType : QpType) : Names (reliableOf qpType) qpType := by
  cases qpType <;> decide

/-- `rdma_write_rc_test` and `rdma_write_uc_test` -/
def rdmaWriteTest (qpType : QpType) : Test SendLoop RecvLoop where
  parts := sides rdmaWriteServer rdmaWriteClient
  sender := loopSender
  receiver := loopReceiver
  mtu := .mtu256
  qpType := qpType
  reliable := reliableOf qpType
  names := names_reliableOf qpType
  quiet := rfl
  covered := by
    intro k
    cases k with
    | zero => exact Nat.le_refl 1
    | succ k =>
        rw [sides_daemon, weightBefore_rdmaWriteServer]
        refine (weightBefore_le ..).trans ?_
        exact (by decide : 11 ≤ 1 + kSendQueueDepth).trans (by omega)
  waits := by
    simp [Script.rest, rdmaWriteServer, rdmaWriteClient, syncs_postRecvs]
  daemon_syncs := by
    simp [Script.rest, rdmaWriteServer, syncs_postRecvs]
  recvs_le := by
    simp [Script.rest, rdmaWriteServer, weight_postRecvs, Command.recvs, kSendQueueDepth,
      kReceiveQueueDepth]
  sends_le := by decide

/-- `proxy_send_recv` -/
def proxySendRecv : Test SendArgs RecvArgs where
  parts := sides proxyServer proxyClient
  sender := proxySender
  receiver := proxyReceiver
  mtu := .mtu256
  qpType := .uc
  reliable := 0
  names := by decide
  quiet := rfl
  covered := by
    intro k
    rw [sides_daemon, weightBefore_proxyServer]
    refine (weightBefore_le ..).trans ?_
    exact (by decide : 10 ≤ kSendQueueDepth).trans (Nat.le_add_right ..)
  waits := by
    simp [Script.rest, proxyServer, proxyClient, syncs_postRecvs]
  daemon_syncs := by
    simp [Script.rest, proxyServer, syncs_postRecvs]
  recvs_le := by
    simp [Script.rest, proxyServer, weight_postRecvs, Command.recvs, kSendQueueDepth,
      kReceiveQueueDepth]
  sends_le := by decide

/-! ### Two hosts -/

/-- The members of `QpInfo` on x86-64, with the padding. -/
def qpInfoFields (info : QpInfo) : List (Nat × Nat) :=
  [(4, info.rkey.toNat), (4, 0), (8, info.raddr.toNat), (4, info.qpNum.toNat),
    (4, info.psn.toNat), (8, info.gidSubnetPrefix.toNat), (8, info.gidInterfaceId.toNat),
    (2, info.lid.toNat), (6, 0)]

def qpInfoOfFields : List Nat → QpInfo
  | [rkey, _, raddr, qpNum, psn, gidSubnetPrefix, gidInterfaceId, lid, _] =>
      ⟨.ofNat rkey, .ofNat raddr, .ofNat qpNum, .ofNat psn, .ofNat gidSubnetPrefix,
        .ofNat gidInterfaceId, .ofNat lid⟩
  | _ => ⟨0, 0, 0, 0, 0, 0, 0⟩

def x86QpInfoBytes : QpInfoBytes where
  size := 48
  bytes info := leWrite (qpInfoFields info)
  ofBytes bytes := qpInfoOfFields (leRead [4, 4, 8, 4, 4, 8, 8, 2, 6] bytes)
  size_pos := by decide
  size_lt := by decide
  length_bytes info := length_leWrite (qpInfoFields info)
  ofBytes_bytes info := by
    have hread := leRead_leWrite (qpInfoFields info) (by
      simp only [qpInfoFields, List.forall_mem_cons]
      exact ⟨info.rkey.toNat_lt, by decide, info.raddr.toNat_lt, info.qpNum.toNat_lt,
        info.psn.toNat_lt, info.gidSubnetPrefix.toNat_lt, info.gidInterfaceId.toNat_lt,
        info.lid.toNat_lt, by decide, by simp⟩)
    rw [show [4, 4, 8, 4, 4, 8, 8, 2, 6] = (qpInfoFields info).map Prod.fst from rfl, hread]
    simp [qpInfoFields, qpInfoOfFields]

def exampleHosts : Hosts where
  repr := x86QpInfoBytes
  info
    | .daemon => ⟨26, 0x7f3a40000000, 17, 0, 0xfe80, 1, 4⟩
    | .client => ⟨27, 0x7f91c0000000, 18, 0, 0xfe80, 2, 5⟩
  memory _ := List.replicate 48 0
  length_memory _ := rfl
  psn_zero side := by cases side <;> rfl

/-- A call of both sides with `n` bytes, and their next command. -/
def exchange (n : Nat) : List Action :=
  [.socket (.call .daemon), .socket (.call .client), .socket (.send .daemon (some n)),
    .socket (.recv .client (some n)), .socket (.send .client (some n)),
    .socket (.recv .daemon (some n)), .run .daemon 0, .run .client 0]

def State.start {σ τ : Type} (t : Test σ τ) : State σ τ where
  conn := .initial
  done _ := []
  left := t.script
  qp _ := { qpState := .init }
  sender := t.sender.start
  receiver := t.receiver.start
  inFlight := 0
  arrived := 0
  taken := 0
  completed := 0
  refused := 0

theorem start_initial {σ τ : Type} (t : Test σ τ) : Initial t (.start t) := ⟨fun _ => rfl, rfl⟩

/-- The first write arrives. -/
def rdmaWriteSchedule : List Action :=
  exchange 48 ++ [.run .daemon 0, .run .client 0, .run .daemon 0] ++ exchange 1 ++
    [.run .client 0, .deliver]

/-- The worker of the client posts the first write before its host has closed the socket, and
the write arrives. -/
def proxySchedule : List Action :=
  exchange 48 ++ List.replicate 257 (.run .daemon 0) ++ [.run .client 0] ++ exchange 1 ++
    [.run .daemon 0, .socket (.call .client), .socket (.recv .client (some 0)), .run .client 0,
      .visit .client 0, .deliver]

/-! ### Their safety -/

variable {hosts : Hosts} {ibvModifyQp : ModifyQp}

end WriteTest
end FlashReduce
