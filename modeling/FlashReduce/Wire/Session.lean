import FlashReduce.Controller.FineProgram
import FlashReduce.Wire.Messages

/-!
# A session over the wire

The client and the handler of `RdmaSession` exchange bytes: the client sets the fields of
a request message from its arguments and its local queue pair, the handler reads the
message and copies the fields of the peer's request into a response message, and the
client sets the fields of the remote queue pair from that.  A field that is zero is not
sent, and the `lid` travels in a wider field.

`session_over_wire` puts this together with the programs of a group of workers: whatever
the interleaving, the bytes that a client receives carry the queue pair with which a peer
of the other kind called `RdmaSession` in the same step of the program.
-/

namespace FlashReduce
namespace Wire

open Library Controller

/-! ### The client's request -/

/-- The arguments of `gRPCClient::RdmaSession`, with the first of its local queue pairs. -/
structure SessionArgs where
  sessionId : UInt32
  rank : UInt32
  numWorkers : UInt32
  root : UInt32
  mac : UInt64
  ipv4 : UInt32
  localQpInfo : QpInfo

/-- The request that `gRPCClient::RdmaSession` builds. -/
def SessionArgs.request (args : SessionArgs) : RdmaSessionRequest where
  sessionId := args.sessionId
  rank := args.rank
  numWorkers := args.numWorkers
  root := args.root
  mac := args.mac
  ipv4 := args.ipv4
  rkey := args.localQpInfo.rkey
  raddr := args.localQpInfo.raddr
  qpn := args.localQpInfo.qpNum
  psn := args.localQpInfo.psn
  gidSubnet := args.localQpInfo.gidSubnetPrefix
  gidIface := args.localQpInfo.gidInterfaceId
  lid := args.localQpInfo.lid.toUInt32

/-- The fields of a request as the handler reads them. -/
def RdmaSessionRequest.fieldsRead (m : RdmaSessionRequest) : Controller.RdmaSessionRequest where
  sessionId := m.sessionId.toNat
  rank := m.rank.toNat
  numWorkers := m.numWorkers.toNat
  root := m.root.toNat
  mac := m.mac
  ipv4 := m.ipv4
  rkey := m.rkey
  raddr := m.raddr
  qpn := m.qpn
  psn := m.psn
  gidSubnet := m.gidSubnet
  gidIface := m.gidIface
  lid := m.lid

variable (rt : WireRuntime)

/-- The bytes that the client sends. -/
def SessionArgs.bytes (args : SessionArgs) : List UInt8 :=
  RdmaSessionRequest.layout.serialize rt (.ofKnown args.request)

/-- The request that the handler is called with. -/
def servedRequest (bytes : List UInt8) : Option Controller.RdmaSessionRequest :=
  (RdmaSessionRequest.layout.parse rt bytes).map fun m => m.known.fieldsRead

/-! ### The handler's response -/

/-- The response message that the handler builds. -/
def RdmaSessionResponse.build (response : Controller.RdmaSessionResponse) :
    RdmaSessionResponse where
  rkey := response.rkey
  raddr := response.raddr
  qpn := response.qpn
  psn := response.psn
  gidSubnet := response.gidSubnet
  gidIface := response.gidIface
  lid := response.lid

/-- The bytes that the handler sends. -/
def responseBytes (response : Controller.RdmaSessionResponse) : List UInt8 :=
  RdmaSessionResponse.layout.serialize rt (.ofKnown (.build response))

/-- The queue pair that `gRPCClient::RdmaSession` adds to its remote queue pairs. -/
def receivedQpInfo (bytes : List UInt8) : Option QpInfo :=
  (RdmaSessionResponse.layout.parse rt bytes).map fun m =>
    { rkey := m.known.rkey
      raddr := m.known.raddr
      qpNum := m.known.qpn
      psn := m.known.psn
      gidSubnetPrefix := m.known.gidSubnet
      gidInterfaceId := m.known.gidIface
      lid := m.known.lid.toUInt16 }

variable {rt}

/-- The handler reads what the client set. -/
theorem servedRequest_bytes (args : SessionArgs) :
    servedRequest rt (args.bytes rt) =
      some (clientRequest args.sessionId.toNat args.rank.toNat args.numWorkers.toNat
        args.root.toNat args.mac args.ipv4 args.localQpInfo) := by
  rw [servedRequest, SessionArgs.bytes, Layout.parse_serialize, Option.map_some]
  rfl

/-- The client reads what the handler set. -/
theorem receivedQpInfo_responseBytes (response : Controller.RdmaSessionResponse) :
    receivedQpInfo rt (responseBytes rt response) = some (remoteQpInfo response) := by
  rw [receivedQpInfo, responseBytes, Layout.parse_serialize, Option.map_some]
  rfl

/-! ### Programs -/

variable {n : Nat} {p : Program n}

/-- The workers call `RdmaSession` with these arguments, in each step of the program in which
they take part in a session. -/
def CalledWith (rt : WireRuntime) (p : Program n) (args : Nat → Fin n → SessionArgs) : Prop :=
  ∀ q client request, p.sessionAt q client = some request →
    servedRequest rt ((args q client).bytes rt) = some request

/-- **Sessions over the wire.**  When each participant of a step has a peer of the other kind
in it, and no session is used by two steps, then in every interleaving of the pieces the bytes
of each response to `RdmaSession` are read as the queue pair that such a peer passed in the
same step. -/
theorem session_over_wire {args : Nat → Fin n → SessionArgs} (hn : 1 ≤ n)
    (hsessions : p.Sessions) (hargs : CalledWith rt p args) {s : FineWorkers n}
    (hreach : (fineWorkersMachine n).Reachable p.FineFollows s) :
    ∀ call ∈ s.1.calls, ∀ request response, call.rpc = .rdmaSession request →
      call.phase = .returned (.rdmaSession response) →
      ∃ q other, servedRequest rt ((args q call.client).bytes rt) = some request ∧
        (args q other).sessionId = (args q call.client).sessionId ∧
        ((args q other).root = 1 ↔ (args q call.client).root ≠ 1) ∧
        receivedQpInfo rt (responseBytes rt response) = some (args q other).localQpInfo := by
  intro call hcall request response hrpc hphase
  obtain ⟨q, other, peer, hrequest, hpeer, hsession, hkind, hresponse⟩ :=
    p.fine_answers hn hsessions hreach hcall hrpc hphase
  have hserved := hargs q call.client request hrequest
  have hpeerServed := hargs q other peer hpeer
  rw [servedRequest_bytes] at hserved hpeerServed
  obtain rfl := Option.some.inj hserved
  obtain rfl := Option.some.inj hpeerServed
  refine ⟨q, other, servedRequest_bytes _, UInt32.toNat_inj.mp hsession, ?_, ?_⟩
  · simpa [clientRequest, ← UInt32.toNat_inj] using hkind
  · cases hresponse
    rw [receivedQpInfo_responseBytes, remoteQpInfo_clientRequest]

/-- The arguments of the two ranks of `grpc_test`. -/
def grpcTestArgs (gidSubnetPrefix gidInterfaceId : UInt64) (_ : Nat) (rank : Fin 2) :
    SessionArgs where
  sessionId := 1
  rank := UInt32.ofNat rank
  numWorkers := 2
  root := UInt32.ofNat rank
  mac := 0
  ipv4 := 0
  localQpInfo := grpcTestQpInfo gidSubnetPrefix gidInterfaceId rank

theorem grpcTest_calledWith (gidSubnetPrefix gidInterfaceId : UInt64) :
    CalledWith rt (grpcTest gidSubnetPrefix gidInterfaceId)
      (grpcTestArgs gidSubnetPrefix gidInterfaceId) := by
  intro q client request h
  obtain ⟨rfl, rfl⟩ := grpcTest_sessionAt.mp h
  have hrank : (UInt32.ofNat client).toNat = client := by
    rw [UInt32.toNat_ofNat']
    omega
  rw [servedRequest_bytes]
  simp [grpcTestArgs, clientRequest, hrank]

/-- Each rank of `grpc_test` reads the queue pair of the other one. -/
theorem session_over_wire_grpcTest :
    ∃ s : FineWorkers 2, s.1.calls.map Call.hasReturned = [true, true, true, true] ∧
      ∀ call ∈ s.1.calls, ∀ request response, call.rpc = .rdmaSession request →
        call.phase = .returned (.rdmaSession response) →
        ∃ q other, servedRequest varintRuntime
            ((grpcTestArgs 0 0 q call.client).bytes varintRuntime) = some request ∧
          (grpcTestArgs 0 0 q other).sessionId = (grpcTestArgs 0 0 q call.client).sessionId ∧
          ((grpcTestArgs 0 0 q other).root = 1 ↔ (grpcTestArgs 0 0 q call.client).root ≠ 1) ∧
          receivedQpInfo varintRuntime (responseBytes varintRuntime response) =
            some (grpcTestArgs 0 0 q other).localQpInfo := by
  obtain ⟨history, s, hrun, -, hreturned⟩ := grpcTest_fineRun
  exact ⟨s, hreturned, session_over_wire (by decide) (grpcTest_sessions 0 0)
    (grpcTest_calledWith 0 0) hrun.reachable⟩

end Wire
end FlashReduce
