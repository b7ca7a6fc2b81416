import FlashReduce.Controller.ProgramBroadcast
import FlashReduce.Wire.Messages

/-!
# A broadcast over the wire

`gRPCClient::Broadcast` checks its arguments, sends them, and returns the value of the
response.  The handler works with the fields of the request, which it does not check.

`broadcast_over_wire` puts this together with the programs of a group of workers: no
client fails a `CHECK` of its arguments, and the `k`-th call of every client returns the
value that its root passed to its own `k`-th call.
-/

namespace FlashReduce
namespace Wire

open Library Controller

/-- The arguments of `gRPCClient::Broadcast`. -/
structure BroadcastArgs where
  value : UInt64
  rank : UInt32
  numWorkers : UInt32
  root : UInt32

/-- The request that `gRPCClient::Broadcast` builds, or the message of the `CHECK` that ends
the process. -/
def BroadcastArgs.request (args : BroadcastArgs) : Except String BroadcastRequest :=
  if ¬ args.numWorkers > 0 then .error "Number of workers must be greater than 0"
  else if ¬ args.rank < args.numWorkers then .error "Rank must be less than number of workers"
  else if ¬ args.root < args.numWorkers then
    .error "Root rank must be less than number of workers"
  else .ok ⟨args.value, args.rank, args.numWorkers, args.root⟩

/-- The fields of a request as the handler reads them. -/
def BroadcastRequest.fieldsRead (m : BroadcastRequest) : Controller.Broadcast.Request where
  value := m.value
  rank := m.rank.toNat
  numWorkers := m.numWorkers.toNat
  root := m.root.toNat

variable (rt : WireRuntime)

/-- The bytes that the client sends, when the checks pass. -/
def BroadcastArgs.bytes (args : BroadcastArgs) : Except String (List UInt8) :=
  args.request.map fun m => BroadcastRequest.layout.serialize rt (.ofKnown m)

/-- The request that the handler is called with. -/
def servedBroadcast (bytes : List UInt8) : Option Controller.Broadcast.Request :=
  (BroadcastRequest.layout.parse rt bytes).map fun m => m.known.fieldsRead

/-- The bytes that the handler sends. -/
def broadcastResponseBytes (value : UInt64) : List UInt8 :=
  BroadcastResponse.layout.serialize rt (.ofKnown ⟨value⟩)

/-- What `gRPCClient::Broadcast` returns. -/
def receivedValue (bytes : List UInt8) : Option UInt64 :=
  (BroadcastResponse.layout.parse rt bytes).map fun m => m.known.value

variable {rt}

/-- The checks keep the ranks below the number of workers. -/
theorem BroadcastArgs.request_eq_ok {args : BroadcastArgs} {m : BroadcastRequest} :
    args.request = .ok m ↔ (0 < args.numWorkers ∧ args.rank < args.numWorkers ∧
      args.root < args.numWorkers) ∧ m = ⟨args.value, args.rank, args.numWorkers, args.root⟩ := by
  unfold BroadcastArgs.request
  by_cases hworkers : args.numWorkers > 0
  · by_cases hrank : args.rank < args.numWorkers
    · by_cases hroot : args.root < args.numWorkers
      · simp [hworkers, hrank, hroot, eq_comm]
      · simp [hworkers, hrank, hroot]
    · simp [hworkers, hrank]
  · simp [hworkers]

/-- The handler reads what the client passed the checks with. -/
theorem servedBroadcast_bytes {args : BroadcastArgs} {bytes : List UInt8}
    (h : args.bytes rt = .ok bytes) :
    servedBroadcast rt bytes =
      some ⟨args.value, args.rank.toNat, args.numWorkers.toNat, args.root.toNat⟩ := by
  unfold BroadcastArgs.bytes at h
  cases hrequest : args.request with
  | error message => rw [hrequest] at h; cases h
  | ok m =>
      rw [hrequest] at h
      obtain rfl := Except.ok.inj h
      obtain ⟨-, rfl⟩ := BroadcastArgs.request_eq_ok.mp hrequest
      rw [servedBroadcast, Layout.parse_serialize]
      rfl

/-- The client returns what the handler answered. -/
theorem receivedValue_broadcastResponseBytes (value : UInt64) :
    receivedValue rt (broadcastResponseBytes rt value) = some value := by
  rw [receivedValue, broadcastResponseBytes, Layout.parse_serialize]
  rfl

/-! ### Programs -/

variable {n : Nat} {p : Program n}

/-- In the `k`-th `Broadcast` step of the program the workers call `Broadcast` with these
arguments. -/
def BroadcastsWith (p : Program n) (args : Nat → Fin n → BroadcastArgs) : Prop :=
  ∀ k (root : Fin n) value, p.broadcastSteps[k]? = some (.broadcast root value) → ∀ rank : Fin n,
    (args k rank).value = value rank ∧ (args k rank).rank.toNat = rank ∧
      (args k rank).numWorkers.toNat = n ∧ (args k rank).root.toNat = root

/-- Every client of a program passes the checks, and the handler is called with the request of
the program. -/
theorem BroadcastsWith.served {args : Nat → Fin n → BroadcastArgs} (h : BroadcastsWith p args)
    {k : Nat} {root : Fin n} {value : Fin n → UInt64}
    (hstep : p.broadcastSteps[k]? = some (.broadcast root value)) (rank : Fin n) :
    ∃ bytes, (args k rank).bytes rt = .ok bytes ∧
      servedBroadcast rt bytes = some ⟨value rank, rank, n, root⟩ := by
  obtain ⟨hvalue, hrank, hworkers, hroot⟩ := h k root value hstep rank
  have hchecks : (args k rank).request = .ok ⟨(args k rank).value, (args k rank).rank,
      (args k rank).numWorkers, (args k rank).root⟩ := by
    refine BroadcastArgs.request_eq_ok.mpr ⟨⟨?_, ?_, ?_⟩, rfl⟩
    · rw [UInt32.lt_iff_toNat_lt, hworkers]
      exact Nat.zero_lt_of_lt rank.isLt
    · rw [UInt32.lt_iff_toNat_lt, hworkers, hrank]
      exact rank.isLt
    · rw [UInt32.lt_iff_toNat_lt, hworkers, hroot]
      exact root.isLt
  have hbytes : (args k rank).bytes rt = .ok (BroadcastRequest.layout.serialize rt
      (.ofKnown ⟨(args k rank).value, (args k rank).rank, (args k rank).numWorkers,
        (args k rank).root⟩)) := by
    rw [BroadcastArgs.bytes, hchecks]
    rfl
  refine ⟨_, hbytes, ?_⟩
  rw [servedBroadcast_bytes hbytes, hvalue, hrank, hworkers, hroot]

/-- **Broadcasts over the wire.**  When a rendezvous stands between any two `Broadcast` steps
of a program, then in every interleaving a client passes the checks of `Broadcast`, the
handler's call is made with what its bytes carry, and the bytes of the response to the `k`-th
call carry the value that the root passed to its own `k`-th call. -/
theorem broadcast_over_wire {args : Nat → Fin n → BroadcastArgs} (hn : 1 ≤ n)
    (hargs : BroadcastsWith p args) {s : Workers n}
    (hreach : (workersMachine n).Reachable p.Follows s) (rank : Fin n) (k : Nat)
    (call : Broadcast.Call) (result : UInt64) (hcall : (s.2.callsOf rank)[k]? = some call)
    (hreturned : call.phase = .returned result) :
    ∃ root : Fin n, (args k rank).root.toNat = root ∧
      (∃ bytes, (args k rank).bytes rt = .ok bytes ∧
        servedBroadcast rt bytes = some call.request) ∧
      receivedValue rt (broadcastResponseBytes rt result) = some (args k root).value := by
  obtain ⟨root, value, hstep, hrequest, rfl⟩ := p.answers hn hreach hcall hreturned
  refine ⟨root, (hargs k root value hstep rank).2.2.2, ?_, ?_⟩
  · rw [hrequest]
    exact hargs.served hstep rank
  · rw [receivedValue_broadcastResponseBytes, (hargs k root value hstep root).1]

/-- The arguments of the two ranks of `grpc_test`. -/
def grpcTestBroadcast (_ : Nat) (rank : Fin 2) : BroadcastArgs :=
  ⟨42, UInt32.ofNat rank, 2, 0⟩

theorem grpcTest_broadcastsWith (gidSubnetPrefix gidInterfaceId : UInt64) :
    BroadcastsWith (grpcTest gidSubnetPrefix gidInterfaceId) grpcTestBroadcast := by
  intro k root value hstep rank
  have hrank : (UInt32.ofNat rank).toNat = rank := by
    rw [UInt32.toNat_ofNat']
    omega
  have hmem := List.mem_of_getElem? hstep
  obtain ⟨rfl, rfl⟩ : root = ⟨0, Nat.zero_lt_two⟩ ∧ value = fun _ => 42 := by
    simpa [Program.broadcastSteps, grpcTest, grpcTestSteps, Collective.isBroadcast] using hmem
  exact ⟨rfl, hrank, rfl, rfl⟩

/-- Both ranks of `grpc_test` receive 42. -/
theorem broadcast_over_wire_grpcTest :
    ∃ (s : Workers 2) (call : Broadcast.Call), (s.2.callsOf 1)[0]? = some call ∧
      ∃ root : Fin 2, (grpcTestBroadcast 0 1).root.toNat = root ∧
        (∃ bytes, (grpcTestBroadcast 0 1).bytes varintRuntime = .ok bytes ∧
          servedBroadcast varintRuntime bytes = some call.request) ∧
        receivedValue varintRuntime (broadcastResponseBytes varintRuntime 42) =
          some (grpcTestBroadcast 0 root).value := by
  obtain ⟨history, s, hrun, -, -, -, hphases⟩ := grpcTest_run
  obtain ⟨call, hcalls, hphase⟩ := List.map_eq_singleton_iff.mp hphases
  have hcall : (s.2.callsOf (1 : Fin 2))[0]? = some call := by
    rw [show s.2.callsOf (1 : Fin 2) = [call] from hcalls]
    rfl
  exact ⟨s, call, hcall, broadcast_over_wire (by decide) (grpcTest_broadcastsWith 0 0)
    hrun.reachable 1 0 call 42 hcall hphase⟩

end Wire
end FlashReduce
