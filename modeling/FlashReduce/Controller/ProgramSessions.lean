import FlashReduce.Controller.ProgramBroadcast

/-!
# Sessions of a program

A step of a program in which the workers call `RdmaSession` exchanges their
queue-pair data.

* `Recorded` ties the session records to the calls, in every run of the rendezvous:
  a record holds requests of its own session, each in the role it was sent with,
  and a call that has entered is recorded.
* `Program.settles`: when each participant of a step has a peer of the other kind in it,
  and no session is used by two steps, every call of the rendezvous ends without an
  error, and an `RdmaSession` call is answered with the request that a peer of the other
  kind made in the same step.
* `grpcTest_sessions`: the program of the example client meets the conditions.
-/

namespace FlashReduce
namespace Controller

open Library

/-! ### Records -/

section Recorded

variable {ι : Type}

/-- The session records hold requests of calls, and a request of every call. -/
structure Recorded (s : System ι) : Prop where
  root_source : ∀ sessionId root, (recordOf s.controller.sessions sessionId).root = some root →
    (∃ call ∈ s.calls, call.rpc = .rdmaSession root) ∧ root.sessionId = sessionId ∧ root.root = 1
  worker_source : ∀ sessionId rank worker,
    (recordOf s.controller.sessions sessionId).workers.get? rank = some worker →
    (∃ call ∈ s.calls, call.rpc = .rdmaSession worker) ∧ worker.sessionId = sessionId ∧
      worker.root ≠ 1
  root_stored : ∀ call ∈ s.calls, ∀ request, call.rpc = .rdmaSession request →
    request.root = 1 → ∃ root, (recordOf s.controller.sessions request.sessionId).root = some root
  worker_stored : ∀ call ∈ s.calls, ∀ request, call.rpc = .rdmaSession request →
    request.root ≠ 1 → ∃ worker,
      (recordOf s.controller.sessions request.sessionId).workers.get? request.rank = some worker

theorem Recorded.initial : Recorded (⟨.initial, []⟩ : System ι) where
  root_source _ _ h := by simp [recordOf, Rendezvous.initial] at h
  worker_source _ _ _ h := by simp [recordOf, Rendezvous.initial] at h
  root_stored _ hcall := absurd hcall List.not_mem_nil
  worker_stored _ hcall := absurd hcall List.not_mem_nil

theorem Recorded.resume {s s' : System ι} {index : Nat} {call call' : Call ι}
    (h : Recorded s) (hresumed : Resumed s s' index call call') : Recorded s' := by
  have hold {c : Call ι} (hc : c ∈ s'.calls) : ∃ c₀ ∈ s.calls, c₀.rpc = c.rpc := by
    obtain ⟨c₀, hc₀, hticket⟩ := hresumed.exists_ticket hc
    exact ⟨c₀, hc₀, congrArg Ticket.rpc hticket⟩
  refine ⟨?_, ?_, ?_, ?_⟩
  · intro sessionId root hroot
    rw [hresumed.sessions] at hroot
    obtain ⟨hsource, hfacts⟩ := h.root_source sessionId root hroot
    exact ⟨hresumed.keeps root hsource, hfacts⟩
  · intro sessionId rank worker hworker
    rw [hresumed.sessions] at hworker
    obtain ⟨hsource, hfacts⟩ := h.worker_source sessionId rank worker hworker
    exact ⟨hresumed.keeps worker hsource, hfacts⟩
  · intro c hc request hrequest
    obtain ⟨c₀, hc₀, hrpc⟩ := hold hc
    rw [hresumed.sessions]
    exact h.root_stored c₀ hc₀ request (hrpc.trans hrequest)
  · intro c hc request hrequest
    obtain ⟨c₀, hc₀, hrpc⟩ := hold hc
    rw [hresumed.sessions]
    exact h.worker_stored c₀ hc₀ request (hrpc.trans hrequest)

/-- A registration of the session's data overwrites the record of its own role. -/
theorem Recorded.enter {s s' : System ι} {client : ι} {rpc : Rpc} (h : Recorded s)
    (hmove : Move s (.enter client rpc) s') : Recorded s' := by
  obtain ⟨hcalls, hsessions, -⟩ := hmove.entered
  have hkeep {request : RdmaSessionRequest} (hold : ∃ c ∈ s.calls, c.rpc = .rdmaSession request) :
      ∃ c ∈ s'.calls, c.rpc = .rdmaSession request := by
    obtain ⟨c, hc, hrpc⟩ := hold
    exact ⟨c, by rw [hcalls]; exact List.mem_append_left _ hc, hrpc⟩
  cases rpc with
  | barrier request =>
      -- no record changes
      have hsame : s'.controller.sessions = s.controller.sessions := hsessions
      refine ⟨?_, ?_, ?_, ?_⟩
      · intro sessionId root hroot
        rw [hsame] at hroot
        obtain ⟨hsource, hfacts⟩ := h.root_source sessionId root hroot
        exact ⟨hkeep hsource, hfacts⟩
      · intro sessionId rank worker hworker
        rw [hsame] at hworker
        obtain ⟨hsource, hfacts⟩ := h.worker_source sessionId rank worker hworker
        exact ⟨hkeep hsource, hfacts⟩
      · rw [hcalls, hsame]
        refine forall_mem_snoc h.root_stored (fun other hother => ?_)
        cases hother
      · rw [hcalls, hsame]
        refine forall_mem_snoc h.worker_stored (fun other hother => ?_)
        cases hother
  | rdmaSession request =>
      have hnew : ∃ c ∈ s'.calls, c.rpc = .rdmaSession request := by
        refine ⟨s.newCall client (.rdmaSession request), ?_, rfl⟩
        rw [hcalls]
        exact List.mem_append_right _ (List.mem_singleton.mpr rfl)
      refine ⟨?_, ?_, ?_, ?_⟩
      · intro sessionId root hroot
        rw [hsessions, register_root] at hroot
        split at hroot
        · -- the record holds the new request
          next hthis =>
          cases hroot
          exact ⟨hnew, hthis.1.symm, hthis.2⟩
        · obtain ⟨hsource, hfacts⟩ := h.root_source sessionId root hroot
          exact ⟨hkeep hsource, hfacts⟩
      · intro sessionId rank worker hworker
        rw [hsessions, register_workers] at hworker
        split at hworker
        · next hthis =>
          cases hworker
          exact ⟨hnew, hthis.1.symm, hthis.2.1⟩
        · obtain ⟨hsource, hfacts⟩ := h.worker_source sessionId rank worker hworker
          exact ⟨hkeep hsource, hfacts⟩
      · rw [hcalls, hsessions]
        refine forall_mem_snoc (fun call hcall other hother hroot => ?_) ?_
        · rw [register_root]
          split
          · exact ⟨request, rfl⟩
          · exact h.root_stored call hcall other hother hroot
        · intro other hother hroot
          cases hother
          rw [register_root, if_pos ⟨rfl, hroot⟩]
          exact ⟨request, rfl⟩
      · rw [hcalls, hsessions]
        refine forall_mem_snoc (fun call hcall other hother hroot => ?_) ?_
        · rw [register_workers]
          split
          · exact ⟨request, rfl⟩
          · exact h.worker_stored call hcall other hother hroot
        · intro other hother hroot
          cases hother
          rw [register_workers, if_pos ⟨rfl, hroot, rfl⟩]
          exact ⟨request, rfl⟩

/-- The records are tied to the calls in every run of the rendezvous. -/
theorem reachable_recorded {guard : System ι → Action ι → Prop} {s : System ι}
    (hreach : (rendezvousMachine ι).Reachable guard s) : Recorded s := by
  refine hreach.induction Recorded ?_ ?_
  · rintro s rfl
    exact Recorded.initial
  · intro s action t hbefore h hguard hstep
    have hmove := (reachable_inv hbefore).step_move hstep
    cases action with
    | enter client rpc => exact h.enter hmove
    | resume index =>
        obtain ⟨call, call', hresumed⟩ := hmove.resumed
        exact h.resume hresumed

/-- The lookup of a session that has a participant of the other kind finds one. -/
theorem Recorded.lookup {s : System ι} (h : Recorded s) {request peer : RdmaSessionRequest}
    (hpeer : ∃ call ∈ s.calls, call.rpc = .rdmaSession peer)
    (hsession : peer.sessionId = request.sessionId) (hkind : peer.root = 1 ↔ request.root ≠ 1) :
    ∃ found, ((Rpc.rdmaSession request).finish s.controller).1 =
        .ok (.rdmaSession found.response) ∧
      (∃ call ∈ s.calls, call.rpc = .rdmaSession found) ∧
        found.sessionId = request.sessionId ∧ (found.root = 1 ↔ request.root ≠ 1) := by
  obtain ⟨call, hcall, hrpc⟩ := hpeer
  by_cases hroot : request.root = 1
  · have hworker : peer.root ≠ 1 := fun h1 => hkind.mp h1 hroot
    obtain ⟨stored, hstored⟩ := h.worker_stored call hcall peer hrpc hworker
    rw [hsession] at hstored
    obtain ⟨rank, found, hfound, hfinish⟩ := finish_of_root s.controller request hroot hstored
    obtain ⟨hsource, hsame, hother⟩ := h.worker_source _ rank found hfound
    exact ⟨found, by rw [hfinish], hsource, hsame, by simp [hroot, hother]⟩
  · obtain ⟨found, hfound⟩ := h.root_stored call hcall peer hrpc (hkind.mpr hroot)
    rw [hsession] at hfound
    have hfinish := finish_of_worker s.controller request hroot hfound
    obtain ⟨hsource, hsame, hother⟩ := h.root_source _ found hfound
    exact ⟨found, by rw [hfinish], hsource, hsame, by simp [hroot, hother]⟩

end Recorded

/-! ### The sessions of a program -/

variable {n : Nat} {p : Program n}

/-- The request with which a worker takes part in step `q`. -/
def Program.sessionAt (p : Program n) (q : Nat) (client : Fin n) : Option RdmaSessionRequest :=
  match p.steps[q]?.bind (Collective.rpcOf client) with
  | some (.rdmaSession request) => some request
  | _ => none

theorem Program.sessionAt_eq_some {q : Nat} {client : Fin n} {request : RdmaSessionRequest} :
    p.sessionAt q client = some request ↔
      p.steps[q]?.bind (Collective.rpcOf client) = some (.rdmaSession request) := by
  unfold Program.sessionAt
  split
  · next other heq => rw [heq]; simp
  · next hnone =>
    refine ⟨fun h => (by cases h), fun h => absurd h (hnone request)⟩

/-- Each participant of a step has a peer of the other kind in it, and a session belongs to
one step. -/
structure Program.Sessions (p : Program n) : Prop where
  paired : ∀ q client request, p.sessionAt q client = some request →
    ∃ other peer, p.sessionAt q other = some peer ∧ peer.sessionId = request.sessionId ∧
      (peer.root = 1 ↔ request.root ≠ 1)
  once : ∀ q q' client other request peer, p.sessionAt q client = some request →
    p.sessionAt q' other = some peer → peer.sessionId = request.sessionId → q' = q

/-- The response is the data of a peer of the other kind in the step of the request. -/
def Program.Answers (p : Program n) (client : Fin n) (request : RdmaSessionRequest)
    (response : Response) : Prop :=
  ∃ q other peer, p.sessionAt q client = some request ∧ p.sessionAt q other = some peer ∧
    peer.sessionId = request.sessionId ∧ (peer.root = 1 ↔ request.root ≠ 1) ∧
    response = .rdmaSession peer.response

/-- How a call of the rendezvous may end. -/
def Program.Settles (p : Program n) (call : Call (Fin n)) : Prop :=
  (∀ error, call.phase ≠ .raised error) ∧
    ∀ request response, call.rpc = .rdmaSession request → call.phase = .returned response →
      p.Answers call.client request response

/-- The lookup of a call that has left the rendezvous of its step. -/
theorem Placed.lookup {s : Workers n} (h : Placed p s) (hsessions : p.Sessions)
    (hlock : Lockstep s.1) (hcohorts : Cohorts (fun _ => true) n s.1) (hrecorded : Recorded s.1)
    {call : Call (Fin n)} (hcall : call ∈ s.1.calls) (hpassed : call.phase = .passed)
    {request : RdmaSessionRequest} (hrpc : call.rpc = .rdmaSession request) :
    ∃ response, (call.rpc.finish s.1.controller).1 = .ok response ∧
      p.Answers call.client request response := by
  obtain ⟨q, hq⟩ := h.rendezvous call hcall
  have hrequest : p.sessionAt q call.client = some request := by
    rw [Program.sessionAt_eq_some, ← hrpc]
    exact hq.step
  obtain ⟨other, peer, hpeer, hsession, hkind⟩ := hsessions.paired q call.client request hrequest
  have hpast : call.isPast = true := by simp [Call.isPast, hpassed]
  -- the peer has registered before the rendezvous was over
  obtain ⟨peerCall, hmem, hclient, hq'⟩ := h.peers hlock hcohorts hcall hpast hq other
  have hregistered : ∃ c ∈ s.1.calls, c.rpc = .rdmaSession peer := by
    refine ⟨peerCall, hmem, ?_⟩
    have hstep := hq'.step
    rw [hclient, Program.sessionAt_eq_some.mp hpeer] at hstep
    exact (Option.some.inj hstep).symm
  obtain ⟨found, hfinish, ⟨c, hc, hcrpc⟩, hsame, hfound⟩ :=
    hrecorded.lookup hregistered hsession hkind
  -- whoever is found has taken part in the same step
  obtain ⟨q', hc'⟩ := h.rendezvous c hc
  have hfoundAt : p.sessionAt q' c.client = some found := by
    rw [Program.sessionAt_eq_some, ← hcrpc]
    exact hc'.step
  obtain rfl := hsessions.once q q' call.client c.client request found hrequest hfoundAt hsame
  exact ⟨_, by rw [hrpc]; exact hfinish, q', c.client, found, hrequest, hfoundAt, hsame, hfound, rfl⟩

/-- Every call of the rendezvous settles, in every interleaving. -/
theorem Program.settles (hn : 1 ≤ n) (hsessions : p.Sessions) {s : Workers n}
    (hreach : (workersMachine n).Reachable p.Follows s) : ∀ call ∈ s.1.calls, p.Settles call := by
  refine hreach.induction (fun s => ∀ call ∈ s.1.calls, p.Settles call) ?_ ?_
  · rintro ⟨s₁, s₂⟩ ⟨rfl, rfl⟩ call hcall
    cases hcall
  · intro s action t hbefore hsettled hguard hstep
    have hfirst := Machine.Reachable.left (fun _ _ h => Program.Follows.rounds h) hbefore
    have hinv := reachable_inv hfirst
    obtain ⟨hcohorts, hlock⟩ := p.lockstep hn hbefore
    rcases action with (⟨client, rpc⟩ | index) | action
    · have hmove : Move s.1 (.enter client rpc) t.1 :=
        hinv.step_move (Machine.product_inl.mp hstep).1
      rw [hmove.entered.1]
      exact forall_mem_snoc hsettled ⟨fun error h => (by cases h), fun _ _ _ h => (by cases h)⟩
    · have hmove : Move s.1 (.resume index) t.1 :=
        hinv.step_move (Machine.product_inl.mp hstep).1
      obtain ⟨call, call', h⟩ := hmove.resumed
      have hlookup {request : RdmaSessionRequest} (hpassed : call.phase = .passed)
          (hrpc : call.rpc = .rdmaSession request) :=
        (p.ordered hn hbefore).placed.lookup hsessions hlock hcohorts (reachable_recorded hfirst)
          h.mem hpassed hrpc
      rw [h.calls]
      refine forall_mem_set hsettled ⟨fun error herror => ?_, fun request response hrpc hphase => ?_⟩
      · obtain ⟨hpassed, hfinish⟩ := h.failure error herror
        cases hrpc : call.rpc with
        | barrier request =>
            rw [hrpc] at hfinish
            cases hfinish
        | rdmaSession request =>
            obtain ⟨response, hok, -⟩ := hlookup hpassed hrpc
            rw [hfinish] at hok
            cases hok
      · rw [h.rpc_eq] at hrpc
        obtain ⟨hpassed, hfinish⟩ := h.answer response hphase
        obtain ⟨found, hok, hanswers⟩ := hlookup hpassed hrpc
        rw [hfinish] at hok
        cases hok
        rw [h.client_eq]
        exact hanswers
    · rw [(Machine.product_inr.mp hstep).2]
      exact hsettled

/-- The session of `grpc_test` is its third step. -/
theorem grpcTest_sessionAt {gidSubnetPrefix gidInterfaceId : UInt64} {q : Nat} {client : Fin 2}
    {request : RdmaSessionRequest} :
    (grpcTest gidSubnetPrefix gidInterfaceId).sessionAt q client = some request ↔
      q = 2 ∧ request = clientRequest 1 client 2 client 0 0
        (grpcTestQpInfo gidSubnetPrefix gidInterfaceId client) := by
  rw [Program.sessionAt_eq_some]
  match q with
  | 0 => simp [grpcTest, grpcTestSteps, Collective.rpcOf]
  | 1 => simp [grpcTest, grpcTestSteps, Collective.rpcOf]
  | 2 => simp [grpcTest, grpcTestSteps, Collective.rpcOf, eq_comm]
  | q + 3 => simp [grpcTest, grpcTestSteps]

theorem grpcTest_sessions (gidSubnetPrefix gidInterfaceId : UInt64) :
    (grpcTest gidSubnetPrefix gidInterfaceId).Sessions where
  paired q client request h := by
    obtain ⟨rfl, rfl⟩ := grpcTest_sessionAt.mp h
    refine ⟨1 - client, _, grpcTest_sessionAt.mpr ⟨rfl, rfl⟩, rfl, ?_⟩
    have hother : ∀ client : Fin 2, (1 - client : Fin 2).val = 1 ↔ client.val ≠ 1 := by decide
    exact hother client
  once q q' client other request peer h h' _ := by
    obtain ⟨rfl, -⟩ := grpcTest_sessionAt.mp h
    exact (grpcTest_sessionAt.mp h').1

end Controller
end FlashReduce
