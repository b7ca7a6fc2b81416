import FlashReduce.Controller.Cohort
import FlashReduce.Controller.FineRendezvous
import Mathlib.Data.List.Perm.Subperm

/-!
# Isolation of sessions

A `Workload` is a finite set of sessions: the requests of all participants, with
distinct ranks inside a session, as many participants as every one of them
announces in `num_workers`, and exactly one root.  Every participant makes one
RdmaSession call.

The first part is about runs whose locked sections are one step each: as long as no
barrier operation is joined by calls of two sessions, nobody is released before its
own session is complete, nobody raises, and everybody is answered with data of its own
session (`reachable_outcomes`).

The second part splits the locked sections.  `session_isolation` carries the results over
to every interleaving in which, in addition, no call looks its session up while another
call of the session has raised the counter and not yet stored its request.
`session_isolation_fails` shows that both conditions are needed: the counter and the event
of the rendezvous belong to the controller, not to the session, so two sessions that arrive
together release each other; and the counter is raised before the request is stored, while
the second test and the lookup do not take the lock.
-/

namespace FlashReduce
namespace Controller

open Library

variable {ι : Type}

/-! ### The session records -/

/-- A record after a request is stored in it. -/
def SessionRecord.store (record : SessionRecord) (request : RdmaSessionRequest) : SessionRecord :=
  if request.root = 1 then { record with root := some request }
  else { record with workers := record.workers.set request.rank request }

theorem SessionRecord.store_root (record : SessionRecord) (request : RdmaSessionRequest) :
    (record.store request).root = if request.root = 1 then some request else record.root := by
  unfold SessionRecord.store
  split <;> rfl

theorem SessionRecord.store_workers (record : SessionRecord) (request : RdmaSessionRequest)
    (rank : Nat) :
    (record.store request).workers.get? rank =
      if request.root ≠ 1 ∧ rank = request.rank then some request
      else record.workers.get? rank := by
  unfold SessionRecord.store
  by_cases hroot : request.root = 1
  · simp [hroot]
  · simp [hroot]

/-- The record that a session has, or the empty record it starts with. -/
def recordOf (sessions : OrderedDict Nat SessionRecord) (sessionId : Nat) : SessionRecord :=
  (sessions.get? sessionId).getD ⟨none, .empty⟩

theorem register_get? (request : RdmaSessionRequest) (sessions : OrderedDict Nat SessionRecord)
    (sessionId : Nat) :
    ((Rpc.rdmaSession request).register sessions).get? sessionId =
      if sessionId = request.sessionId then
        some ((recordOf sessions request.sessionId).store request)
      else sessions.get? sessionId := by
  unfold Rpc.register SessionRecord.store recordOf
  by_cases hsame : sessionId = request.sessionId
  · by_cases hroot : request.root = 1 <;> simp [hsame, hroot]
  · by_cases hroot : request.root = 1 <;>
      cases hrecord : sessions.get? request.sessionId <;> simp [hsame, hroot, hrecord]

theorem recordOf_register (request : RdmaSessionRequest)
    (sessions : OrderedDict Nat SessionRecord) (sessionId : Nat) :
    recordOf ((Rpc.rdmaSession request).register sessions) sessionId =
      if sessionId = request.sessionId then (recordOf sessions sessionId).store request
      else recordOf sessions sessionId := by
  unfold recordOf
  rw [register_get?]
  by_cases hsame : sessionId = request.sessionId
  · simp [hsame, recordOf]
  · simp [hsame]

/-- A registration changes the root of its session's record when it is a root's. -/
theorem register_root (request : RdmaSessionRequest) (sessions : OrderedDict Nat SessionRecord)
    (sessionId : Nat) :
    (recordOf ((Rpc.rdmaSession request).register sessions) sessionId).root =
      if sessionId = request.sessionId ∧ request.root = 1 then some request
      else (recordOf sessions sessionId).root := by
  rw [recordOf_register]
  by_cases hsession : sessionId = request.sessionId
  · simp [hsession, SessionRecord.store_root]
  · simp [hsession]

/-- A registration changes one rank of its session's workers when it is a worker's. -/
theorem register_workers (request : RdmaSessionRequest) (sessions : OrderedDict Nat SessionRecord)
    (sessionId rank : Nat) :
    (recordOf ((Rpc.rdmaSession request).register sessions) sessionId).workers.get? rank =
      if sessionId = request.sessionId ∧ request.root ≠ 1 ∧ rank = request.rank then some request
      else (recordOf sessions sessionId).workers.get? rank := by
  rw [recordOf_register]
  by_cases hsession : sessionId = request.sessionId
  · simp [hsession, SessionRecord.store_workers]
  · simp [hsession]

/-- A session with a root has a record. -/
theorem get?_of_root {sessions : OrderedDict Nat SessionRecord} {sessionId : Nat}
    {root : RdmaSessionRequest} (h : (recordOf sessions sessionId).root = some root) :
    sessions.get? sessionId = some (recordOf sessions sessionId) := by
  unfold recordOf at h ⊢
  cases hget : sessions.get? sessionId with
  | none => simp [hget] at h
  | some record => rfl

/-- A session with a worker has a record. -/
theorem get?_of_worker {sessions : OrderedDict Nat SessionRecord} {sessionId rank : Nat}
    {worker : RdmaSessionRequest}
    (h : (recordOf sessions sessionId).workers.get? rank = some worker) :
    sessions.get? sessionId = some (recordOf sessions sessionId) := by
  unfold recordOf at h ⊢
  cases hget : sessions.get? sessionId with
  | none => simp [hget] at h
  | some record => rfl

theorem finish_of_worker (self : Rendezvous) (request : RdmaSessionRequest)
    {root : RdmaSessionRequest}
    (hrequest : request.root ≠ 1)
    (hroot : (recordOf self.sessions request.sessionId).root = some root) :
    (Rpc.rdmaSession request).finish self = (.ok (.rdmaSession root.response), self) := by
  simp [Rpc.finish, lookupPeer, get?_of_root hroot, hrequest, hroot]

/-- The root is answered with the first registered worker. -/
theorem finish_of_root (self : Rendezvous) (request : RdmaSessionRequest)
    {worker : RdmaSessionRequest} {rank : Nat}
    (hrequest : request.root = 1)
    (hworker : (recordOf self.sessions request.sessionId).workers.get? rank = some worker) :
    ∃ peer found, (recordOf self.sessions request.sessionId).workers.get? peer = some found ∧
      (Rpc.rdmaSession request).finish self = (.ok (.rdmaSession found.response), self) := by
  obtain ⟨peer, found, hpeer, hfound⟩ := OrderedDict.exists_first_key hworker
  refine ⟨peer, found, hfound, ?_⟩
  simp [Rpc.finish, lookupPeer, get?_of_worker hworker, hrequest, hpeer, hfound]

/-! ### Sessions -/

/-- The class of all calls of one session. -/
def Rpc.inSession (sessionId : Nat) (rpc : Rpc) : Bool :=
  rpc.sessionId? == some sessionId

/-- A finite set of sessions, each with its participants' requests. -/
structure Workload where
  requests : List RdmaSessionRequest
  ranks : (requests.map fun request => (request.sessionId, request.rank)).Nodup
  several : ∀ request ∈ requests, 2 ≤ request.numWorkers
  complete : ∀ request ∈ requests,
    (requests.filter fun other => other.sessionId = request.sessionId).length =
      request.numWorkers
  root : ∀ request ∈ requests,
    (requests.filter fun other =>
      other.sessionId = request.sessionId && other.root = 1).length = 1

/-- The participants of one session. -/
def Workload.session (work : Workload) (sessionId : Nat) : List RdmaSessionRequest :=
  work.requests.filter fun request => request.sessionId = sessionId

theorem Workload.mem_session {work : Workload} {sessionId : Nat} {request : RdmaSessionRequest} :
    request ∈ work.session sessionId ↔
      request ∈ work.requests ∧ request.sessionId = sessionId := by
  simp [Workload.session]

/-- A session has one root. -/
theorem Workload.root_unique {work : Workload} {request other : RdmaSessionRequest}
    (hrequest : request ∈ work.requests) (hother : other ∈ work.requests)
    (hsession : other.sessionId = request.sessionId) (hroot : request.root = 1)
    (hroot' : other.root = 1) : other = request := by
  obtain ⟨root, hlist⟩ := List.length_eq_one_iff.mp (work.root request hrequest)
  have hmem {r : RdmaSessionRequest} (hr : r ∈ work.requests)
      (hs : r.sessionId = request.sessionId) (h1 : r.root = 1) : r = root := by
    have : r ∈ [root] := by
      rw [← hlist]
      simp [hr, hs, h1]
    exact List.mem_singleton.mp this
  rw [hmem hother hsession hroot', hmem hrequest rfl hroot]

/-- A rank occurs once in a session. -/
theorem Workload.rank_unique {work : Workload} {request other : RdmaSessionRequest}
    (hrequest : request ∈ work.requests) (hother : other ∈ work.requests)
    (hsession : other.sessionId = request.sessionId) (hrank : other.rank = request.rank) :
    other = request :=
  List.inj_on_of_nodup_map work.ranks hother hrequest (by rw [hsession, hrank])

/-- A session of `n ≥ 2` participants has a root and a worker. -/
theorem Workload.exists_root {work : Workload} {request : RdmaSessionRequest}
    (hrequest : request ∈ work.requests) :
    ∃ root ∈ work.session request.sessionId, root.root = 1 := by
  obtain ⟨root, hlist⟩ := List.length_eq_one_iff.mp (work.root request hrequest)
  have hmem : root ∈ work.requests.filter fun other =>
      other.sessionId = request.sessionId && other.root = 1 := by
    rw [hlist]
    exact List.mem_singleton.mpr rfl
  simp only [List.mem_filter, Bool.and_eq_true, decide_eq_true_eq] at hmem
  exact ⟨root, Workload.mem_session.mpr ⟨hmem.1, hmem.2.1⟩, hmem.2.2⟩

theorem Workload.exists_worker {work : Workload} {request : RdmaSessionRequest}
    (hrequest : request ∈ work.requests) :
    ∃ worker ∈ work.session request.sessionId, worker.root ≠ 1 := by
  by_contra hnone
  push Not at hnone
  have hroots : (work.requests.filter fun other =>
      other.sessionId = request.sessionId && other.root = 1) =
      work.session request.sessionId := by
    unfold Workload.session
    apply List.filter_congr
    intro other hother
    by_cases hsession : other.sessionId = request.sessionId
    · simp [hsession, hnone other (Workload.mem_session.mpr ⟨hother, hsession⟩)]
    · simp [hsession]
  have h1 := work.root request hrequest
  have h2 := work.complete request hrequest
  have h3 := work.several request hrequest
  rw [hroots] at h1
  unfold Workload.session at h1
  omega

/-- Each participant makes one call. -/
def OneCallEach (work : Workload) (s : System ι) : Action ι → Prop
  | .enter _ rpc => (∃ request ∈ work.requests, rpc = .rdmaSession request) ∧
      ∀ call ∈ s.calls, call.rpc ≠ rpc
  | .resume _ => True

/-- A call finds the open operation joined by calls of its own session only. -/
def SessionsApart (s : System ι) : Action ι → Prop
  | .enter _ rpc => ∀ call ∈ s.calls, call.opId = s.open → call.rpc.sessionId? = rpc.sessionId?
  | .resume _ => True

instance (work : Workload) (s : System ι) : ∀ action, Decidable (OneCallEach work s action)
  | .enter _ rpc => inferInstanceAs (Decidable
      ((∃ request ∈ work.requests, rpc = .rdmaSession request) ∧ ∀ call ∈ s.calls, call.rpc ≠ rpc))
  | .resume _ => inferInstanceAs (Decidable True)

instance (s : System ι) : ∀ action, Decidable (SessionsApart s action)
  | .enter _ rpc => inferInstanceAs (Decidable
      (∀ call ∈ s.calls, call.opId = s.open → call.rpc.sessionId? = rpc.sessionId?))
  | .resume _ => inferInstanceAs (Decidable True)

/-- The records hold exactly the requests of the calls that have entered. -/
structure Registered (work : Workload) (s : System ι) : Prop where
  source : ∀ call ∈ s.calls, ∃ request ∈ work.requests, call.rpc = .rdmaSession request
  distinct : (s.calls.map Call.rpc).Nodup
  root_stored : ∀ call ∈ s.calls, ∀ request, call.rpc = .rdmaSession request →
    request.root = 1 → (recordOf s.controller.sessions request.sessionId).root = some request
  worker_stored : ∀ call ∈ s.calls, ∀ request, call.rpc = .rdmaSession request →
    request.root ≠ 1 →
    (recordOf s.controller.sessions request.sessionId).workers.get? request.rank = some request
  root_sound : ∀ sessionId root, (recordOf s.controller.sessions sessionId).root = some root →
    root ∈ work.session sessionId ∧ root.root = 1
  worker_sound : ∀ sessionId rank worker,
    (recordOf s.controller.sessions sessionId).workers.get? rank = some worker →
    worker ∈ work.session sessionId ∧ worker.root ≠ 1

theorem Registered.initial (work : Workload) : Registered work (⟨.initial, []⟩ : System ι) where
  source := fun call hmem => absurd hmem List.not_mem_nil
  distinct := List.nodup_nil
  root_stored := fun call hmem => absurd hmem List.not_mem_nil
  worker_stored := fun call hmem => absurd hmem List.not_mem_nil
  root_sound := fun sessionId root h => by simp [recordOf, Rendezvous.initial] at h
  worker_sound := fun sessionId rank worker h => by simp [recordOf, Rendezvous.initial] at h

theorem Registered.resume {work : Workload} {s s' : System ι} {index : Nat} {call call' : Call ι}
    (hreg : Registered work s) (h : Resumed s s' index call call') : Registered work s' := by
  have hold {c : Call ι} (hc : c ∈ s'.calls) : ∃ c₀ ∈ s.calls, c₀.rpc = c.rpc := by
    obtain ⟨c₀, hc₀, hticket⟩ := h.exists_ticket hc
    exact ⟨c₀, hc₀, congrArg Ticket.rpc hticket⟩
  have hrpcs : s'.calls.map Call.rpc = s.calls.map Call.rpc := by
    simpa [Function.comp_def] using congrArg (List.map Ticket.rpc) h.tickets
  refine ⟨?_, hrpcs ▸ hreg.distinct, ?_, ?_, h.sessions ▸ hreg.root_sound,
    h.sessions ▸ hreg.worker_sound⟩
  · intro c hc
    obtain ⟨c₀, hc₀, hrpc⟩ := hold hc
    rw [← hrpc]
    exact hreg.source c₀ hc₀
  · intro c hc request hrequest
    obtain ⟨c₀, hc₀, hrpc⟩ := hold hc
    rw [h.sessions]
    exact hreg.root_stored c₀ hc₀ request (hrpc.trans hrequest)
  · intro c hc request hrequest
    obtain ⟨c₀, hc₀, hrpc⟩ := hold hc
    rw [h.sessions]
    exact hreg.worker_stored c₀ hc₀ request (hrpc.trans hrequest)

theorem Registered.mem_requests {work : Workload} {s : System ι} (hreg : Registered work s)
    {call : Call ι} {request : RdmaSessionRequest} (hcall : call ∈ s.calls)
    (hrpc : call.rpc = .rdmaSession request) : request ∈ work.requests := by
  obtain ⟨source, hsource, heq⟩ := hreg.source call hcall
  rw [hrpc] at heq
  cases heq
  exact hsource

/-- No participant of the workload overwrites another one's data. -/
theorem Registered.enter {work : Workload} {s s' : System ι} {client : ι} {rpc : Rpc}
    (hreg : Registered work s) (hguard : OneCallEach work s (.enter client rpc))
    (hmove : Move s (.enter client rpc) s') : Registered work s' := by
  obtain ⟨⟨request, hrequest, rfl⟩, hfresh⟩ := hguard
  obtain ⟨hcalls, hsessions, -⟩ := hmove.entered
  have hne {call : Call ι} {other : RdmaSessionRequest} (hcall : call ∈ s.calls)
      (hother : call.rpc = .rdmaSession other) : other ≠ request := by
    rintro rfl
    exact hfresh call hcall hother
  refine ⟨?_, ?_, ?_, ?_, ?_, ?_⟩
  · rw [hcalls]
    exact forall_mem_snoc hreg.source ⟨request, hrequest, rfl⟩
  · rw [hcalls, List.map_append, List.nodup_append]
    refine ⟨hreg.distinct, List.nodup_singleton _, ?_⟩
    intro old hold new hnew
    obtain ⟨call, hcall, rfl⟩ := List.mem_map.mp hold
    rw [List.map_singleton, List.mem_singleton] at hnew
    rw [hnew]
    exact hfresh call hcall
  · rw [hcalls]
    refine forall_mem_snoc (fun call hcall other hother hroot => ?_) ?_
    · have hkept : ¬ (other.sessionId = request.sessionId ∧ request.root = 1) := fun h =>
        hne hcall hother
          (work.root_unique hrequest (hreg.mem_requests hcall hother) h.1 h.2 hroot)
      rw [hsessions, register_root, if_neg hkept]
      exact hreg.root_stored call hcall other hother hroot
    · intro other hother hroot
      cases hother
      rw [hsessions, register_root, if_pos ⟨rfl, hroot⟩]
  · rw [hcalls]
    refine forall_mem_snoc (fun call hcall other hother hroot => ?_) ?_
    · have hkept : ¬ (other.sessionId = request.sessionId ∧ request.root ≠ 1 ∧
          other.rank = request.rank) := fun h =>
        hne hcall hother
          (work.rank_unique hrequest (hreg.mem_requests hcall hother) h.1 h.2.2)
      rw [hsessions, register_workers, if_neg hkept]
      exact hreg.worker_stored call hcall other hother hroot
    · intro other hother hroot
      cases hother
      rw [hsessions, register_workers, if_pos ⟨rfl, hroot, rfl⟩]
  · intro sessionId root hroot
    rw [hsessions, register_root] at hroot
    split at hroot
    · next hnew =>
      cases hroot
      exact ⟨Workload.mem_session.mpr ⟨hrequest, hnew.1.symm⟩, hnew.2⟩
    · exact hreg.root_sound sessionId root hroot
  · intro sessionId rank worker hworker
    rw [hsessions, register_workers] at hworker
    split at hworker
    · next hnew =>
      cases hworker
      exact ⟨Workload.mem_session.mpr ⟨hrequest, hnew.1.symm⟩, hnew.2.1⟩
    · exact hreg.worker_sound sessionId rank worker hworker

/-! ### Completeness of a closed cohort -/

/-- All participants of a session have entered once a call of the session
belongs to a closed operation. -/
theorem session_complete {work : Workload} {s : System ι} {call : Call ι}
    {request : RdmaSessionRequest} (hreg : Registered work s)
    (hcohorts : Cohorts (Rpc.inSession request.sessionId) request.numWorkers s)
    (hmem : call ∈ s.calls) (hrpc : call.rpc = .rdmaSession request)
    (hclosed : call.opId < s.open) :
    ∀ other ∈ work.session request.sessionId, ∃ c ∈ s.calls, c.rpc = .rdmaSession other := by
  have hclass : Rpc.inSession request.sessionId call.rpc = true := by
    simp [hrpc, Rpc.inSession, Rpc.sessionId?]
  -- the requests of the cohort and those of the session
  let cohort := (s.calls.filter fun c => c.opId = call.opId).map Call.rpc
  let session := (work.session request.sessionId).map Rpc.rdmaSession
  have hnodup : cohort.Nodup := hreg.distinct.sublist (List.filter_sublist.map _)
  have hsubset : cohort ⊆ session := by
    intro rpc hrpc'
    obtain ⟨c, hc, rfl⟩ := List.mem_map.mp hrpc'
    obtain ⟨hc, hop⟩ := List.mem_filter.mp hc
    have hop : c.opId = call.opId := by simpa using hop
    obtain ⟨other, hother, hrpc⟩ := hreg.source c hc
    have hsame := (hcohorts.unmixed c hc call hmem hop).trans hclass
    rw [hrpc] at hsame ⊢
    have hsession : other.sessionId = request.sessionId := by
      simpa [Rpc.inSession, Rpc.sessionId?] using hsame
    exact List.mem_map_of_mem (Workload.mem_session.mpr ⟨hother, hsession⟩)
  have hrequest : request ∈ work.requests := by
    obtain ⟨other, hother, heq⟩ := hreg.source call hmem
    rw [hrpc] at heq
    cases heq
    exact hother
  have hlength : session.length ≤ cohort.length := by
    have hjoined := hcohorts.closed_eq call hmem hclass hclosed
    unfold System.joined at hjoined
    rw [List.countP_eq_length_filter] at hjoined
    have hsession := work.complete request hrequest
    simp only [session, cohort, List.length_map, Workload.session]
    omega
  have hperm := (List.subperm_of_subset hnodup hsubset).perm_of_length_le hlength
  intro other hother
  have hin : Rpc.rdmaSession other ∈ cohort := by
    rw [hperm.mem_iff]
    exact List.mem_map_of_mem hother
  obtain ⟨c, hc, heq⟩ := List.mem_map.mp hin
  exact ⟨c, (List.mem_filter.mp hc).1, heq⟩

/-! ### Isolation -/

/-- What a participant may be answered: the data of a peer of its own session,
of the root for a worker and of a worker for the root. -/
def AnswerOk (work : Workload) (request : RdmaSessionRequest) (response : Response) : Prop :=
  ∃ peer ∈ work.session request.sessionId, (peer.root = 1 ↔ request.root ≠ 1) ∧
    response = .rdmaSession peer.response

/-- The outcome of one call is the outcome its session calls for. -/
def OutcomeOk (work : Workload) (s : System ι) (call : Call ι) : Prop :=
  (∀ error, call.phase ≠ .raised error) ∧
    ∀ request response, call.rpc = .rdmaSession request → call.phase = .returned response →
      (∀ other ∈ work.session request.sessionId, ∃ c ∈ s.calls, c.rpc = .rdmaSession other) ∧
      AnswerOk work request response

/-- The lookup after the rendezvous finds a peer of the right kind. -/
theorem Registered.answer {work : Workload} {s : System ι} {request : RdmaSessionRequest}
    (hreg : Registered work s) (hrequest : request ∈ work.requests)
    (hcomplete : ∀ other ∈ work.session request.sessionId,
      ∃ c ∈ s.calls, c.rpc = .rdmaSession other) :
    ∃ response, ((Rpc.rdmaSession request).finish s.controller).1 = .ok response ∧
      AnswerOk work request response := by
  by_cases hroot : request.root = 1
  · obtain ⟨worker, hworker, hisWorker⟩ := work.exists_worker hrequest
    obtain ⟨c, hc, hrpc⟩ := hcomplete worker hworker
    have hstored := hreg.worker_stored c hc worker hrpc hisWorker
    rw [(Workload.mem_session.mp hworker).2] at hstored
    obtain ⟨rank, found, hfound, hfinish⟩ := finish_of_root _ _ hroot hstored
    obtain ⟨hin, hkind⟩ := hreg.worker_sound _ _ _ hfound
    exact ⟨_, by rw [hfinish], found, hin, by simp [hkind, hroot], rfl⟩
  · obtain ⟨root, hmem, hisRoot⟩ := work.exists_root hrequest
    obtain ⟨c, hc, hrpc⟩ := hcomplete root hmem
    have hstored := hreg.root_stored c hc root hrpc hisRoot
    rw [(Workload.mem_session.mp hmem).2] at hstored
    have hfinish := finish_of_worker _ _ hroot hstored
    exact ⟨_, by rw [hfinish], root, hmem, by simp [hisRoot, hroot], rfl⟩

/-- The runs in which the sessions do not meet in an operation. -/
def IsolatedCalls (work : Workload) (s : System ι) (action : Action ι) : Prop :=
  OneCallEach work s action ∧ SessionsApart s action

instance (work : Workload) (s : System ι) (action : Action ι) :
    Decidable (IsolatedCalls work s action) :=
  inferInstanceAs (Decidable (OneCallEach work s action ∧ SessionsApart s action))

/-- In such a run every session has its cohorts to itself. -/
theorem IsolatedCalls.unmixed {work : Workload} {request : RdmaSessionRequest}
    (hrequest : request ∈ work.requests) {s : System ι} {action : Action ι}
    (h : IsolatedCalls work s action) :
    Unmixed (Rpc.inSession request.sessionId) request.numWorkers s action := by
  cases action with
  | enter client rpc =>
      obtain ⟨⟨⟨other, hother, rfl⟩, -⟩, hapart⟩ := h
      refine ⟨?_, ?_⟩
      · intro hclass
        have hsession : other.sessionId = request.sessionId := by
          simpa [Rpc.inSession, Rpc.sessionId?] using hclass
        show other.numWorkers = request.numWorkers
        rw [← work.complete other hother, ← work.complete request hrequest, hsession]
      · intro call hcall hop
        unfold Rpc.inSession
        rw [hapart call hcall hop]
  | resume index => trivial

theorem reachable_registered {work : Workload} {s : System ι}
    (hreach : (rendezvousMachine ι).Reachable (IsolatedCalls work) s) : Registered work s := by
  refine hreach.induction (Registered work) ?_ ?_
  · rintro s rfl
    exact Registered.initial work
  · intro s action t hbefore hreg hguard hstep
    have hmove := (reachable_inv hbefore).step_move hstep
    cases action with
    | enter client rpc => exact hreg.enter hguard.1 hmove
    | resume index =>
        obtain ⟨call, call', h⟩ := hmove.resumed
        exact hreg.resume h

/-- A call that has ended as its session expects stays so when no call is lost. -/
theorem OutcomeOk.mono {work : Workload} {s s' : System ι} {call : Call ι}
    (h : OutcomeOk work s call)
    (hkeep : ∀ other : RdmaSessionRequest, (∃ c ∈ s.calls, c.rpc = .rdmaSession other) →
      ∃ c ∈ s'.calls, c.rpc = .rdmaSession other) : OutcomeOk work s' call := by
  refine ⟨h.1, fun request response hrpc hphase => ?_⟩
  obtain ⟨hcomplete, hanswer⟩ := h.2 request response hrpc hphase
  exact ⟨fun other hother => hkeep other (hcomplete other hother), hanswer⟩

/-- A step of a call loses no call. -/
theorem Resumed.keeps {s s' : System ι} {index : Nat} {call call' : Call ι}
    (h : Resumed s s' index call call') (other : RdmaSessionRequest)
    (hold : ∃ c ∈ s.calls, c.rpc = .rdmaSession other) :
    ∃ c ∈ s'.calls, c.rpc = .rdmaSession other := by
  obtain ⟨c, hc, hrpc⟩ := hold
  have hin : c.ticket ∈ s'.calls.map Call.ticket := by
    rw [h.tickets]
    exact List.mem_map_of_mem hc
  obtain ⟨c', hc', hticket⟩ := List.mem_map.mp hin
  exact ⟨c', hc', (congrArg Ticket.rpc hticket).trans hrpc⟩

/-- At its lookup the session of a call is complete, and the lookup finds what the session
expects. -/
theorem Registered.lookup {work : Workload} {s : System ι} (hreg : Registered work s)
    (hcohorts : ∀ request ∈ work.requests,
      Cohorts (Rpc.inSession request.sessionId) request.numWorkers s)
    {call : Call ι} (hmem : call ∈ s.calls) (hpassed : call.phase = .passed)
    {request : RdmaSessionRequest} (hrequest : request ∈ work.requests)
    (hrpc : call.rpc = .rdmaSession request) :
    (∀ other ∈ work.session request.sessionId, ∃ c ∈ s.calls, c.rpc = .rdmaSession other) ∧
      ∃ response, (call.rpc.finish s.controller).1 = .ok response ∧
        AnswerOk work request response := by
  have hclass : Rpc.inSession request.sessionId call.rpc = true := by
    simp [hrpc, Rpc.inSession, Rpc.sessionId?]
  have hpast : call.isPast = true := by simp [Call.isPast, hpassed]
  have hclosed := (hcohorts request hrequest).past call hmem hclass hpast
  have hcomplete := session_complete hreg (hcohorts request hrequest) hmem hrpc hclosed
  rw [hrpc]
  exact ⟨hcomplete, hreg.answer hrequest hcomplete⟩

/-- The call that takes a step ends as its session expects. -/
theorem Resumed.outcome {work : Workload} {s s' : System ι} {index : Nat} {call call' : Call ι}
    (h : Resumed s s' index call call') (hreg : Registered work s)
    (hcohorts : ∀ request ∈ work.requests,
      Cohorts (Rpc.inSession request.sessionId) request.numWorkers s) :
    OutcomeOk work s' call' := by
  obtain ⟨request, hrequest, hrpc⟩ := hreg.source call h.mem
  refine ⟨fun error herror => ?_, fun other response hother hphase => ?_⟩
  · obtain ⟨hpassed, hfinish⟩ := h.failure error herror
    obtain ⟨-, response, hok, -⟩ := hreg.lookup hcohorts h.mem hpassed hrequest hrpc
    rw [hfinish] at hok
    cases hok
  · rw [h.rpc_eq, hrpc] at hother
    cases hother
    obtain ⟨hpassed, hfinish⟩ := h.answer response hphase
    obtain ⟨hcomplete, found, hok, hanswer⟩ :=
      hreg.lookup hcohorts h.mem hpassed hrequest hrpc
    rw [hfinish] at hok
    cases hok
    exact ⟨fun other hother => h.keeps other (hcomplete other hother), hanswer⟩

/-- Every call ends as its session expects. -/
theorem reachable_outcomes {work : Workload} {s : System ι}
    (hreach : (rendezvousMachine ι).Reachable (IsolatedCalls work) s) :
    ∀ call ∈ s.calls, OutcomeOk work s call := by
  refine hreach.induction (fun s => ∀ call ∈ s.calls, OutcomeOk work s call) ?_ ?_
  · rintro s rfl call hmem
    cases hmem
  · intro s action t hbefore houtcome hguard hstep
    have hmove := (reachable_inv hbefore).step_move hstep
    cases action with
    | enter client rpc =>
        obtain ⟨hcalls, -, -⟩ := hmove.entered
        rw [hcalls]
        refine forall_mem_snoc (fun call hcall => ?_) ⟨nofun, nofun⟩
        refine (houtcome call hcall).mono ?_
        rintro other ⟨c, hc, hrpc⟩
        exact ⟨c, hcalls ▸ List.mem_append_left _ hc, hrpc⟩
    | resume index =>
        obtain ⟨call, call', h⟩ := hmove.resumed
        have hcohorts : ∀ request ∈ work.requests,
            Cohorts (Rpc.inSession request.sessionId) request.numWorkers s := by
          intro request hrequest
          have hpos : 1 ≤ request.numWorkers :=
            Nat.le_trans (by decide) (work.several request hrequest)
          exact reachable_cohorts hpos (fun _ _ h => h.unmixed hrequest) hbefore
        rw [h.calls]
        exact forall_mem_set (fun c hc => (houtcome c hc).mono h.keeps)
          (h.outcome (reachable_registered hbefore) hcohorts)

/-! ### Between the locked sections -/

section Fine

variable {f f' : Fine ι}

/-- The request has been stored: its call has left its first locked section, or is in it
past the store. -/
def Fine.HasStored (f : Fine ι) (request : RdmaSessionRequest) : Prop :=
  (∃ call ∈ f.calls, call.rpc = .rdmaSession request) ∨
    ∃ client opId stage, f.holder = some (.joining client (.rdmaSession request) opId stage) ∧
      stage.pending (.rdmaSession request) = none

/-- A call that is out of its first section stays in the list. -/
theorem FineMove.keeps_rpc {action : FineAction ι} (hmove : FineMove f action f')
    (hwoken : f.LeavesWoken) {call : Call ι} (hcall : call ∈ f.calls) :
    ∃ call' ∈ f'.calls, call'.rpc = call.rpc := by
  have hset {index : Nat} {old new : Call ι} (hold : f.calls[index]? = some old)
      (horigin : new.origin = old.origin) :
      ∃ call' ∈ f.calls.set index new, call'.rpc = call.rpc := by
    have hmem : call.rpc ∈ (f.calls.set index new).map Call.rpc := by
      rw [map_set_same hold (congrArg Prod.snd horigin)]
      exact List.mem_map_of_mem hcall
    exact List.mem_map.mp hmem
  cases hmove with
  | join | joinNext | leave | leaveNext => exact ⟨call, hcall, rfl⟩
  | joinRaise | joinEnd => exact ⟨call, List.mem_append_left _ hcall, rfl⟩
  | leaveRaise index old new controller hfree hold horigin => exact hset hold horigin
  | leaveEnd index old new stage controller hholder horigin =>
      exact hset (hwoken index old stage hholder).1 horigin
  | resume index old new controller hold hlock hpiece =>
      exact hset hold (resumeCall_origin hpiece)

theorem FineMove.keeps_stored {action : FineAction ι} (hmove : FineMove f action f')
    (hwoken : f.LeavesWoken) {request : RdmaSessionRequest} (h : f.HasStored request) :
    f'.HasStored request := by
  rcases h with ⟨call, hcall, hrpc⟩ | ⟨client, opId, stage, hholder, hstored⟩
  · obtain ⟨call', hcall', hsame⟩ := hmove.keeps_rpc hwoken hcall
    exact .inl ⟨call', hcall', hsame.trans hrpc⟩
  · cases hmove with
    | join _ _ _ _ hfree | joinRaise _ _ _ _ hfree | leave _ _ _ hfree
    | leaveRaise _ _ _ _ hfree =>
        rw [hfree] at hholder
        cases hholder
    | joinNext _ _ _ _ next _ hold _ hpending =>
        rw [hold] at hholder
        cases hholder
        exact .inr ⟨_, _, next, rfl, hpending hstored⟩
    | joinEnd _ _ _ _ call _ hold hrpc =>
        rw [hold] at hholder
        cases hholder
        exact .inl ⟨call, List.mem_append_right _ (List.mem_singleton.mpr rfl), hrpc⟩
    | leaveNext _ _ _ _ _ hold | leaveEnd _ _ _ _ _ hold =>
        rw [hold] at hholder
        cases hholder
    | resume => exact .inr ⟨client, opId, stage, hholder, hstored⟩

theorem resumeCall_passed {controller controller' : Rendezvous} {call call' : Call ι}
    (h : resumeCall controller call = some (controller', call'))
    (hreturned : call'.hasReturned = true) : call.phase = .passed := by
  cases hphase : call.phase with
  | passed => rfl
  | entered event =>
      simp only [resumeCall, hphase] at h
      split at h <;> cases h <;> cases hreturned
  | waiting event =>
      simp only [resumeCall, hphase] at h
      obtain ⟨-, heq⟩ := Option.ite_none_right_eq_some.mp h
      cases heq
      cases hreturned
  | woken =>
      simp only [resumeCall, hphase] at h
      split at h <;> cases h <;> cases hreturned
  | returned response =>
      simp only [resumeCall, hphase] at h
      cases h
  | raised error =>
      simp only [resumeCall, hphase] at h
      cases h

/-- A call that has returned had returned before, or returns with its lookup. -/
theorem FineMove.returned {action : FineAction ι} (hmove : FineMove f action f') {call : Call ι}
    (hcall : call ∈ f'.calls) (hreturned : call.hasReturned = true) :
    call ∈ f.calls ∨ ∃ index old, action = .resume index ∧ f.calls[index]? = some old ∧
      old.phase = .passed ∧ old.rpc = call.rpc ∧ f'.holder = f.holder := by
  have hnot {new : Call ι} (hnew : new.hasReturned = false) : call ≠ new := by
    rintro rfl
    rw [hreturned] at hnew
    cases hnew
  cases hmove with
  | join | joinNext | leave | leaveNext => exact .inl hcall
  | joinRaise _ _ new _ _ hnew | joinEnd _ _ _ _ new _ _ _ hnew =>
      rcases List.mem_append.mp hcall with hold | hlast
      · exact .inl hold
      · exact absurd (List.mem_singleton.mp hlast) (hnot hnew)
  | leaveRaise _ _ new _ _ _ _ hnew | leaveEnd _ _ new _ _ _ _ hnew =>
      rcases mem_set_cases hcall with heq | hold
      · exact absurd heq (hnot hnew)
      · exact .inl hold
  | resume index old new controller hold hlock hpiece =>
      rcases mem_set_cases hcall with rfl | hold'
      · exact .inr ⟨index, old, rfl, hold, resumeCall_passed hpiece hreturned,
          (congrArg Prod.snd (resumeCall_origin hpiece)).symm, rfl⟩
      · exact .inl hold'

/-- A call that is not in its second section is unchanged at the end of the section. -/
theorem Fine.mem_settled (hwoken : f.LeavesWoken) {call : Call ι} (hcall : call ∈ f.calls)
    (hlock : call.phase ≠ .woken) : call ∈ f.settled.calls := by
  obtain ⟨index, hget⟩ := List.mem_iff_getElem?.mp hcall
  exact List.mem_of_getElem? (settled_set hwoken hget hlock call).1

/-- A call at the end of the section is listed before, or it is the one that joins. -/
theorem Fine.of_mem_settled (hwoken : f.LeavesWoken) {call : Call ι}
    (hcall : call ∈ f.settled.calls) : (∃ c ∈ f.calls, c.rpc = call.rpc) ∨
      ∃ client opId stage, f.holder = some (.joining client call.rpc opId stage) := by
  cases hholder : f.holder with
  | none =>
      rw [settled_free hholder] at hcall
      exact .inl ⟨call, hcall, rfl⟩
  | some holder =>
      cases holder with
      | joining client rpc opId stage =>
          simp only [settled, hholder] at hcall
          split at hcall <;> rcases List.mem_append.mp hcall with hold | hnew
          · exact .inl ⟨call, hold, rfl⟩
          · rw [List.mem_singleton.mp hnew]
            exact .inr ⟨client, opId, stage, rfl⟩
          · exact .inl ⟨call, hold, rfl⟩
          · rw [List.mem_singleton.mp hnew]
            exact .inr ⟨client, opId, stage, rfl⟩
      | leaving index leaver stage =>
          have hleaver := List.mem_of_getElem? (hwoken index leaver stage hholder).1
          simp only [settled, hholder] at hcall
          left
          split at hcall <;> rcases mem_set_cases hcall with rfl | hold
          · exact ⟨leaver, hleaver, rfl⟩
          · exact ⟨call, hold, rfl⟩
          · exact ⟨leaver, hleaver, rfl⟩
          · exact ⟨call, hold, rfl⟩

/-! ### Isolation in every interleaving -/

/-- A condition on the calls that take the lock for the first time. -/
def AtEntry (guard : System ι → Action ι → Prop) (f : Fine ι) : FineAction ι → Prop
  | .enter client rpc => guard f.toSystem (.enter client rpc)
  | .proceed => True
  | .resume _ => True

instance (guard : System ι → Action ι → Prop) [∀ s action, Decidable (guard s action)]
    (f : Fine ι) : ∀ action, Decidable (AtEntry guard f action)
  | .enter client rpc => inferInstanceAs (Decidable (guard f.toSystem (.enter client rpc)))
  | .proceed => inferInstanceAs (Decidable True)
  | .resume _ => inferInstanceAs (Decidable True)

/-- The runs in which the sessions do not meet in an operation, and no call looks its session
up while another call of the session is between the counter and the stored request. -/
def IsolatedRun (work : Workload) (f : Fine ι) (action : FineAction ι) : Prop :=
  AtEntry (OneCallEach work) f action ∧ AtEntry SessionsApart f action ∧
    LookupAfterStore f action

instance (work : Workload) (f : Fine ι) (action : FineAction ι) :
    Decidable (IsolatedRun work f action) :=
  inferInstanceAs (Decidable (AtEntry (OneCallEach work) f action ∧
    AtEntry SessionsApart f action ∧ LookupAfterStore f action))

theorem IsolatedRun.settled {work : Workload}
    (hreach : (fineMachine ι).Reachable (IsolatedRun work) f) :
    (rendezvousMachine ι).Reachable (IsolatedCalls work) f.settled :=
  reachable_settled (fun _ _ h => h.2.2) (fun _ _ _ h => ⟨h.1, h.2.1⟩)
    (fun _ _ => ⟨trivial, trivial⟩) hreach

/-- A participant that returns has been preceded by the requests of its whole session. -/
theorem IsolatedRun.complete {work : Workload}
    (hreach : (fineMachine ι).Reachable (IsolatedRun work) f) :
    ∀ call ∈ f.calls, ∀ request, call.rpc = .rdmaSession request → call.hasReturned = true →
      ∀ other ∈ work.session request.sessionId, f.HasStored other := by
  refine hreach.induction (fun f => ∀ call ∈ f.calls, ∀ request,
    call.rpc = .rdmaSession request → call.hasReturned = true →
    ∀ other ∈ work.session request.sessionId, f.HasStored other) ?_ ?_
  · rintro f rfl call hcall
    cases hcall
  · intro f action f' hbefore hstored hguard hstep call hcall request hrpc hreturned other hother
    have hmove := fineStep_move hstep
    have hwoken := reachable_leavesWoken hbefore
    rcases hmove.returned hcall hreturned with hold |
      ⟨index, old, rfl, hold, hpassed, hsame, hholder⟩
    · exact hmove.keeps_stored hwoken (hstored call hold request hrpc hreturned other hother)
    · -- the lookup has just been made, when the session was complete
      have hafter := hbefore.step hguard hstep
      have hwoken' := reachable_leavesWoken hafter
      obtain ⟨response, hphase⟩ : ∃ response, call.phase = .returned response := by
        unfold Call.hasReturned at hreturned
        split at hreturned
        · next response heq => exact ⟨response, heq⟩
        · cases hreturned
      have hlock : call.phase ≠ .woken := by
        rw [hphase]
        simp
      obtain ⟨-, houtcome⟩ := reachable_outcomes (IsolatedRun.settled hafter) call
        (Fine.mem_settled hwoken' hcall hlock)
      obtain ⟨c, hc, hcrpc⟩ := (houtcome request response hrpc hphase).1 other hother
      rcases Fine.of_mem_settled hwoken' hc with ⟨listed, hlisted, heq⟩ | ⟨client, opId, stage, heq⟩
      · exact .inl ⟨listed, hlisted, heq.trans hcrpc⟩
      · -- the other participant is in its section, past the store: the lookup saw to that
        rw [hcrpc] at heq
        refine .inr ⟨client, opId, stage, heq, ?_⟩
        have hnot := hguard.2.2 old hold hpassed request.sessionId (by rw [hsame, hrpc]; rfl)
        have hpending : f.pending = stage.pending (.rdmaSession other) := by
          rw [hholder] at heq
          simp [Fine.pending, heq, Holder.pending]
        rw [hpending, ← (Workload.mem_session.mp hother).2] at hnot
        cases stage with
        | counted | created => exact absurd rfl hnot
        | stored | signalled => rfl

/-- What the sessions of a workload expect of the controller. -/
structure Isolated (work : Workload) (f : Fine ι) : Prop where
  no_error : ∀ call ∈ f.calls, ∀ error, call.phase ≠ .raised error
  complete : ∀ call ∈ f.calls, ∀ request, call.rpc = .rdmaSession request →
    call.hasReturned = true → ∀ other ∈ work.session request.sessionId, f.HasStored other
  worker_answer : ∀ call ∈ f.calls, ∀ request response, call.rpc = .rdmaSession request →
    call.phase = .returned response → request.root ≠ 1 →
    ∃ root ∈ work.session request.sessionId, root.root = 1 ∧
      response = .rdmaSession root.response
  root_answer : ∀ call ∈ f.calls, ∀ request response, call.rpc = .rdmaSession request →
    call.phase = .returned response → request.root = 1 →
    ∃ worker ∈ work.session request.sessionId, worker.root ≠ 1 ∧
      response = .rdmaSession worker.response

/-- **Session isolation**, in every run in which each call finds the open operation joined by
calls of its own session only, and looks its session up when no other call of it has counted
itself in without having stored its request. -/
theorem session_isolation {work : Workload}
    (hreach : (fineMachine ι).Reachable (IsolatedRun work) f) : Isolated work f := by
  have hwoken := reachable_leavesWoken hreach
  have houtcome := reachable_outcomes (IsolatedRun.settled hreach)
  have hanswer {call : Call ι} {request : RdmaSessionRequest} {response : Response}
      (hcall : call ∈ f.calls) (hrpc : call.rpc = .rdmaSession request)
      (hphase : call.phase = .returned response) : AnswerOk work request response := by
    have hmem := Fine.mem_settled hwoken hcall (by rw [hphase]; simp)
    exact ((houtcome call hmem).2 request response hrpc hphase).2
  refine ⟨fun call hcall error herror => ?_, IsolatedRun.complete hreach, ?_, ?_⟩
  · have hmem := Fine.mem_settled hwoken hcall (by rw [herror]; simp)
    exact (houtcome call hmem).1 error herror
  · intro call hcall request response hrpc hphase hroot
    obtain ⟨peer, hpeer, hkind, rfl⟩ := hanswer hcall hrpc hphase
    exact ⟨peer, hpeer, hkind.mpr hroot, rfl⟩
  · intro call hcall request response hrpc hphase hroot
    obtain ⟨peer, hpeer, hkind, rfl⟩ := hanswer hcall hrpc hphase
    exact ⟨peer, hpeer, fun h => hkind.mp h hroot, rfl⟩

end Fine

/-- One session of a root and a worker. -/
def oneSession : Workload where
  requests := [bareRequest 1 0 2 1, bareRequest 1 1 2 0]
  ranks := by decide
  several := by decide
  complete := by decide
  root := by decide

/-- Two sessions of one root and one worker each. -/
def twoSessions : Workload where
  requests := [bareRequest 1 0 2 1, bareRequest 1 1 2 0, bareRequest 2 0 2 1, bareRequest 2 1 2 0]
  ranks := by decide
  several := by decide
  complete := by decide
  root := by decide

/-- The pieces of a first locked section that does not close its operation. -/
def joinPieces (client : ι) (rpc : Rpc) : List (FineAction ι) :=
  [.enter client rpc, .proceed, .proceed, .proceed]

/-- Session 2 enters after the root of session 1 has been answered; the root tests the counter
while the worker of its session is in its section. -/
theorem session_isolation_two_sessions :
    ∃ f : Fine Unit, f.calls.map Call.hasReturned = [true, false, false] ∧
      Isolated twoSessions f := by
  have hview : ((fineMachine Unit).exec (IsolatedRun twoSessions) ⟨⟨.initial, []⟩, none⟩
      (joinPieces () (.rdmaSession (bareRequest 1 0 2 1)) ++
        [.enter () (.rdmaSession (bareRequest 1 1 2 0)), .resume 0, .proceed, .proceed, .resume 0,
          .proceed, .proceed] ++ joinPieces () (.rdmaSession (bareRequest 2 0 2 1)))).map
      (fun f => f.calls.map Call.hasReturned) = some [true, false, false] := by
    decide +kernel
  obtain ⟨f, hexec, hreturned⟩ := Option.map_eq_some_iff.mp hview
  have hrun := Machine.run_of_exec _ _ _ _ rfl hexec
  exact ⟨f, hreturned, session_isolation hrun.reachable⟩

theorem not_isolated {work : Workload} {f : Fine ι}
    (hraised : .raised .indexError ∈ f.calls.map Call.phase) : ¬ Isolated work f := by
  intro h
  obtain ⟨call, hcall, hphase⟩ := List.mem_map.mp hraised
  exact h.no_error call hcall .indexError hphase

/-- Without the conditions isolation fails.  The roots of two sessions that arrive first
release each other, and the first one raises for want of a worker.  In a session that has the
rendezvous to itself, a root that tests the counter and looks its session up while the worker
has raised the counter, but has not stored its request, raises as well. -/
theorem session_isolation_fails :
    (¬ ∀ f : Fine Unit, (fineMachine Unit).Reachable (AtEntry (OneCallEach twoSessions)) f →
      Isolated twoSessions f) ∧
    ¬ ∀ f : Fine Unit, (fineMachine Unit).Reachable (fun f action =>
      AtEntry (OneCallEach oneSession) f action ∧ AtEntry SessionsApart f action) f →
        Isolated oneSession f := by
  constructor
  · intro hall
    have hview : ((fineMachine Unit).exec (AtEntry (OneCallEach twoSessions))
        ⟨⟨.initial, []⟩, none⟩ (joinPieces () (.rdmaSession (bareRequest 1 0 2 1)) ++
          joinPieces () (.rdmaSession (bareRequest 2 0 2 1)) ++
          [.proceed, .resume 0, .resume 0])).map
        (fun f => f.calls.map Call.phase) = some [.raised .indexError, .entered 0] := by
      decide +kernel
    obtain ⟨f, hexec, hphases⟩ := Option.map_eq_some_iff.mp hview
    have hrun := Machine.run_of_exec _ _ _ _ rfl hexec
    exact not_isolated (by rw [hphases]; simp) (hall f hrun.reachable)
  · intro hall
    have hview : ((fineMachine Unit).exec (fun f action =>
        AtEntry (OneCallEach oneSession) f action ∧ AtEntry SessionsApart f action)
        ⟨⟨.initial, []⟩, none⟩ (joinPieces () (.rdmaSession (bareRequest 1 0 2 1)) ++
          [.enter () (.rdmaSession (bareRequest 1 1 2 0)), .resume 0, .resume 0])).map
        (fun f => f.calls.map Call.phase) = some [.raised .indexError] := by
      decide +kernel
    obtain ⟨f, hexec, hphases⟩ := Option.map_eq_some_iff.mp hview
    have hrun := Machine.run_of_exec _ _ _ _ rfl hexec
    exact not_isolated (by rw [hphases]; simp) (hall f hrun.reachable)

end Controller
end FlashReduce
