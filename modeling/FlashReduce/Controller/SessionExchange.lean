import FlashReduce.Controller.Lockstep
import FlashReduce.Controller.SessionIsolation

/-!
# Repeated exchange in one session

One root and one worker of the same session exchange queue-pair data in any
number of rounds.  The first part models the client side of
`gRPCClient::RdmaSession`: the request it builds from its local queue pair and
the remote queue pair it decodes from the response.

`session_exchange` shows that round `k` delivers the data of round `k` as long
as a participant enters a round only when the other one has returned from the
round before.  `session_exchange_overwritten` shows that the condition is
needed: the record of the session is read after the rendezvous, outside the
lock, and the next round overwrites it.
-/

namespace FlashReduce
namespace Controller

open Library

/-! ### The client -/

structure QpInfo where
  rkey : UInt32
  raddr : UInt64
  qpNum : UInt32
  psn : UInt32
  gidSubnetPrefix : UInt64
  gidInterfaceId : UInt64
  lid : UInt16
  deriving DecidableEq

/-- The request that `gRPCClient::RdmaSession` sends for its first local queue
pair. -/
def clientRequest (sessionId rank numWorkers root : Nat) (mac : UInt64) (ipv4 : UInt32)
    (localQpInfo : QpInfo) : RdmaSessionRequest where
  sessionId := sessionId
  rank := rank
  numWorkers := numWorkers
  root := root
  mac := mac
  ipv4 := ipv4
  rkey := localQpInfo.rkey
  raddr := localQpInfo.raddr
  qpn := localQpInfo.qpNum
  psn := localQpInfo.psn
  gidSubnet := localQpInfo.gidSubnetPrefix
  gidIface := localQpInfo.gidInterfaceId
  lid := localQpInfo.lid.toUInt32

/-- The remote queue pair that `gRPCClient::RdmaSession` decodes. -/
def remoteQpInfo (response : RdmaSessionResponse) : QpInfo where
  rkey := response.rkey
  raddr := response.raddr
  qpNum := response.qpn
  psn := response.psn
  gidSubnetPrefix := response.gidSubnet
  gidInterfaceId := response.gidIface
  lid := response.lid.toUInt16

/-- A peer decodes exactly the queue pair that was sent. -/
theorem remoteQpInfo_clientRequest (sessionId rank numWorkers root : Nat) (mac : UInt64)
    (ipv4 : UInt32) (localQpInfo : QpInfo) :
    remoteQpInfo (clientRequest sessionId rank numWorkers root mac ipv4 localQpInfo).response =
      localQpInfo := by
  simp [remoteQpInfo, clientRequest, RdmaSessionRequest.response]

/-! ### Two participants -/

/-- A session of one root (participant `0`) and one worker (participant `1`),
with the queue pair that each of them sends in each round. -/
structure Exchange where
  sessionId : Nat
  rank : Fin 2 → Nat
  root : Fin 2 → Nat
  root_zero : root 0 = 1
  root_one : root 1 ≠ 1
  mac : Fin 2 → UInt64
  ipv4 : Fin 2 → UInt32
  qpInfo : Fin 2 → Nat → QpInfo

/-- The request of a participant's `k`-th call. -/
def Exchange.request (ex : Exchange) (participant : Fin 2) (k : Nat) : RdmaSessionRequest :=
  clientRequest ex.sessionId (ex.rank participant) 2 (ex.root participant) (ex.mac participant)
    (ex.ipv4 participant) (ex.qpInfo participant k)

/-- The other participant. -/
def peer (participant : Fin 2) : Fin 2 := 1 - participant

/-- Each participant makes its calls one at a time, in the order of its rounds. -/
def ExchangeCalls (ex : Exchange) (s : System (Fin 2)) : Action (Fin 2) → Prop
  | .enter participant rpc =>
      rpc = .rdmaSession (ex.request participant (s.rounds participant)) ∧ s.Idle participant
  | .resume _ => True

/-- A call enters only when every call of an earlier round has returned. -/
def RoundsApart (s : System (Fin 2)) : Action (Fin 2) → Prop
  | .enter _ _ => ∀ call ∈ s.calls, call.opId < s.open → call.hasReturned = true
  | .resume _ => True

instance (ex : Exchange) (s : System (Fin 2)) : ∀ action, Decidable (ExchangeCalls ex s action)
  | .enter participant rpc => inferInstanceAs (Decidable
      (rpc = .rdmaSession (ex.request participant (s.rounds participant)) ∧ s.Idle participant))
  | .resume _ => inferInstanceAs (Decidable True)

instance (s : System (Fin 2)) : ∀ action, Decidable (RoundsApart s action)
  | .enter _ _ => inferInstanceAs (Decidable
      (∀ call ∈ s.calls, call.opId < s.open → call.hasReturned = true))
  | .resume _ => inferInstanceAs (Decidable True)

/-- No call raises, and the `k`-th call of a participant returns what the other
participant sent in its own `k`-th call. -/
structure Exchanged (ex : Exchange) (s : System (Fin 2)) : Prop where
  no_error : ∀ call ∈ s.calls, ∀ error, call.phase ≠ .raised error
  answer : ∀ participant k (call : Call (Fin 2)) response,
    (s.callsOf participant)[k]? = some call → call.phase = .returned response →
    ∃ answer, response = .rdmaSession answer ∧
      answer = (ex.request (peer participant) k).response ∧
      remoteQpInfo answer = ex.qpInfo (peer participant) k

/-- The record of the session holds the latest request of each participant, and
only calls of the latest closed operation can still be on their way, with
nobody in the next one. -/
structure Latest (ex : Exchange) (s : System (Fin 2)) : Prop where
  script : ∀ participant k (call : Call (Fin 2)), (s.callsOf participant)[k]? = some call →
    call.rpc = .rdmaSession (ex.request participant k)
  root : ∀ k, s.rounds 0 = k + 1 →
    (recordOf s.controller.sessions ex.sessionId).root = some (ex.request 0 k)
  worker : ∀ k, s.rounds 1 = k + 1 →
    (recordOf s.controller.sessions ex.sessionId).workers.get? (ex.rank 1) =
      some (ex.request 1 k)
  only_worker : ∀ rank worker,
    (recordOf s.controller.sessions ex.sessionId).workers.get? rank = some worker →
    rank = ex.rank 1
  pending : ∀ call ∈ s.calls, call.opId < s.open → call.hasReturned = false →
    call.opId + 1 = s.open ∧ s.joined s.open = 0

theorem Exchange.request_root (ex : Exchange) (participant : Fin 2) (k : Nat) :
    (ex.request participant k).root = ex.root participant := rfl

theorem Exchange.request_rank (ex : Exchange) (participant : Fin 2) (k : Nat) :
    (ex.request participant k).rank = ex.rank participant := rfl

theorem Exchange.request_sessionId (ex : Exchange) (participant : Fin 2) (k : Nat) :
    (ex.request participant k).sessionId = ex.sessionId := rfl

theorem Latest.initial (ex : Exchange) : Latest ex ⟨.initial, []⟩ where
  script := fun participant k call hcall => by simp [System.callsOf] at hcall
  root := fun k hk => by simp [System.rounds, System.callsOf] at hk
  worker := fun k hk => by simp [System.rounds, System.callsOf] at hk
  only_worker := fun rank worker h => by simp [recordOf, Rendezvous.initial] at h
  pending := fun call hmem => absurd hmem List.not_mem_nil

theorem Latest.resume {ex : Exchange} {s s' : System (Fin 2)} {index : Nat}
    {call call' : Call (Fin 2)} (hlatest : Latest ex s)
    (h : Resumed s s' index call call') : Latest ex s' := by
  refine ⟨?_, ?_, ?_, h.sessions ▸ hlatest.only_worker, ?_⟩
  · intro participant k c hc
    obtain ⟨c₀, hc₀, hticket⟩ := h.callsOf_getElem? hc
    rw [← hlatest.script participant k c₀ hc₀]
    exact (congrArg Ticket.rpc hticket).symm
  · intro k hk
    rw [h.sessions]
    exact hlatest.root k (by rw [← h.rounds, hk])
  · intro k hk
    rw [h.sessions]
    exact hlatest.worker k (by rw [← h.rounds, hk])
  · rw [h.opened, h.joined, h.calls]
    refine forall_mem_set hlatest.pending (fun hclosed _ => ?_)
    rw [h.opId_eq] at hclosed ⊢
    exact hlatest.pending call h.mem hclosed h.unfinished

/-- The calls of every participant follow its rounds. -/
theorem Latest.script_enter {ex : Exchange} {s s' : System (Fin 2)} {participant : Fin 2}
    (hlatest : Latest ex s)
    (hcalls : s'.calls = s.calls ++
      [s.newCall participant (.rdmaSession (ex.request participant (s.rounds participant)))]) :
    ∀ other k (call : Call (Fin 2)), (s'.callsOf other)[k]? = some call →
      call.rpc = .rdmaSession (ex.request other k) := by
  intro other k call hcall
  rw [callsOf_of_calls_snoc hcalls, System.newCall_client] at hcall
  by_cases hsame : participant = other
  · subst hsame
    rw [if_pos rfl] at hcall
    rcases Nat.lt_or_ge k (s.callsOf participant).length with hk | hk
    · rw [List.getElem?_append_left hk] at hcall
      exact hlatest.script participant k call hcall
    · -- the new call
      rw [List.getElem?_append_right hk] at hcall
      obtain ⟨hlt, rfl⟩ := List.getElem?_eq_some_iff.mp hcall
      have hk : k = s.rounds participant := by
        simp only [List.length_singleton] at hlt
        simp only [System.rounds]
        omega
      rw [List.getElem_singleton, System.newCall_rpc, hk]
  · rw [if_neg hsame, List.append_nil] at hcall
    exact hlatest.script other k call hcall

/-- Registering round `k` of a participant. -/
theorem Latest.enter {ex : Exchange} {s s' : System (Fin 2)} {participant : Fin 2} {rpc : Rpc}
    (hlatest : Latest ex s) (hinv : Inv s)
    (hguard : ExchangeCalls ex s (.enter participant rpc))
    (hapart : RoundsApart s (.enter participant rpc))
    (hmove : Move s (.enter participant rpc) s') : Latest ex s' := by
  obtain ⟨rfl, -⟩ := hguard
  obtain ⟨hcalls, hsessions, hcases⟩ := hmove.entered
  have hrounds := rounds_of_calls_snoc hcalls
  refine ⟨hlatest.script_enter hcalls, ?_, ?_, ?_, ?_⟩
  · intro k hk
    rw [hrounds, System.newCall_client] at hk
    rw [hsessions, register_root, Exchange.request_root, Exchange.request_sessionId]
    rcases Fin.exists_fin_two.mp ⟨participant, rfl⟩ with rfl | rfl
    · rw [if_pos rfl] at hk
      rw [if_pos ⟨rfl, ex.root_zero⟩, Nat.add_right_cancel hk]
    · rw [if_neg (by decide), Nat.add_zero] at hk
      rw [if_neg (fun h => ex.root_one h.2)]
      exact hlatest.root k hk
  · intro k hk
    rw [hrounds, System.newCall_client] at hk
    rw [hsessions, register_workers, Exchange.request_root, Exchange.request_rank,
      Exchange.request_sessionId]
    rcases Fin.exists_fin_two.mp ⟨participant, rfl⟩ with rfl | rfl
    · rw [if_neg (by decide), Nat.add_zero] at hk
      rw [if_neg (fun h => h.2.1 ex.root_zero)]
      exact hlatest.worker k hk
    · rw [if_pos rfl] at hk
      rw [if_pos ⟨rfl, ex.root_one, rfl⟩, Nat.add_right_cancel hk]
  · intro rank worker hworker
    rw [hsessions, register_workers, Exchange.request_root, Exchange.request_rank] at hworker
    split at hworker
    · next hnew =>
      rcases Fin.exists_fin_two.mp ⟨participant, rfl⟩ with rfl | rfl
      · exact absurd ex.root_zero hnew.2.1
      · exact hnew.2.2
    · exact hlatest.only_worker rank worker hworker
  · rw [hcalls]
    refine forall_mem_snoc (fun call hcall hclosed hunfinished => ?_) (fun hclosed _ => ?_)
    · have hle := hinv.opId_le call hcall
      rcases Nat.lt_or_eq_of_le hle with hlt | heq
      · -- calls of earlier rounds have returned
        rw [hapart call hcall hlt] at hunfinished
        cases hunfinished
      · rcases hcases with ⟨hopen, -⟩ | ⟨hopen, -⟩
        · omega
        · refine ⟨by omega, ?_⟩
          rw [joined_of_calls_snoc hcalls, hopen, hinv.joined_next]
          simp
    · rw [System.newCall_opId] at hclosed ⊢
      rcases hcases with ⟨hopen, -⟩ | ⟨hopen, -⟩
      · omega
      · refine ⟨by omega, ?_⟩
        rw [joined_of_calls_snoc hcalls, hopen, hinv.joined_next]
        simp

/-- At its lookup, a call finds the request that its peer sent in the same
round. -/
theorem Latest.answer {ex : Exchange} {s : System (Fin 2)} (hlatest : Latest ex s)
    (hlock : Lockstep s) (hcohorts : Cohorts (fun _ => true) 2 s) {participant : Fin 2} {k : Nat}
    {call : Call (Fin 2)} (hcall : (s.callsOf participant)[k]? = some call)
    (hpassed : call.phase = .passed) :
    (call.rpc.finish s.controller).1 =
      .ok (.rdmaSession (ex.request (peer participant) k).response) := by
  have hmem := (System.mem_callsOf.mp (List.mem_of_getElem? hcall)).1
  have hclosed := hcohorts.past call hmem rfl (by simp [Call.isPast, hpassed])
  obtain ⟨hlast, hnobody⟩ :=
    hlatest.pending call hmem hclosed (by simp [Call.hasReturned, hpassed])
  rw [hlock.opId_eq hcall] at hlast
  -- nobody has joined the open operation, so both participants are in round `k`
  have hrounds (other : Fin 2) : s.rounds other = k + 1 := by
    rcases hlock.rounds other with h | h
    · rw [h, hlast]
    · exfalso
      have hempty : s.arrived = ∅ := by
        rw [← Finset.card_eq_zero, ← hlock.joined, hnobody]
      have harrived : other ∈ s.arrived := by simp [System.arrived, h]
      rw [hempty] at harrived
      exact absurd harrived (Finset.notMem_empty other)
  rw [hlatest.script participant k call hcall]
  rcases Fin.exists_fin_two.mp ⟨participant, rfl⟩ with rfl | rfl
  · obtain ⟨rank, found, hfound, hfinish⟩ := finish_of_root s.controller
      (ex.request 0 k) ex.root_zero (hlatest.worker k (hrounds 1))
    have hrank := hlatest.only_worker rank found hfound
    have hworker := hlatest.worker k (hrounds 1)
    rw [← hrank] at hworker
    rw [Exchange.request_sessionId, hworker] at hfound
    cases hfound
    rw [hfinish]
    rfl
  · rw [finish_of_worker s.controller (ex.request 1 k) ex.root_one
      (hlatest.root k (hrounds 0))]
    rfl

/-- The runs in which the rounds do not overlap. -/
def SeparateRounds (ex : Exchange) (s : System (Fin 2)) (action : Action (Fin 2)) : Prop :=
  ExchangeCalls ex s action ∧ RoundsApart s action

instance (ex : Exchange) (s : System (Fin 2)) (action : Action (Fin 2)) :
    Decidable (SeparateRounds ex s action) :=
  inferInstanceAs (Decidable (ExchangeCalls ex s action ∧ RoundsApart s action))

theorem ExchangeCalls.rounds {ex : Exchange} {s : System (Fin 2)} {action : Action (Fin 2)}
    (h : ExchangeCalls ex s action) : Rounds 2 s action := by
  cases action with
  | enter participant rpc =>
      obtain ⟨rfl, hidle⟩ := h
      exact ⟨rfl, hidle⟩
  | resume index => trivial

theorem reachable_latest {ex : Exchange} {s : System (Fin 2)}
    (hreach : (rendezvousMachine (Fin 2)).Reachable (SeparateRounds ex) s) : Latest ex s := by
  refine hreach.induction (Latest ex) ?_ ?_
  · rintro s rfl
    exact Latest.initial ex
  · rintro s action t hbefore hlatest ⟨hcalls, hapart⟩ hstep
    have hinv := reachable_inv hbefore
    have hmove := hinv.step_move hstep
    cases action with
    | enter participant rpc => exact hlatest.enter hinv hcalls hapart hmove
    | resume index =>
        obtain ⟨call, call', h⟩ := hmove.resumed
        exact hlatest.resume h

/-- A call that enters has no answer yet. -/
theorem Exchanged.enter {ex : Exchange} {s s' : System (Fin 2)} {participant : Fin 2} {rpc : Rpc}
    (h : Exchanged ex s) (hcalls : s'.calls = s.calls ++ [s.newCall participant rpc]) :
    Exchanged ex s' := by
  constructor
  · rw [hcalls]
    exact forall_mem_snoc h.no_error (fun error herror => by cases herror)
  · intro other k call response hcall hphase
    rw [callsOf_of_calls_snoc hcalls] at hcall
    rcases Nat.lt_or_ge k (s.callsOf other).length with hk | hk
    · rw [List.getElem?_append_left hk] at hcall
      exact h.answer other k call response hcall hphase
    · rw [List.getElem?_append_right hk] at hcall
      have hnew := List.mem_of_getElem? hcall
      split at hnew
      · rw [List.mem_singleton.mp hnew] at hphase
        cases hphase
      · exact absurd hnew List.not_mem_nil

/-- A call that returns has just done its lookup. -/
theorem Exchanged.resume {ex : Exchange} {s s' : System (Fin 2)} {index : Nat}
    {call call' : Call (Fin 2)} (hexchanged : Exchanged ex s) (hlatest : Latest ex s)
    (hlock : Lockstep s) (hcohorts : Cohorts (fun _ => true) 2 s)
    (h : Resumed s s' index call call') : Exchanged ex s' := by
  obtain ⟨k, hk⟩ := List.mem_iff_getElem?.mp
    (System.mem_callsOf.mpr ⟨h.mem, rfl⟩ : call ∈ s.callsOf call.client)
  constructor
  · rw [h.calls]
    refine forall_mem_set hexchanged.no_error (fun error herror => ?_)
    obtain ⟨hpassed, hfinish⟩ := h.failure error herror
    rw [hlatest.answer hlock hcohorts hk hpassed] at hfinish
    cases hfinish
  · intro participant r c response hc hphase
    obtain ⟨hmem, hclient⟩ := System.mem_callsOf.mp (List.mem_of_getElem? hc)
    have hr := (hlock.resume h).opId_eq hc
    rw [h.calls] at hmem
    rcases mem_set_cases hmem with rfl | hold
    · have hkr : k = r := by rw [← hr, h.opId_eq, hlock.opId_eq hk]
      rw [h.client_eq] at hclient
      obtain ⟨hpassed, hfinish⟩ := h.answer response hphase
      rw [hlatest.answer hlock hcohorts hk hpassed, hclient, hkr] at hfinish
      cases hfinish
      exact ⟨_, rfl, rfl, remoteQpInfo_clientRequest ..⟩
    · -- every other call is where it was
      obtain ⟨r', hr'⟩ := List.mem_iff_getElem?.mp
        (System.mem_callsOf.mpr ⟨hold, hclient⟩ : c ∈ s.callsOf participant)
      have hsame : r' = r := by rw [← hr, hlock.opId_eq hr']
      exact hexchanged.answer participant r c response (hsame ▸ hr') hphase

/-- **Repeated exchange**, in every run in which a call enters only when every
call of an earlier round has returned. -/
theorem session_exchange {ex : Exchange} {s : System (Fin 2)}
    (hreach : (rendezvousMachine (Fin 2)).Reachable (SeparateRounds ex) s) : Exchanged ex s := by
  refine hreach.induction (Exchanged ex) ?_ ?_
  · rintro s rfl
    exact ⟨fun call hmem => absurd hmem List.not_mem_nil,
      fun participant k call response hcall => by simp [System.callsOf] at hcall⟩
  · intro s action t hbefore hexchanged hguard hstep
    have hmove := (reachable_inv hbefore).step_move hstep
    cases action with
    | enter participant rpc => exact hexchanged.enter hmove.entered.1
    | resume index =>
        obtain ⟨hcohorts, hlock⟩ :=
          reachable_lockstep (by decide) (fun _ _ h => h.1.rounds) hbefore
        obtain ⟨call, call', h⟩ := hmove.resumed
        exact hexchanged.resume (reachable_latest hbefore) hlock hcohorts h

/-- A session in which the queue pair number of a participant's `k`-th call is
`k`. -/
def numberedExchange : Exchange where
  sessionId := 7
  rank := fun participant => participant
  root := fun participant => if participant = 0 then 1 else 0
  root_zero := rfl
  root_one := by decide
  mac := fun _ => 0
  ipv4 := fun _ => 0
  qpInfo := fun participant k =>
    ⟨0, 0, UInt32.ofNat k, 0, 0, UInt64.ofNat participant, 0⟩

/-- The worker enters, the root completes the operation, and both return. -/
theorem session_exchange_one_round :
    ∃ s : System (Fin 2), s.calls.map Call.hasReturned = [true, true] ∧
      Exchanged numberedExchange s := by
  have hrun := Machine.run_of_exec (rendezvousMachine (Fin 2))
    (SeparateRounds numberedExchange) ⟨.initial, []⟩
    [.enter 1 (.rdmaSession (numberedExchange.request 1 0)),
      .enter 0 (.rdmaSession (numberedExchange.request 0 0)), .resume 1, .resume 1,
      .resume 0, .resume 0] rfl rfl
  exact ⟨_, rfl, session_exchange hrun.reachable⟩

/-- Without the condition the exchange fails: the root returns, enters its
second call and overwrites the record, and only then does the worker's first
call read it. -/
theorem session_exchange_overwritten :
    ¬ ∀ s : System (Fin 2),
      (rendezvousMachine (Fin 2)).Reachable (ExchangeCalls numberedExchange) s →
      Exchanged numberedExchange s := by
  intro hall
  have hrun := Machine.run_of_exec (rendezvousMachine (Fin 2))
    (ExchangeCalls numberedExchange) ⟨.initial, []⟩
    [.enter 1 (.rdmaSession (numberedExchange.request 1 0)),
      .enter 0 (.rdmaSession (numberedExchange.request 0 0)), .resume 1, .resume 1,
      .enter 0 (.rdmaSession (numberedExchange.request 0 1)), .resume 0, .resume 0] rfl rfl
  obtain ⟨answer, hanswer, hsent, -⟩ := (hall _ hrun.reachable).answer 1 0 _ _ rfl rfl
  cases hanswer
  exact absurd hsent (by decide)

end Controller
end FlashReduce
