import FlashReduce.Controller.RendezvousInvariant

/-!
# Cohorts of the rendezvous

The calls that joined one barrier operation are its cohort.  A class of calls is
given by a test `inClass` and a threshold `n`: every call of the class asks for
`n` workers.  When no cohort mixes calls of the class with others (`Unmixed`),
the class is released exactly as if it had the rendezvous to itself:

* a closed operation joined by a call of the class was joined by exactly `n`
  calls, an open one by fewer (`Cohorts.closed_eq`, `Cohorts.open_lt`);
* a call of the class that is past the rendezvous belongs to a closed operation
  (`Cohorts.past`).

The class is all Barrier calls, all calls of one session, or all calls,
depending on the result.
-/

namespace FlashReduce
namespace Controller

open Library

variable {ι : Type}

/-- The rendezvous of the call is over. -/
def Call.isPast (call : Call ι) : Bool :=
  match call.phase with
  | .passed | .returned _ | .raised _ => true
  | _ => false

theorem Call.isPast_of_hasReturned {call : Call ι} (h : call.hasReturned = true) :
    call.isPast = true := by
  unfold Call.hasReturned at h
  unfold Call.isPast
  cases hphase : call.phase <;> simp_all

/-! ### The part of a call that never changes -/

/-- Who called, with what, and which operation the call joined. -/
structure Ticket (ι : Type) where
  client : ι
  rpc : Rpc
  opId : Nat

def Call.ticket (call : Call ι) : Ticket ι := ⟨call.client, call.rpc, call.opId⟩

@[simp] theorem Call.ticket_client (call : Call ι) : call.ticket.client = call.client := rfl

@[simp] theorem Call.ticket_rpc (call : Call ι) : call.ticket.rpc = call.rpc := rfl

@[simp] theorem Call.ticket_opId (call : Call ι) : call.ticket.opId = call.opId := rfl

/-- What a step of a call in progress does: it replaces the call by one with the
same ticket and touches neither the open operation nor the sessions.  A call
gets past the rendezvous because its operation is closed or because the test
outside the lock let it through. -/
structure Resumed (s s' : System ι) (index : Nat) (call call' : Call ι) : Prop where
  get : s.calls[index]? = some call
  calls : s'.calls = s.calls.set index call'
  ticket : call'.ticket = call.ticket
  opened : s'.open = s.open
  sessions : s'.controller.sessions = s.controller.sessions
  unfinished : call.hasReturned = false
  past : call'.isPast = true → call.isPast = true ∨ call.opId < s.open ∨
    call.rpc.numWorkers + s.gone call.opId ≤ s.joined call.opId
  answer : ∀ response, call'.phase = .returned response →
    call.phase = .passed ∧ (call.rpc.finish s.controller).1 = .ok response
  failure : ∀ error, call'.phase = .raised error →
    call.phase = .passed ∧ (call.rpc.finish s.controller).1 = .error error

theorem Move.resumed {s s' : System ι} {index : Nat} (hmove : Move s (.resume index) s') :
    ∃ call call', Resumed s s' index call call' := by
  have hunfinished {call : Call ι} {phase : Phase} (hphase : call.phase = phase)
      (hopen : ∀ response, phase ≠ .returned response) : call.hasReturned = false := by
    unfold Call.hasReturned
    split
    · next response hreturned => exact absurd (hphase.symm.trans hreturned) (hopen response)
    · rfl
  cases hmove with
  | testWait _ call hcall hphase hleft hlt =>
      exact ⟨call, _, hcall, rfl, rfl, rfl, rfl, hunfinished hphase nofun, nofun, nofun, nofun⟩
  | testPass _ call hcall hphase hleft hge =>
      exact ⟨call, _, hcall, rfl, rfl, rfl, rfl, hunfinished hphase nofun,
        fun _ => Or.inr (Or.inr hge), nofun, nofun⟩
  | wake _ call hcall hphase hleft hclosed =>
      exact ⟨call, _, hcall, rfl, rfl, rfl, rfl, hunfinished hphase nofun,
        fun _ => Or.inr (Or.inl hclosed), nofun, nofun⟩
  | countOut _ call hcall hphase hleft hclosed =>
      exact ⟨call, _, hcall, rfl, rfl, by simp [System.open], by simp,
        hunfinished hphase nofun, fun _ => Or.inr (Or.inl hclosed), nofun, nofun⟩
  | respond _ call hcall hphase response hfinish =>
      refine ⟨call, _, hcall, rfl, rfl, rfl, rfl, hunfinished hphase nofun,
        fun _ => Or.inl (by simp [Call.isPast, hphase]), ?_, nofun⟩
      intro other hother
      cases hother
      exact ⟨hphase, hfinish⟩
  | fail _ call hcall hphase error hfinish =>
      refine ⟨call, _, hcall, rfl, rfl, rfl, rfl, hunfinished hphase nofun,
        fun _ => Or.inl (by simp [Call.isPast, hphase]), nofun, ?_⟩
      intro other hother
      cases hother
      exact ⟨hphase, hfinish⟩

namespace Resumed

variable {s s' : System ι} {index : Nat} {call call' : Call ι}

theorem mem (h : Resumed s s' index call call') : call ∈ s.calls :=
  List.mem_of_getElem? h.get

theorem client_eq (h : Resumed s s' index call call') : call'.client = call.client :=
  congrArg Ticket.client h.ticket

theorem rpc_eq (h : Resumed s s' index call call') : call'.rpc = call.rpc :=
  congrArg Ticket.rpc h.ticket

theorem opId_eq (h : Resumed s s' index call call') : call'.opId = call.opId :=
  congrArg Ticket.opId h.ticket

theorem tickets (h : Resumed s s' index call call') :
    s'.calls.map Call.ticket = s.calls.map Call.ticket := by
  rw [h.calls]
  exact map_set_same h.get h.ticket

/-- Every call after the step has the ticket of a call before it. -/
theorem exists_ticket (h : Resumed s s' index call call') {c : Call ι} (hc : c ∈ s'.calls) :
    ∃ c₀ ∈ s.calls, c₀.ticket = c.ticket := by
  rw [h.calls] at hc
  rcases mem_set_cases hc with rfl | hold
  · exact ⟨call, h.mem, h.ticket.symm⟩
  · exact ⟨c, hold, rfl⟩

theorem joined (h : Resumed s s' index call call') (op : Nat) : s'.joined op = s.joined op := by
  unfold System.joined
  rw [h.calls]
  exact countP_set_same h.get (by rw [h.opId_eq])

end Resumed

/-! ### Entering -/

/-- The state after a call's first locked section, in the two cases of the
counter test. -/
theorem Move.entered {s s' : System ι} {client : ι} {rpc : Rpc}
    (hmove : Move s (.enter client rpc) s') :
    s'.calls = s.calls ++ [s.newCall client rpc] ∧
      s'.controller.sessions = rpc.register s.controller.sessions ∧
      ((s'.open = s.open ∧ s.joined s.open + 1 < rpc.numWorkers) ∨
        (s'.open = s.open + 1 ∧ rpc.numWorkers ≤ s.joined s.open + 1)) := by
  cases hmove with
  | joinOpen _ _ hlt => exact ⟨rfl, rfl, Or.inl ⟨rfl, hlt⟩⟩
  | joinClose _ _ hge => exact ⟨rfl, rfl, Or.inr ⟨rfl, hge⟩⟩

theorem joined_of_calls_snoc {s s' : System ι} {call : Call ι}
    (hcalls : s'.calls = s.calls ++ [call]) (op : Nat) :
    s'.joined op = s.joined op + if call.opId = op then 1 else 0 := by
  unfold System.joined
  rw [hcalls]
  simp [List.countP_append, List.countP_cons]

theorem System.joined_pos {s : System ι} {call : Call ι} (hmem : call ∈ s.calls) :
    0 < s.joined call.opId :=
  List.countP_pos_iff.mpr ⟨call, hmem, by simp⟩

/-- Nobody has joined an operation with count zero. -/
theorem System.opId_ne_of_joined {s : System ι} {op : Nat} (h : s.joined op = 0) {call : Call ι}
    (hmem : call ∈ s.calls) : call.opId ≠ op := by
  rintro rfl
  have := s.joined_pos hmem
  omega

theorem Inv.joined_next {s : System ι} (hinv : Inv s) : s.joined (s.open + 1) = 0 := by
  unfold System.joined
  rw [List.countP_eq_zero]
  intro call hmem h
  have := hinv.opId_le call hmem
  simp only [decide_eq_true_eq] at h
  omega

/-! ### Unmixed cohorts -/

/-- A call that enters asks for `n` workers when it is of the class, and finds
the open operation joined by calls of the class only, or by none of them. -/
def Unmixed (inClass : Rpc → Bool) (n : Nat) (s : System ι) : Action ι → Prop
  | .enter _ rpc => (inClass rpc = true → rpc.numWorkers = n) ∧
      ∀ call ∈ s.calls, call.opId = s.open → inClass call.rpc = inClass rpc
  | .resume _ => True

instance (inClass : Rpc → Bool) (n : Nat) (s : System ι) :
    ∀ action, Decidable (Unmixed inClass n s action)
  | .enter _ rpc => inferInstanceAs (Decidable ((inClass rpc = true → rpc.numWorkers = n) ∧
      ∀ call ∈ s.calls, call.opId = s.open → inClass call.rpc = inClass rpc))
  | .resume _ => inferInstanceAs (Decidable True)

structure Cohorts (inClass : Rpc → Bool) (n : Nat) (s : System ι) : Prop where
  unmixed : ∀ call ∈ s.calls, ∀ other ∈ s.calls, call.opId = other.opId →
    inClass call.rpc = inClass other.rpc
  threshold : ∀ call ∈ s.calls, inClass call.rpc = true → call.rpc.numWorkers = n
  open_lt : ∀ call ∈ s.calls, inClass call.rpc = true → call.opId = s.open → s.joined s.open < n
  closed_eq : ∀ call ∈ s.calls, inClass call.rpc = true → call.opId < s.open →
    s.joined call.opId = n
  past : ∀ call ∈ s.calls, inClass call.rpc = true → call.isPast = true → call.opId < s.open

variable {inClass : Rpc → Bool} {n : Nat}

theorem Cohorts.resume {s s' : System ι} {index : Nat} {call call' : Call ι}
    (hcohorts : Cohorts inClass n s) (hinv : Inv s)
    (h : Resumed s s' index call call') : Cohorts inClass n s' := by
  have hold {c : Call ι} (hc : c ∈ s'.calls) :
      ∃ c₀ ∈ s.calls, c₀.rpc = c.rpc ∧ c₀.opId = c.opId := by
    obtain ⟨c₀, hc₀, hticket⟩ := h.exists_ticket hc
    exact ⟨c₀, hc₀, congrArg Ticket.rpc hticket, congrArg Ticket.opId hticket⟩
  refine ⟨?_, ?_, ?_, ?_, ?_⟩
  · intro c hc d hd hop
    obtain ⟨c₀, hc₀, hrpc, hopId⟩ := hold hc
    obtain ⟨d₀, hd₀, hrpc', hopId'⟩ := hold hd
    rw [← hrpc, ← hrpc']
    exact hcohorts.unmixed c₀ hc₀ d₀ hd₀ (by rw [hopId, hopId', hop])
  · intro c hc hclass
    obtain ⟨c₀, hc₀, hrpc, -⟩ := hold hc
    rw [← hrpc] at hclass ⊢
    exact hcohorts.threshold c₀ hc₀ hclass
  · intro c hc hclass hop
    obtain ⟨c₀, hc₀, hrpc, hopId⟩ := hold hc
    rw [h.joined, h.opened]
    exact hcohorts.open_lt c₀ hc₀ (hrpc ▸ hclass) (by rw [hopId, hop, h.opened])
  · intro c hc hclass hop
    obtain ⟨c₀, hc₀, hrpc, hopId⟩ := hold hc
    rw [h.joined, ← hopId]
    exact hcohorts.closed_eq c₀ hc₀ (hrpc ▸ hclass) (by rw [hopId, ← h.opened]; exact hop)
  · intro c hc hclass hpast
    rw [h.opened]
    rw [h.calls] at hc
    rcases mem_set_cases hc with rfl | hc
    · rw [h.rpc_eq] at hclass
      rw [h.opId_eq]
      rcases h.past hpast with hpast | hclosed | hge
      · exact hcohorts.past call h.mem hclass hpast
      · exact hclosed
      · -- the test let the call through: its operation has `n` members
        rcases Nat.lt_or_eq_of_le (hinv.opId_le call h.mem) with hclosed | hopen
        · exact hclosed
        · have hlt := hcohorts.open_lt call h.mem hclass hopen
          rw [hcohorts.threshold call h.mem hclass, hopen] at hge
          omega
    · exact hcohorts.past c hc hclass hpast

theorem Cohorts.enter {s s' : System ι} {client : ι} {rpc : Rpc} (hn : 1 ≤ n)
    (hcohorts : Cohorts inClass n s) (hinv : Inv s)
    (hguard : Unmixed inClass n s (.enter client rpc))
    (hmove : Move s (.enter client rpc) s') : Cohorts inClass n s' := by
  obtain ⟨hthreshold, hsame⟩ := hguard
  obtain ⟨hcalls, -, hcases⟩ := hmove.entered
  have hjoined := joined_of_calls_snoc hcalls
  have hnew : (s.newCall client rpc).opId = s.open := rfl
  rw [hnew] at hjoined
  -- if the new call is of the class, so is everybody in the open operation
  have hlt : inClass rpc = true → s.joined s.open < n := by
    intro hclass
    rcases Nat.eq_zero_or_pos (s.joined s.open) with hzero | hpos
    · omega
    · obtain ⟨c, hc, hop⟩ := List.countP_pos_iff.mp hpos
      have hop : c.opId = s.open := by simpa using hop
      exact hcohorts.open_lt c hc ((hsame c hc hop).trans hclass) hop
  refine ⟨?_, ?_, ?_, ?_, ?_⟩
  · rw [hcalls]
    refine forall_mem_snoc (fun c hc => ?_) ?_
    · exact forall_mem_snoc (hcohorts.unmixed c hc) (fun hop => hsame c hc hop)
    · exact forall_mem_snoc (fun d hd hop => (hsame d hd hop.symm).symm) (fun _ => rfl)
  · rw [hcalls]
    exact forall_mem_snoc hcohorts.threshold hthreshold
  · intro c hc hclass hop
    rw [hcalls] at hc
    rcases hcases with ⟨hopen, hcount⟩ | ⟨hopen, hcount⟩
    · rw [hopen] at hop ⊢
      rw [hjoined, if_pos rfl]
      have hrpc : inClass rpc = true := by
        rcases List.mem_append.mp hc with hc | hc
        · exact (hsame c hc hop).symm.trans hclass
        · rw [List.mem_singleton.mp hc] at hclass
          exact hclass
      have := hthreshold hrpc
      omega
    · -- nobody has joined the operation that was just opened
      exfalso
      rcases List.mem_append.mp hc with hc | hc
      · have := hinv.opId_le c hc
        omega
      · rw [List.mem_singleton.mp hc] at hop
        omega
  · intro c hc hclass hop
    rw [hcalls] at hc
    rcases List.mem_append.mp hc with hc | hc
    · rcases Nat.lt_or_eq_of_le (hinv.opId_le c hc) with hclosed | hcur
      · rw [hjoined, if_neg (by omega)]
        exact hcohorts.closed_eq c hc hclass hclosed
      · -- the operation of `c` was open, so the new call has closed it
        rcases hcases with ⟨hopen, hcount⟩ | ⟨hopen, hcount⟩
        · omega
        · have hrpc := (hsame c hc hcur).symm.trans hclass
          have h1 := hlt hrpc
          have h2 := hthreshold hrpc
          rw [hcur, hjoined, if_pos rfl]
          omega
    · rw [List.mem_singleton.mp hc] at hclass hop ⊢
      have hrpc : inClass rpc = true := hclass
      rcases hcases with ⟨hopen, hcount⟩ | ⟨hopen, hcount⟩
      · omega
      · have h1 := hlt hrpc
        have h2 := hthreshold hrpc
        rw [hnew, hjoined, if_pos rfl]
        omega
  · intro c hc hclass hpast
    rw [hcalls] at hc
    rcases List.mem_append.mp hc with hc | hc
    · have := hcohorts.past c hc hclass hpast
      omega
    · rw [List.mem_singleton.mp hc] at hpast
      cases hpast

theorem Cohorts.move {s s' : System ι} {action : Action ι} (hn : 1 ≤ n)
    (hcohorts : Cohorts inClass n s) (hinv : Inv s) (hguard : Unmixed inClass n s action)
    (hmove : Move s action s') : Cohorts inClass n s' := by
  cases action with
  | enter client rpc => exact hcohorts.enter hn hinv hguard hmove
  | resume index =>
      obtain ⟨call, call', h⟩ := hmove.resumed
      exact hcohorts.resume hinv h

theorem Cohorts.initial : Cohorts inClass n (⟨.initial, []⟩ : System ι) := by
  constructor <;> intro call hmem <;> exact absurd hmem List.not_mem_nil

/-- **Unmixed cohorts.**  In every run in which no operation mixes calls of the
class with others, the class is released by its own `n`-th arrival. -/
theorem reachable_cohorts {guard : System ι → Action ι → Prop} (hn : 1 ≤ n)
    (hguard : ∀ s action, guard s action → Unmixed inClass n s action)
    {s : System ι} (hreach : (rendezvousMachine ι).Reachable guard s) :
    Cohorts inClass n s := by
  refine hreach.induction (Cohorts inClass n) ?_ ?_
  · rintro s rfl
    exact Cohorts.initial
  · intro s action t hbefore hcohorts hallowed hstep
    have hinv := reachable_inv hbefore
    exact hcohorts.move hn hinv (hguard s action hallowed) (hinv.step_move hstep)

end Controller
end FlashReduce
