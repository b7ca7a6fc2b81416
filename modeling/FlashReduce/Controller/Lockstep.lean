import FlashReduce.Controller.Cohort
import Mathlib.Data.Fintype.Card

/-!
# Rounds of the rendezvous

`n` clients each issue calls one at a time, all with `num_workers = n`.  Then
the clients move in lockstep: the `r`-th call of every client joins operation
`r` (both counted from `0`), and the number of calls a client has entered is the
number of the open operation or one more, depending on whether the client has
joined it (`Lockstep`).  The number of clients that have joined the open
operation is its counter, so the operation is closed by the last of them.

Nothing here depends on which of the two methods is called.
-/

namespace FlashReduce
namespace Controller

open Library

/-- The calls of one client, in the order in which they entered. -/
def System.callsOf {ι : Type} [DecidableEq ι] (s : System ι) (client : ι) : List (Call ι) :=
  s.calls.filter fun call => call.client = client

/-- How many calls of a client have entered. -/
def System.rounds {ι : Type} [DecidableEq ι] (s : System ι) (client : ι) : Nat :=
  (s.callsOf client).length

section CallsOf

variable {ι : Type} [DecidableEq ι]

theorem System.mem_callsOf {s : System ι} {client : ι} {call : Call ι} :
    call ∈ s.callsOf client ↔ call ∈ s.calls ∧ call.client = client := by
  simp [System.callsOf]

theorem System.map_ticket_callsOf (s : System ι) (client : ι) :
    (s.callsOf client).map Call.ticket =
      (s.calls.map Call.ticket).filter fun ticket => ticket.client = client := by
  rw [List.filter_map]
  rfl

/-- A step of a call in progress changes no client's tickets. -/
theorem Resumed.map_ticket_callsOf {s s' : System ι} {index : Nat} {call call' : Call ι}
    (h : Resumed s s' index call call') (client : ι) :
    (s'.callsOf client).map Call.ticket = (s.callsOf client).map Call.ticket := by
  rw [System.map_ticket_callsOf, System.map_ticket_callsOf, h.tickets]

theorem Resumed.rounds {s s' : System ι} {index : Nat} {call call' : Call ι}
    (h : Resumed s s' index call call') (client : ι) : s'.rounds client = s.rounds client := by
  simpa [System.rounds] using congrArg List.length (h.map_ticket_callsOf client)

theorem Resumed.map_opId_callsOf {s s' : System ι} {index : Nat} {call call' : Call ι}
    (h : Resumed s s' index call call') (client : ι) :
    (s'.callsOf client).map Call.opId = (s.callsOf client).map Call.opId := by
  simpa [Function.comp_def] using
    congrArg (List.map Ticket.opId) (h.map_ticket_callsOf client)

/-- An update that keeps the tickets keeps a client's calls, position by
position. -/
theorem Resumed.callsOf_getElem? {s s' : System ι} {index : Nat}
    {call call' : Call ι} (h : Resumed s s' index call call') {client : ι} {k : Nat} {c : Call ι}
    (hc : (s'.callsOf client)[k]? = some c) :
    ∃ c₀, (s.callsOf client)[k]? = some c₀ ∧ c₀.ticket = c.ticket := by
  have hget : ((s'.callsOf client).map Call.ticket)[k]? = some c.ticket := by simp [hc]
  rw [h.map_ticket_callsOf, List.getElem?_map] at hget
  obtain ⟨c₀, hc₀, hticket⟩ := Option.map_eq_some_iff.mp hget
  exact ⟨c₀, hc₀, hticket⟩

theorem callsOf_of_calls_snoc {s s' : System ι} {call : Call ι}
    (hcalls : s'.calls = s.calls ++ [call]) (client : ι) :
    s'.callsOf client = s.callsOf client ++ if call.client = client then [call] else [] := by
  unfold System.callsOf
  rw [hcalls, List.filter_append]
  by_cases h : call.client = client <;> simp [h]

theorem rounds_of_calls_snoc {s s' : System ι} {call : Call ι}
    (hcalls : s'.calls = s.calls ++ [call]) (client : ι) :
    s'.rounds client = s.rounds client + if call.client = client then 1 else 0 := by
  unfold System.rounds
  rw [callsOf_of_calls_snoc hcalls]
  by_cases h : call.client = client <;> simp [h]

end CallsOf

/-! ### Lockstep -/

variable {n : Nat}

/-- A client enters only when its earlier calls have returned, and asks for as
many workers as there are clients. -/
def Rounds (n : Nat) (s : System (Fin n)) : Action (Fin n) → Prop
  | .enter client rpc => rpc.numWorkers = n ∧ s.Idle client
  | .resume _ => True

instance (s : System (Fin n)) : ∀ action, Decidable (Rounds n s action)
  | .enter client rpc => inferInstanceAs (Decidable (rpc.numWorkers = n ∧ s.Idle client))
  | .resume _ => inferInstanceAs (Decidable True)

/-- The clients that have joined the open operation. -/
def System.arrived (s : System (Fin n)) : Finset (Fin n) :=
  Finset.univ.filter fun client => s.rounds client = s.open + 1

structure Lockstep (s : System (Fin n)) : Prop where
  opIds : ∀ client, (s.callsOf client).map Call.opId = List.range (s.rounds client)
  rounds : ∀ client, s.rounds client = s.open ∨ s.rounds client = s.open + 1
  joined : s.joined s.open = s.arrived.card

/-- The `r`-th call of a client joined operation `r`. -/
theorem Lockstep.opId_eq {s : System (Fin n)} (hlock : Lockstep s) {client : Fin n} {r : Nat}
    {call : Call (Fin n)} (hcall : (s.callsOf client)[r]? = some call) : call.opId = r := by
  have hget : ((s.callsOf client).map Call.opId)[r]? = some call.opId := by simp [hcall]
  obtain ⟨hr, -⟩ := List.getElem?_eq_some_iff.mp hcall
  rw [hlock.opIds client, System.rounds, List.getElem?_range hr] at hget
  exact (Option.some.inj hget).symm

/-- An idle client has not joined the open operation. -/
theorem Lockstep.rounds_of_idle {s : System (Fin n)} (hlock : Lockstep s)
    (hcohorts : Cohorts (fun _ => true) n s) {client : Fin n} (hidle : s.Idle client) :
    s.rounds client = s.open := by
  rcases hlock.rounds client with h | h
  · exact h
  · exfalso
    have hmem : s.open ∈ (s.callsOf client).map Call.opId := by
      rw [hlock.opIds client, h]
      exact List.mem_range.mpr (Nat.lt_succ_self _)
    obtain ⟨call, hcall, hop⟩ := List.mem_map.mp hmem
    obtain ⟨hcall, hclient⟩ := System.mem_callsOf.mp hcall
    -- a call of the open operation has not returned
    have hpast := Call.isPast_of_hasReturned (hidle call hcall hclient)
    have := hcohorts.past call hcall rfl hpast
    omega

theorem Lockstep.resume {s s' : System (Fin n)} {index : Nat} {call call' : Call (Fin n)}
    (hlock : Lockstep s) (h : Resumed s s' index call call') : Lockstep s' where
  opIds client := by
    rw [h.map_opId_callsOf, h.rounds]
    exact hlock.opIds client
  rounds client := by
    rw [h.rounds, h.opened]
    exact hlock.rounds client
  joined := by
    rw [h.joined, h.opened, hlock.joined]
    simp only [System.arrived, h.rounds, h.opened]

theorem Lockstep.enter {s s' : System (Fin n)} {client : Fin n} {rpc : Rpc}
    (hlock : Lockstep s) (hinv : Inv s) (hcohorts : Cohorts (fun _ => true) n s)
    (hguard : Rounds n s (.enter client rpc)) (hmove : Move s (.enter client rpc) s') :
    Lockstep s' := by
  obtain ⟨hworkers, hidle⟩ := hguard
  obtain ⟨hcalls, -, hcases⟩ := hmove.entered
  have hclient := hlock.rounds_of_idle hcohorts hidle
  have hrounds (other : Fin n) :
      s'.rounds other = s.rounds other + if client = other then 1 else 0 :=
    rounds_of_calls_snoc hcalls other
  have hself : s'.rounds client = s.open + 1 := by rw [hrounds, if_pos rfl, hclient]
  have hother {other : Fin n} (hne : client ≠ other) : s'.rounds other = s.rounds other := by
    rw [hrounds, if_neg hne]
    rfl
  -- the clients that have joined the operation the call found open
  have hinsert : (Finset.univ.filter fun other => s'.rounds other = s.open + 1) =
      insert client s.arrived := by
    ext other
    by_cases hne : client = other
    · subst hne
      simp [hself]
    · simp [System.arrived, hother hne, Ne.symm hne]
  have hcard : (Finset.univ.filter fun other => s'.rounds other = s.open + 1).card =
      s.joined s.open + 1 := by
    rw [hinsert, Finset.card_insert_of_notMem, hlock.joined]
    simp [System.arrived, hclient]
  have hopIds : ∀ other, (s'.callsOf other).map Call.opId = List.range (s'.rounds other) := by
    intro other
    rw [callsOf_of_calls_snoc hcalls, List.map_append, hlock.opIds]
    by_cases hne : client = other
    · subst hne
      rw [System.newCall_client, if_pos rfl, hself, hclient, List.range_succ]
      rfl
    · rw [System.newCall_client, if_neg hne, hother hne]
      simp
  rcases hcases with ⟨hopen, hcount⟩ | ⟨hopen, hcount⟩
  · refine ⟨hopIds, ?_, ?_⟩
    · intro other
      rw [hopen]
      by_cases hne : client = other
      · subst hne
        exact Or.inr hself
      · rw [hother hne]
        exact hlock.rounds other
    · rw [joined_of_calls_snoc hcalls, hopen, System.arrived, hopen, hcard]
      simp [System.newCall]
  · -- the operation closes: every client has joined it
    have hall : ∀ other, s'.rounds other = s.open + 1 := by
      have huniv : (Finset.univ.filter fun other => s'.rounds other = s.open + 1) =
          Finset.univ := by
        rw [← Finset.card_eq_iff_eq_univ, hcard, Fintype.card_fin]
        have hle := Finset.card_le_univ
          (Finset.univ.filter fun other => s'.rounds other = s.open + 1)
        rw [hcard, Fintype.card_fin] at hle
        omega
      intro other
      have hmem : other ∈ Finset.univ.filter fun other => s'.rounds other = s.open + 1 := by
        rw [huniv]
        exact Finset.mem_univ other
      simpa using hmem
    refine ⟨hopIds, fun other => Or.inl (by rw [hall, hopen]), ?_⟩
    rw [joined_of_calls_snoc hcalls, hopen, hinv.joined_next]
    simp [System.newCall, System.arrived, hall, hopen]

theorem Lockstep.initial : Lockstep (⟨.initial, []⟩ : System (Fin n)) where
  opIds _ := rfl
  rounds _ := Or.inl rfl
  joined := by simp [System.joined, System.arrived, System.rounds, System.callsOf]

/-- In a run of rounds all calls ask for the same number of clients. -/
theorem Rounds.unmixed {s : System (Fin n)} {action : Action (Fin n)} (h : Rounds n s action) :
    Unmixed (fun _ => true) n s action := by
  cases action with
  | enter client rpc => exact ⟨fun _ => h.1, fun _ _ _ => rfl⟩
  | resume index => trivial

/-- **Lockstep.**  In every run of rounds, the clients' calls join the
operations in order. -/
theorem reachable_lockstep {guard : System (Fin n) → Action (Fin n) → Prop} (hn : 1 ≤ n)
    (hguard : ∀ s action, guard s action → Rounds n s action)
    {s : System (Fin n)} (hreach : (rendezvousMachine (Fin n)).Reachable guard s) :
    Cohorts (fun _ => true) n s ∧ Lockstep s := by
  have hunmixed : ∀ s action, guard s action → Unmixed (fun _ => true) n s action :=
    fun s action h => (hguard s action h).unmixed
  refine ⟨reachable_cohorts hn hunmixed hreach, hreach.induction Lockstep ?_ ?_⟩
  · rintro s rfl
    exact Lockstep.initial
  · intro s action t hbefore hlock hallowed hstep
    have hinv := reachable_inv hbefore
    have hmove := hinv.step_move hstep
    cases action with
    | enter client rpc =>
        exact hlock.enter hinv (reachable_cohorts hn hunmixed hbefore)
          (hguard s _ hallowed) hmove
    | resume index =>
        obtain ⟨call, call', h⟩ := hmove.resumed
        exact hlock.resume h

/-- Every client has entered its `r`-th call before anybody's `r`-th call is
past the rendezvous. -/
theorem Lockstep.rounds_of_past {s : System (Fin n)} (hlock : Lockstep s)
    (hcohorts : Cohorts (fun _ => true) n s) {client : Fin n} {r : Nat} {call : Call (Fin n)}
    (hcall : (s.callsOf client)[r]? = some call) (hpast : call.isPast = true)
    (other : Fin n) : r < s.rounds other := by
  have hmem := (System.mem_callsOf.mp (List.mem_of_getElem? hcall)).1
  have hclosed := hcohorts.past call hmem rfl hpast
  rw [hlock.opId_eq hcall] at hclosed
  rcases hlock.rounds other with h | h <;> omega

end Controller
end FlashReduce
