import FlashReduce.Controller.Program

/-!
# Calls in their places

In a run of a program every call sits at one position of it: a worker's calls take
the positions of the program in order, the calls of the rendezvous join the
operations in the order of the rendezvous steps, and the `Broadcast` calls join the
operations in the order of the `Broadcast` steps.  Only the last call of a worker
may be in progress.

`Placed.barrier` is what a rendezvous step gives: when a worker has left it, every
worker has entered it.  Since the step before a `Broadcast` step is a rendezvous,
a worker that is about to make a `Broadcast` call knows that every worker has come
at least as far (`Placed.everyone_at`).
-/

namespace FlashReduce
namespace Controller

open Library

variable {n : Nat}

/-! ### Positions of calls -/

/-- The call of the rendezvous is the one at position `q` of the program. -/
structure Program.RendezvousAt (p : Program n) (s : Workers n) (call : Call (Fin n)) (q : Nat) :
    Prop where
  step : p.steps[q]?.bind (Collective.rpcOf call.client) = some call.rpc
  made : q < made s call.client
  op : call.opId + p.broadcastsBefore q = q
  last : call.hasReturned = false → Controller.made s call.client = q + 1

/-- The `Broadcast` call of `rank` is the one at position `q` of the program. -/
structure Program.BroadcastAt (p : Program n) (s : Workers n) (call : Broadcast.Call)
    (rank : Fin n) (q : Nat) : Prop where
  caller : call.request.rank = rank
  step : p.steps[q]?.bind (Collective.requestOf rank) = some call.request
  made : q < made s rank
  op : call.joined = some (p.broadcastsBefore q)
  last : call.hasReturned = false → Controller.made s rank = q + 1

/-- Every call is in its place. -/
structure Placed (p : Program n) (s : Workers n) : Prop where
  made_le : ∀ client, made s client ≤ p.steps.length
  broadcasts : ∀ client : Fin n, (s.2.callsOf client).length = p.broadcastsBefore (made s client)
  rendezvous : ∀ call ∈ s.1.calls, ∃ q, p.RendezvousAt s call q
  broadcast : ∀ call ∈ s.2.calls, ∃ rank q, p.BroadcastAt s call rank q

variable {p : Program n} {s s' : Workers n}

theorem Program.RendezvousAt.isRendezvous {call : Call (Fin n)} {q : Nat}
    (h : p.RendezvousAt s call q) : ∃ step, p.steps[q]? = some step ∧ step.isBroadcast = false := by
  obtain ⟨step, hget, hrpc⟩ := Option.bind_eq_some_iff.mp h.step
  exact ⟨step, hget, (Collective.rpcOf_eq_some hrpc).1⟩

theorem Program.BroadcastAt.isBroadcast {call : Broadcast.Call} {rank : Fin n} {q : Nat}
    (h : p.BroadcastAt s call rank q) :
    ∃ step, p.steps[q]? = some step ∧ step.isBroadcast = true := by
  obtain ⟨step, hget, hrequest⟩ := Option.bind_eq_some_iff.mp h.step
  exact ⟨step, hget, (Collective.requestOf_eq_some hrequest).1⟩

/-- A call stays in its place while its worker goes on, as long as the worker does not go on
without it. -/
theorem Program.RendezvousAt.keep {call : Call (Fin n)} {q : Nat} (h : p.RendezvousAt s call q)
    (hle : Controller.made s call.client ≤ Controller.made s' call.client)
    (hlast : call.hasReturned = false →
      Controller.made s' call.client = Controller.made s call.client) :
    p.RendezvousAt s' call q :=
  ⟨h.step, Nat.lt_of_lt_of_le h.made hle, h.op, fun hrun => (hlast hrun).trans (h.last hrun)⟩

theorem Program.BroadcastAt.keep {call : Broadcast.Call} {rank : Fin n} {q : Nat}
    (h : p.BroadcastAt s call rank q)
    (hle : Controller.made s rank ≤ Controller.made s' rank)
    (hlast : call.hasReturned = false → Controller.made s' rank = Controller.made s rank) :
    p.BroadcastAt s' call rank q :=
  ⟨h.caller, h.step, Nat.lt_of_lt_of_le h.made hle, h.op,
    fun hrun => (hlast hrun).trans (h.last hrun)⟩

/-! ### How many calls are made -/

theorem made_enterRendezvous {call : Call (Fin n)} (hcalls : s'.1.calls = s.1.calls ++ [call])
    (hsame : s'.2 = s.2) (other : Fin n) :
    made s' other = made s other + if call.client = other then 1 else 0 := by
  unfold made
  rw [hsame, rounds_of_calls_snoc hcalls]
  omega

theorem made_resumeRendezvous {index : Nat} {call call' : Call (Fin n)}
    (hresumed : Resumed s.1 s'.1 index call call') (hsame : s'.2 = s.2) (other : Fin n) :
    made s' other = made s other := by
  unfold made
  rw [hsame, hresumed.rounds]

theorem made_enterBroadcast {call : Broadcast.Call} {client : Fin n}
    (hcaller : call.request.rank = client) (hcalls : s'.2.calls = s.2.calls ++ [call])
    (hsame : s'.1 = s.1) (other : Fin n) :
    made s' other = made s other + if client = other then 1 else 0 := by
  unfold made
  rw [hsame, Broadcast.length_callsOf_snoc hcalls, hcaller]
  simp only [Fin.ext_iff]
  omega

theorem made_resumeBroadcast {index : Nat} {call : Broadcast.Call} {phase : Broadcast.Phase}
    (hcall : s.2.calls[index]? = some call)
    (hcalls : s'.2.calls = s.2.calls.set index { call with phase := phase })
    (hsame : s'.1 = s.1) (other : Fin n) : made s' other = made s other := by
  unfold made
  rw [hsame, Broadcast.length_callsOf_set hcall hcalls]

/-! ### Steps -/

theorem Placed.initial : Placed p ((⟨.initial, []⟩, ⟨.initial, []⟩) : Workers n) where
  made_le _ := Nat.zero_le _
  broadcasts _ := rfl
  rendezvous _ hcall := absurd hcall List.not_mem_nil
  broadcast _ hcall := absurd hcall List.not_mem_nil

/-- The calls of the rendezvous that a worker has made are as many as the rendezvous steps it
has passed. -/
theorem Placed.rounds (h : Placed p s) (client : Fin n) :
    s.1.rounds client + p.broadcastsBefore (made s client) = made s client := by
  rw [← h.broadcasts client]
  rfl

theorem Placed.made_le_advance (h : Placed p s) {client : Fin n}
    (hlt : made s client < p.steps.length)
    (hmade : ∀ other, made s' other = made s other + if client = other then 1 else 0)
    (other : Fin n) : made s' other ≤ p.steps.length := by
  rw [hmade]
  have hle := h.made_le other
  by_cases hother : client = other
  · subst hother
    rw [if_pos rfl]
    omega
  · rw [if_neg hother]
    omega

/-- A worker has made one more call, and all calls before it are over. -/
theorem Placed.advance (h : Placed p s) {client : Fin n} (hfree : Free s client)
    (hmade : ∀ other, made s' other = made s other + if client = other then 1 else 0) :
    (∀ call ∈ s.1.calls, ∃ q, p.RendezvousAt s' call q) ∧
      (∀ call ∈ s.2.calls, ∃ rank q, p.BroadcastAt s' call rank q) := by
  refine ⟨fun call hcall => ?_, fun call hcall => ?_⟩
  · obtain ⟨q, hq⟩ := h.rendezvous call hcall
    refine ⟨q, hq.keep (by rw [hmade]; omega) (fun hrun => ?_)⟩
    rw [hmade, if_neg, Nat.add_zero]
    intro hsame
    rw [hfree.1 call hcall hsame.symm] at hrun
    cases hrun
  · obtain ⟨rank, q, hq⟩ := h.broadcast call hcall
    refine ⟨rank, q, hq.keep (by rw [hmade]; omega) (fun hrun => ?_)⟩
    rw [hmade, if_neg, Nat.add_zero]
    intro hsame
    rw [hfree.2 call hcall (hq.caller.trans (congrArg Fin.val hsame.symm))] at hrun
    cases hrun

theorem Placed.enterRendezvous (h : Placed p s) (hlock : Lockstep s.1)
    (hcohorts : Cohorts (fun _ => true) n s.1) {client : Fin n} {rpc : Rpc}
    (hguard : p.Follows s (.inl (.enter client rpc))) (hmove : Move s.1 (.enter client rpc) s'.1)
    (hsame : s'.2 = s.2) : Placed p s' := by
  obtain ⟨hfree, hstep⟩ := hguard
  obtain ⟨hcalls, -, -⟩ := hmove.entered
  have hmade (other : Fin n) : made s' other = made s other + if client = other then 1 else 0 :=
    made_enterRendezvous hcalls hsame other
  obtain ⟨step, hget, hrpc⟩ := Option.bind_eq_some_iff.mp hstep
  have hlt := (List.getElem?_eq_some_iff.mp hget).1
  obtain ⟨holdRendezvous, holdBroadcast⟩ := h.advance hfree hmade
  refine ⟨fun other => ?_, fun other => ?_, ?_, ?_⟩
  · exact h.made_le_advance hlt hmade other
  · rw [hsame, h.broadcasts, hmade]
    by_cases hother : client = other
    · subst hother
      rw [if_pos rfl, p.broadcastsBefore_succ hget, (Collective.rpcOf_eq_some hrpc).1]
      simp
    · rw [if_neg hother, Nat.add_zero]
  · rw [hcalls]
    refine forall_mem_snoc holdRendezvous ⟨made s client, hstep, ?_, ?_, fun _ => ?_⟩
    · rw [System.newCall_client, hmade, if_pos rfl]
      exact Nat.lt_succ_self _
    · have hrounds := h.rounds client
      rw [hlock.rounds_of_idle hcohorts hfree.1] at hrounds
      exact hrounds
    · rw [System.newCall_client, hmade, if_pos rfl]
  · rw [hsame]
    exact holdBroadcast

theorem Placed.resumeRendezvous (h : Placed p s) {index : Nat} {call call' : Call (Fin n)}
    (hresumed : Resumed s.1 s'.1 index call call') (hsame : s'.2 = s.2) : Placed p s' := by
  have hmade := made_resumeRendezvous hresumed hsame
  refine ⟨fun other => ?_, fun other => ?_, ?_, ?_⟩
  · rw [hmade]
    exact h.made_le other
  · rw [hsame, hmade]
    exact h.broadcasts other
  · rw [hresumed.calls]
    refine forall_mem_set (fun c hc => ?_) ?_
    · obtain ⟨q, hq⟩ := h.rendezvous c hc
      exact ⟨q, hq.keep (by rw [hmade]) (fun _ => hmade _)⟩
    · obtain ⟨q, hq⟩ := h.rendezvous call hresumed.mem
      have hlast := hq.last hresumed.unfinished
      refine ⟨q, ?_, ?_, ?_, fun _ => ?_⟩
      · rw [hresumed.client_eq, hresumed.rpc_eq]
        exact hq.step
      · rw [hresumed.client_eq, hmade]
        exact hq.made
      · rw [hresumed.opId_eq]
        exact hq.op
      · rw [hresumed.client_eq, hmade]
        exact hlast
  · rw [hsame]
    intro c hc
    obtain ⟨rank, q, hq⟩ := h.broadcast c hc
    exact ⟨rank, q, hq.keep (by rw [hmade]) (fun _ => hmade _)⟩

theorem Placed.enterBroadcast (h : Placed p s) {request : Broadcast.Request}
    {call : Broadcast.Call} (hguard : p.Follows s (.inr (.enter request)))
    (hrequest : call.request = request) (hcalls : s'.2.calls = s.2.calls ++ [call])
    (hjoined : call.joined = some (s.2.callsOf request.rank).length) (hsame : s'.1 = s.1) :
    Placed p s' := by
  obtain ⟨hrank, hfree, hstep⟩ := hguard
  obtain ⟨client, hclient⟩ : ∃ client : Fin n, client = ⟨request.rank, hrank⟩ := ⟨_, rfl⟩
  rw [← hclient] at hfree hstep
  have hcaller : call.request.rank = client := by rw [hrequest, hclient]
  have hmade := made_enterBroadcast hcaller hcalls hsame
  obtain ⟨step, hget, hrequestOf⟩ := Option.bind_eq_some_iff.mp hstep
  have hlt := (List.getElem?_eq_some_iff.mp hget).1
  obtain ⟨holdRendezvous, holdBroadcast⟩ := h.advance hfree hmade
  refine ⟨fun other => ?_, fun other => ?_, ?_, ?_⟩
  · exact h.made_le_advance hlt hmade other
  · rw [Broadcast.length_callsOf_snoc hcalls, h.broadcasts, hmade, hcaller]
    by_cases hother : client = other
    · subst hother
      rw [if_pos rfl, if_pos rfl, p.broadcastsBefore_succ hget,
        (Collective.requestOf_eq_some hrequestOf).1, if_pos rfl]
    · rw [if_neg hother, if_neg (fun heq => hother (Fin.ext heq))]
      rfl
  · rw [hsame]
    exact holdRendezvous
  · rw [hcalls]
    refine forall_mem_snoc holdBroadcast ⟨client, made s client, hcaller, ?_, ?_, ?_, fun _ => ?_⟩
    · rw [hrequest]
      exact hstep
    · rw [hmade, if_pos rfl]
      exact Nat.lt_succ_self _
    · rw [hjoined, ← h.broadcasts client, hclient]
    · rw [hmade, if_pos rfl]

theorem Placed.resumeBroadcast (h : Placed p s) {index : Nat} {call : Broadcast.Call}
    {phase : Broadcast.Phase} (hcall : s.2.calls[index]? = some call)
    (hrunning : call.isFinished = false)
    (hcalls : s'.2.calls = s.2.calls.set index { call with phase := phase })
    (hsame : s'.1 = s.1) : Placed p s' := by
  have hmade := made_resumeBroadcast hcall hcalls hsame
  refine ⟨fun other => ?_, fun other => ?_, ?_, ?_⟩
  · rw [hmade]
    exact h.made_le other
  · rw [Broadcast.length_callsOf_set hcall hcalls, hmade]
    exact h.broadcasts other
  · rw [hsame]
    intro c hc
    obtain ⟨q, hq⟩ := h.rendezvous c hc
    exact ⟨q, hq.keep (by rw [hmade]) (fun _ => hmade _)⟩
  · rw [hcalls]
    refine forall_mem_set (fun c hc => ?_) ?_
    · obtain ⟨rank, q, hq⟩ := h.broadcast c hc
      exact ⟨rank, q, hq.keep (by rw [hmade]) (fun _ => hmade _)⟩
    · obtain ⟨rank, q, hq⟩ := h.broadcast call (List.mem_of_getElem? hcall)
      have hlast := hq.last (Broadcast.Call.hasReturned_of_unfinished hrunning)
      refine ⟨rank, q, hq.caller, hq.step, ?_, hq.op, fun _ => ?_⟩
      · rw [hmade]
        exact hq.made
      · rw [hmade]
        exact hlast

/-! ### What a rendezvous step gives -/

/-- A worker that has left the rendezvous at position `q` knows that every worker has entered
it. -/
theorem Placed.barrier (h : Placed p s) (hlock : Lockstep s.1)
    (hcohorts : Cohorts (fun _ => true) n s.1) {client : Fin n} {q : Nat} {step : Collective n}
    (hget : p.steps[q]? = some step) (hkind : step.isBroadcast = false) (hlt : q < made s client)
    (hleft : made s client = q + 1 → Free s client) (other : Fin n) : q < made s other := by
  have hrounds := h.rounds client
  have hpassed := p.rendezvous_lt hget hkind hlt
  have hle := p.broadcastsBefore_le q
  -- the call that the worker made at position `q`
  have hindex : q - p.broadcastsBefore q < (s.1.callsOf client).length := by
    unfold System.rounds at hrounds
    omega
  have hcall := List.getElem?_eq_getElem hindex
  generalize (s.1.callsOf client)[q - p.broadcastsBefore q] = call at hcall
  obtain ⟨hmem, hclient⟩ := System.mem_callsOf.mp (List.mem_of_getElem? hcall)
  have hop := hlock.opId_eq hcall
  obtain ⟨q', hq'⟩ := h.rendezvous call hmem
  obtain ⟨step', hget', hkind'⟩ := hq'.isRendezvous
  have hop' := hq'.op
  obtain rfl : q' = q := p.rendezvous_unique hget' hkind' hget hkind (by omega)
  have hreturned : call.hasReturned = true := by
    by_contra hrunning
    have hrunning := Bool.eq_false_iff.mpr hrunning
    have hlast := hq'.last hrunning
    rw [hclient] at hlast
    have hreturned := (hleft hlast).1 call hmem hclient
    rw [hreturned] at hrunning
    cases hrunning
  have hentered := hlock.rounds_of_past hcohorts hcall (Call.isPast_of_hasReturned hreturned) other
  -- the rendezvous steps are counted by the positions
  by_contra hnot
  have hmono := p.broadcastsBefore_mono (Nat.le_of_not_lt hnot)
  have hrounds' := h.rounds other
  omega

/-- When a call has left the rendezvous, the calls of its step are those of all workers. -/
theorem Placed.peers (h : Placed p s) (hlock : Lockstep s.1)
    (hcohorts : Cohorts (fun _ => true) n s.1) {call : Call (Fin n)} (hcall : call ∈ s.1.calls)
    (hpast : call.isPast = true) {q : Nat} (hq : p.RendezvousAt s call q) (other : Fin n) :
    ∃ peer ∈ s.1.calls, peer.client = other ∧ p.RendezvousAt s peer q := by
  have hclosed := hcohorts.past call hcall rfl hpast
  have hindex : call.opId < (s.1.callsOf other).length := by
    rcases hlock.rounds other with hrounds | hrounds <;>
      unfold System.rounds at hrounds <;> omega
  have hget := List.getElem?_eq_getElem hindex
  generalize (s.1.callsOf other)[call.opId] = peer at hget
  obtain ⟨hmem, hclient⟩ := System.mem_callsOf.mp (List.mem_of_getElem? hget)
  obtain ⟨q', hq'⟩ := h.rendezvous peer hmem
  obtain ⟨step, hstep, hkind⟩ := hq.isRendezvous
  obtain ⟨step', hstep', hkind'⟩ := hq'.isRendezvous
  have hop := hq.op
  have hop' := hq'.op
  rw [hlock.opId_eq hget] at hop'
  obtain rfl : q' = q := p.rendezvous_unique hstep' hkind' hstep hkind (by omega)
  exact ⟨peer, hmem, hclient, hq'⟩

/-- A worker that is about to call `Broadcast` knows that every worker has come as far. -/
theorem Placed.everyone_at (h : Placed p s) (hlock : Lockstep s.1)
    (hcohorts : Cohorts (fun _ => true) n s.1) {client : Fin n} {step : Collective n}
    (hfree : Free s client) (hget : p.steps[made s client]? = some step)
    (hkind : step.isBroadcast = true) (other : Fin n) : made s client ≤ made s other := by
  cases hmade : made s client with
  | zero => exact Nat.zero_le _
  | succ q =>
      rw [hmade] at hget
      obtain ⟨before, hbefore, hrendezvous⟩ := p.rendezvous_before hget hkind
      exact h.barrier hlock hcohorts hbefore hrendezvous (by omega) (fun _ => hfree) other

/-- Then the `Broadcast` calls of earlier steps are over. -/
theorem Placed.settled (h : Placed p s) (hlock : Lockstep s.1)
    (hcohorts : Cohorts (fun _ => true) n s.1) {client : Fin n} {step : Collective n}
    (hfree : Free s client) (hget : p.steps[made s client]? = some step)
    (hkind : step.isBroadcast = true) {call : Broadcast.Call} (hcall : call ∈ s.2.calls)
    {op : Nat} (hjoined : call.joined = some op) (hlt : op < p.broadcastsBefore (made s client)) :
    call.hasReturned = true := by
  by_contra hrunning
  obtain ⟨rank, q, hq⟩ := h.broadcast call hcall
  have hlast := hq.last (Bool.eq_false_iff.mpr hrunning)
  have heveryone := h.everyone_at hlock hcohorts hfree hget hkind rank
  obtain ⟨step', hget', hkind'⟩ := hq.isBroadcast
  have hop : p.broadcastsBefore q = op := Option.some.inj (hq.op.symm.trans hjoined)
  -- the step of the call is the one before the worker's next step, or that step itself
  rcases Nat.lt_or_ge q (made s client) with hbefore | hafter
  · have hadjacent : made s client = q + 1 := by omega
    rw [hadjacent] at hget
    obtain ⟨before, hbefore', hrendezvous⟩ := p.rendezvous_before hget hkind
    cases hget'.symm.trans hbefore'
    rw [hkind'] at hrendezvous
    cases hrendezvous
  · have := (p.broadcastsBefore_mono hafter).1
    omega

end Controller
end FlashReduce
