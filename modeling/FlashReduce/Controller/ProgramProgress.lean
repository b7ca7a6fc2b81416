import FlashReduce.Controller.BroadcastFailure
import FlashReduce.Controller.ProgramSessions
import Mathlib.Data.Finset.Max

/-!
# Programs do not get stuck

A program cannot get stuck, whatever the interleaving: as long as some worker has calls
left to make or to finish, some step is enabled (`Program.progress`).

The argument looks at the worker that has made the fewest calls.  If it is inside a
call, everybody else has made that call too, so the operation of the rendezvous is
closed, or the root of the `Broadcast` step has set the event (`Rung`).
-/

namespace FlashReduce
namespace Controller

open Library

/-! ### The root sets the event -/

namespace Broadcast

/-- The operation that the root of a call has joined has its event set. -/
def Rung (s : System) : Prop :=
  ∀ call ∈ s.calls, call.request.rank = call.request.root → ∀ op, call.joined = some op →
    s.state.eventFlags[op]? = some true

/-- The first locked section clears no flag. -/
theorem Section.flag_kept {request : Request} {es es' : List Entry} {flags flags' : List Bool}
    {result : Except PyError Outcome} (hsection : Section request es flags result es' flags')
    {op : Nat} (hop : flags[op]? = some true) : flags'[op]? = some true := by
  have hlt := (List.getElem?_eq_some_iff.mp hop).1
  cases hsection with
  | reject | wait | pick => exact hop
  | @fill idx e =>
      rcases eq_or_ne e.event op with hsame | hother
      · rw [hsame, List.getElem?_set_self hlt]
      · rw [List.getElem?_set_ne hother]
        exact hop
  | createFill | createRaise | createWait =>
      rw [List.getElem?_append_left hlt]
      exact hop

/-- The root's own section sets the flag of the operation that it joins. -/
theorem Section.flag_set {n : Nat} {request : Request} {l l' : Ledger}
    {result : Except PyError Outcome} {joined : Option Nat}
    (hsection : Section request l.entries l.flags result l'.entries l'.flags)
    (hinv : Inv n l) (hinv' : Inv n l') (hroot : request.rank = request.root)
    (hmem : (⟨request, joined, phaseOf result⟩ : Call) ∈ l'.calls) {op : Nat}
    (hjoined : joined = some op) : l'.flags[op]? = some true := by
  have herror := hinv'.no_error _ hmem
  have hposition := hinv'.positions _ hmem
  generalize hentries : l'.entries = es' at hsection hposition
  generalize hflags : l'.flags = flags' at hsection
  cases hsection with
  | reject => exact absurd rfl (herror .indexError)
  | createRaise => exact absurd rfl (herror .indexError)
  | wait _ _ _ hother => exact absurd hroot hother
  | pick _ _ _ hother => exact absurd hroot hother
  | createWait _ hother => exact absurd hroot hother
  | @fill idx e _ he _ _ =>
      obtain ⟨e', he', hop⟩ := hposition idx rfl
      have hidx := (List.getElem?_eq_some_iff.mp he).1
      rw [List.getElem?_set_self hidx] at he'
      cases he'
      have hevent : e.event = op := Option.some.inj (hop.symm.trans hjoined)
      have hcreated := hinv.created e (List.mem_of_mem_filter (List.mem_of_getElem? he))
      rw [← hevent, List.getElem?_set_self hcreated]
  | createFill =>
      obtain ⟨e', he', hop⟩ := hposition _ rfl
      rw [List.getElem?_concat_length] at he'
      cases he'
      have hevent : l.flags.length = op := Option.some.inj (hop.symm.trans hjoined)
      rw [← hevent, List.getElem?_concat_length]

theorem reachable_rung {n : Nat} {s : System}
    (hreach : machine.Reachable (fun s action => RankCalls n s action ∧ PositionsKept s action) s) :
    Rung s := by
  refine hreach.induction Rung ?_ ?_
  · rintro s rfl call hcall
    cases hcall
  · intro s action t hbefore hrung hguard hstep
    obtain ⟨l, rfl, hinv⟩ := reachable_inv hbefore
    obtain ⟨l', rfl, hinv'⟩ := reachable_inv (hbefore.step hguard hstep)
    obtain ⟨es', flags', hstate, hpiece⟩ := step_piece hstep
    obtain ⟨hentries, hflags⟩ := ofEntries_inj hstate
    generalize hcalls : l'.system.calls = calls' at hpiece
    intro call hcall hroot op hjoined
    rw [hcalls] at hcall
    show l'.flags[op]? = some true
    cases hpiece with
    | enter hsection =>
        rcases List.mem_append.mp hcall with hold | hnew
        · rw [hflags]
          exact hsection.flag_kept (hrung call hold hroot op hjoined)
        · rw [List.mem_singleton.mp hnew] at hroot hjoined
          rw [← hentries, ← hflags] at hsection
          refine hsection.flag_set hinv hinv' hroot ?_ hjoined
          rw [show l'.calls = _ from hcalls]
          exact List.mem_append_right _ (List.mem_singleton.mpr rfl)
    | wake hget | mark hget | gone hget | read hget | missing hget =>
        rw [hflags]
        rcases mem_set_cases hcall with rfl | hold
        · exact hrung _ (List.mem_of_getElem? hget) hroot op hjoined
        · exact hrung call hold hroot op hjoined

end Broadcast

/-! ### Somebody can go on -/

variable {n : Nat} {p : Program n} {s : Workers n}

theorem Ordered.rung {hn : 1 ≤ n} (h : Ordered p hn s) : Broadcast.Rung s.2 :=
  Broadcast.reachable_rung (h.scripted.weaken fun _ _ hguard => ⟨hguard.1.rankCalls, hguard.2⟩)

/-- When everybody has entered the rendezvous of a call, its operation is closed. -/
theorem Placed.released (h : Placed p s) (hlock : Lockstep s.1)
    (hcohorts : Cohorts (fun _ => true) n s.1) {call : Call (Fin n)} (hcall : call ∈ s.1.calls)
    {q : Nat} (hq : p.RendezvousAt s call q) (hall : ∀ other, q < made s other) :
    call.opId ≠ s.1.open := by
  intro hopen
  have hlt := hcohorts.open_lt call hcall rfl hopen
  have harrived : s.1.arrived = Finset.univ := by
    apply Finset.eq_univ_of_forall
    intro other
    obtain ⟨step, hget, hkind⟩ := hq.isRendezvous
    have hop := hq.op
    have hpassed := p.rendezvous_lt hget hkind (hall other)
    have hrounds := h.rounds other
    simp only [System.arrived, Finset.mem_filter, Finset.mem_univ, true_and]
    rcases hlock.rounds other with hbefore | hafter
    · omega
    · exact hafter
  rw [hlock.joined, harrived, Finset.card_univ, Fintype.card_fin] at hlt
  exact absurd hlt (Nat.lt_irrefl n)

/-- When everybody has made the `Broadcast` call of a step, its event is set. -/
theorem Ordered.filled {hn : 1 ≤ n} (h : Ordered p hn s) {call : Broadcast.Call} {rank : Fin n}
    {q : Nat} (hq : p.BroadcastAt s call rank q) (hall : ∀ other, q < made s other) :
    s.2.state.eventFlags[p.broadcastsBefore q]? = some true := by
  obtain ⟨step, hget, hrequest⟩ := Option.bind_eq_some_iff.mp hq.step
  obtain ⟨hkind, root, value, rfl, -⟩ := Collective.requestOf_eq_some hrequest
  -- the root's call of the step
  have hindex : p.broadcastsBefore q < (s.2.callsOf root).length := by
    rw [h.placed.broadcasts root]
    have hsucc := p.broadcastsBefore_succ hget
    have hmono := (p.broadcastsBefore_mono (show q + 1 ≤ made s root from hall root)).1
    rw [hkind, if_pos rfl] at hsucc
    omega
  have hcall := List.getElem?_eq_getElem hindex
  generalize (s.2.callsOf root)[p.broadcastsBefore q] = rootCall at hcall
  obtain ⟨hmem, hcaller⟩ := List.mem_filter.mp (List.mem_of_getElem? hcall)
  have hcaller : rootCall.request.rank = root := by simpa using hcaller
  obtain ⟨l, hl, hinv, -⟩ := Broadcast.reachable_valued h.scripted
  have hjoined := Broadcast.joined_of_getElem? hinv (by rw [← hl]; exact hcall)
  refine h.rung rootCall hmem ?_ _ hjoined
  -- it is the call of the same step, so it names the same root
  obtain ⟨rank', q', hq'⟩ := h.placed.broadcast rootCall hmem
  obtain ⟨step', hget', hrequest'⟩ := Option.bind_eq_some_iff.mp hq'.step
  obtain ⟨hkind', root', value', rfl, hrootRequest⟩ := Collective.requestOf_eq_some hrequest'
  have hfound := p.broadcastSteps_getElem? hget hkind
  have hfound' := p.broadcastSteps_getElem? hget' hkind'
  have hop : p.broadcastsBefore q' = p.broadcastsBefore q :=
    Option.some.inj (hq'.op.symm.trans hjoined)
  rw [hop, hfound] at hfound'
  cases hfound'
  rw [hcaller, hrootRequest]

/-- The worker that has made the fewest calls can go on with its call. -/
theorem Program.least_moves (hn : 1 ≤ n) (hsessions : p.Sessions)
    (hreach : (workersMachine n).Reachable p.Follows s) {client : Fin n}
    (hleast : ∀ other, made s client ≤ made s other) (hbusy : ¬ Free s client) :
    ∃ index, step s.1 (.resume index) ≠ none ∨ Broadcast.step s.2 (.resume index) ≠ none := by
  by_contra hstuck
  push Not at hstuck
  have hordered := p.ordered hn hreach
  obtain ⟨hcohorts, hlock⟩ := p.lockstep hn hreach
  have hinv := reachable_inv
    (Machine.Reachable.left (fun _ _ h => Program.Follows.rounds h) hreach)
  rcases not_and_or.mp hbusy with hrendezvous | hbroadcast
  · unfold System.Idle at hrendezvous
    push Not at hrendezvous
    obtain ⟨call, hcall, hclient, hrunning⟩ := hrendezvous
    have hrunning : call.hasReturned = false := Bool.eq_false_iff.mpr hrunning
    have hunfinished : call.isFinished = false := by
      have herror := (p.settles hn hsessions hreach call hcall).1
      unfold Call.hasReturned at hrunning
      unfold Call.isFinished
      cases hphase : call.phase <;> simp_all
    obtain ⟨event, hphase, hunset⟩ :=
      waiting_of_disabled (fun index => (hstuck index).1) hcall hunfinished
    obtain ⟨q, hq⟩ := hordered.placed.rendezvous call hcall
    have hlast := hq.last hrunning
    refine hordered.placed.released hlock hcohorts hcall hq (fun other => ?_)
      (hinv.open_of_waiting hcall hphase hunset)
    have hle := hleast other
    rw [hclient] at hlast
    omega
  · unfold Broadcast.System.Idle at hbroadcast
    push Not at hbroadcast
    obtain ⟨call, hcall, hclient, hrunning⟩ := hbroadcast
    have hrunning : call.hasReturned = false := Bool.eq_false_iff.mpr hrunning
    obtain ⟨l, hl, hledger, -⟩ := Broadcast.reachable_valued hordered.scripted
    have hmem : call ∈ l.calls := by
      rw [hl] at hcall
      exact hcall
    have hunfinished : call.isFinished = false := by
      have herror := hledger.no_error call hmem
      unfold Broadcast.Call.hasReturned at hrunning
      unfold Broadcast.Call.isFinished
      cases hphase : call.phase <;> simp_all
    obtain ⟨idx, event, hphase, hunset⟩ :=
      Broadcast.waiting_of_disabled (fun index => (hstuck index).2) hcall hunfinished
    obtain ⟨rank, q, hq⟩ := hordered.placed.broadcast call hcall
    have hlast := hq.last hrunning
    have hrank : rank = client := Fin.ext (hq.caller.symm.trans hclient)
    have hevent : p.broadcastsBefore q = event :=
      Option.some.inj (hq.op.symm.trans (hledger.waits call hmem idx event hphase))
    rw [← hevent] at hunset
    refine hunset (hordered.filled hq fun other => ?_)
    have hle := hleast other
    rw [hrank] at hlast
    omega

/-- Every worker has made and finished all calls of the program. -/
def Program.Complete (p : Program n) (s : Workers n) : Prop :=
  ∀ client, made s client = p.steps.length ∧ Free s client

/-- A worker that is free and has calls left may make the next one. -/
theorem Program.free_moves {client : Fin n} (hfree : Free s client)
    (hlt : made s client < p.steps.length) :
    ∃ action t, p.Follows s action ∧ (workersMachine n).step s action = some t := by
  have hget := List.getElem?_eq_getElem hlt
  cases hstep : p.steps[made s client] with
  | rendezvous rpc =>
      rw [hstep] at hget
      refine ⟨.inl (.enter client (rpc client)), _, ⟨hfree, ?_⟩, rfl⟩
      rw [hget]
      rfl
  | broadcast root value =>
      rw [hstep] at hget
      refine ⟨.inr (.enter ⟨value client, client, n, root⟩), _, ⟨client.isLt, hfree, ?_⟩, rfl⟩
      show p.steps[made s client]?.bind (Collective.requestOf client) = _
      rw [hget]
      rfl

/-- **Nobody is stuck**: some step is enabled until all workers have completed the
program. -/
theorem Program.progress (hn : 1 ≤ n) (hsessions : p.Sessions)
    (hreach : (workersMachine n).Reachable p.Follows s) :
    p.Complete s ∨ ∃ action t, p.Follows s action ∧ (workersMachine n).step s action = some t := by
  by_cases hbusy : ∃ client, (∀ other, made s client ≤ made s other) ∧ ¬ Free s client
  · obtain ⟨client, hleast, hnot⟩ := hbusy
    refine .inr ?_
    obtain ⟨index, hmoves | hmoves⟩ := p.least_moves hn hsessions hreach hleast hnot
    · obtain ⟨t, ht⟩ := Option.ne_none_iff_exists'.mp hmoves
      exact ⟨.inl (.resume index), (t, s.2), trivial, Machine.product_inl.mpr ⟨ht, rfl⟩⟩
    · obtain ⟨t, ht⟩ := Option.ne_none_iff_exists'.mp hmoves
      exact ⟨.inr (.resume index), (s.1, t), trivial, Machine.product_inr.mpr ⟨ht, rfl⟩⟩
  · push Not at hbusy
    obtain ⟨least, -, hleast⟩ := Finset.exists_min_image Finset.univ (made s)
      ⟨⟨0, hn⟩, Finset.mem_univ _⟩
    have hfree := hbusy least fun other => hleast other (Finset.mem_univ _)
    have hplaced := (p.ordered hn hreach).placed
    rcases Nat.lt_or_eq_of_le (hplaced.made_le least) with hlt | hdone
    · exact .inr (p.free_moves hfree hlt)
    · -- the worker that has made the fewest calls has made all of them
      left
      intro client
      have hmade : made s client = p.steps.length :=
        Nat.le_antisymm (hplaced.made_le client)
          (hdone ▸ hleast client (Finset.mem_univ _))
      refine ⟨hmade, hbusy client fun other => ?_⟩
      rw [hmade, ← hdone]
      exact hleast other (Finset.mem_univ _)

end Controller
end FlashReduce
