import FlashReduce.Controller.Placement
import FlashReduce.Controller.BroadcastAlignment

/-!
# Broadcast between rendezvous

In a program two `Broadcast` steps never follow each other directly, and that is
enough for every interleaving of the workers: when a worker starts a `Broadcast`
call, the calls of the earlier `Broadcast` steps are over, so the cleanup loop finds
nothing to remove but finished operations that nobody holds a position of.  The
lists never hold more than one operation, every position held is `0`, and the
condition under which the handler is correct (`PositionsKept`) holds by itself.

`program_broadcast_agreement` is the result: no call raises, the saved positions
stay valid, and each call returns what the root of its step passed.
-/

namespace FlashReduce
namespace Controller

open Library

variable {n : Nat}

/-! ### A rank that comes after all earlier calls -/

namespace Broadcast

/-- What is known of a worker that is about to call `Broadcast`, in the ledger of the
component. -/
structure Entering (calls : List Call) (n rank : Nat) : Prop where
  settled : ∀ call ∈ calls, ∀ op, call.joined = some op → op < (joinedOps calls rank).length →
    call.hasReturned = true
  everyone : ∀ other < n, (joinedOps calls rank).length ≤ (joinedOps calls other).length

/-- The one operation that a call holds a position of has not served the rank that enters. -/
theorem Entering.kept {l : Ledger} {rank : Nat} (h : Entering l.calls n rank)
    (hinv : Inv n l) (hsingle : l.entries.length ≤ 1) (hrank : rank < n)
    (hidle : l.Idle rank) : Kept l.entries l.calls := by
  intro call hcall idx hidx e he
  obtain ⟨held, hheld, hjoined⟩ := hinv.positions call hcall idx hidx
  obtain ⟨i, hi⟩ := List.mem_iff_getElem?.mp (List.mem_of_mem_take he)
  have hidxlt := (List.getElem?_eq_some_iff.mp hheld).1
  have hilt := (List.getElem?_eq_some_iff.mp hi).1
  have hsame : held = e := by
    have hpos : i = idx := by omega
    rw [hpos, hheld] at hi
    exact Option.some.inj hi
  subst hsame
  suffices hunserved : held.unserved rank = true from Entry.isOpen_of_unserved hunserved
  rw [hinv.unserved_iff (List.mem_of_getElem? hi) hrank, hinv.hasServed_of_idle hidle]
  intro hlt
  have hreturned := h.settled call hcall _ hjoined hlt
  unfold Call.hasReturned at hreturned
  unfold Call.position at hidx
  cases hphase : call.phase <;> simp_all

/-- The `k`-th call of a rank joined operation `k`. -/
theorem joined_of_getElem? {l : Ledger} (hinv : Inv n l) {rank k : Nat} {call : Call}
    (hcall : (l.system.callsOf rank)[k]? = some call) : call.joined = some k := by
  have hops : (joinedOps l.calls rank)[k]? = some call.joined := by
    rw [joinedOps, List.getElem?_map]
    exact congrArg (Option.map Call.joined) hcall
  rw [hinv.numbered] at hops
  obtain ⟨op, hop, hsome⟩ := Option.map_eq_some_iff.mp ((List.getElem?_map ..).symm.trans hops)
  obtain ⟨hlt, hget⟩ := List.getElem?_eq_some_iff.mp hop
  rw [List.getElem_range] at hget
  rw [← hsome, ← hget]

/-- The condition on operations, in terms of the positions. -/
theorem positionsKept_of_kept {l : Ledger} {request : Request} (h : Kept l.entries l.calls) :
    PositionsKept l.system (.enter request) := by
  intro call hcall
  unfold Call.keeps
  cases hidx : call.position with
  | none => rfl
  | some idx =>
      simp only [Ledger.system, ofEntries_bitmap, List.all_eq_true, ← List.map_take]
      intro row hrow
      obtain ⟨e, he, rfl⟩ := List.mem_map.mp hrow
      exact h call hcall idx hidx e he

/-- An operation of an earlier step has served everybody. -/
theorem Entering.closed {l : Ledger} {rank : Nat} (h : Entering l.calls n rank)
    (hinv : Inv n l) {e : Entry} (he : e ∈ l.entries)
    (hlt : e.event < (joinedOps l.calls rank).length) : e.isOpen = false := by
  rw [Entry.isOpen, Bool.not_eq_false', List.all_eq_true]
  intro bit hbit
  obtain ⟨other, hother⟩ := List.mem_iff_getElem?.mp hbit
  have hn : other < n := by
    rw [← hinv.rows e he]
    exact (List.getElem?_eq_some_iff.mp hother).1
  have hin : some e.event ∈ joinedOps l.calls other := by
    rw [hinv.numbered]
    have := h.everyone other hn
    simp only [List.mem_map, List.mem_range, Option.some.injEq, exists_eq_right]
    omega
  obtain ⟨call, hmem, hjoined⟩ := List.mem_map.mp hin
  obtain ⟨hcall, hcaller⟩ := List.mem_filter.mp hmem
  have hreturned := h.settled call hcall e.event hjoined hlt
  have hserved : call.isServed = true := by
    unfold Call.hasReturned at hreturned
    unfold Broadcast.Call.isServed
    cases hphase : call.phase <;> simp_all
  have hmarked := (hinv.marked e he other hn).mpr
    ⟨call, hcall, by simpa using hcaller, hjoined, hserved⟩
  rw [hmarked] at hother
  exact (Option.some.inj hother).symm

/-- When the search finds nothing, the cleanup has emptied the lists. -/
theorem Entering.single {l : Ledger} {request : Request} (h : Entering l.calls n request.rank)
    (hinv : Inv n l) (hsingle : l.entries.length ≤ 1) (hrank : request.rank < n)
    (hidle : l.Idle request.rank) {result : Except PyError Outcome} {es' : List Entry}
    {flags' : List Bool} (hsection : Section request l.entries l.flags result es' flags') :
    es'.length ≤ 1 := by
  rw [hsection.length_eq]
  have hfilter := List.length_filter_le Entry.isOpen l.entries
  by_cases hsearch : (ofEntries l.entries l.flags).search request.rank = .ok none
  · have hrows : ∀ row ∈ (l.entries.filter Entry.isOpen).map Entry.row,
        request.rank < row.length := by
      intro row hrow
      obtain ⟨e, he, rfl⟩ := List.mem_map.mp hrow
      rw [hinv.rows e (List.mem_of_mem_filter he)]
      exact hrank
    have happly := searchFrom_apply hrows 0 (ofEntries l.entries l.flags)
    rw [search_ofEntries, hsearch, List.findIdx?_map] at happly
    have hnone : (l.entries.filter Entry.isOpen).findIdx? (Entry.unserved request.rank) = none := by
      cases hfind : (l.entries.filter Entry.isOpen).findIdx? (Entry.unserved request.rank) with
      | none => rfl
      | some idx =>
          have hfind' : List.findIdx? ((fun row => row[request.rank]? == some false) ∘ Entry.row)
              (l.entries.filter Entry.isOpen) = some idx := hfind
          rw [hfind'] at happly
          cases happly
    have hkept := h.kept hinv hsingle hrank hidle
    have hcount : l.flags.length = (joinedOps l.calls request.rank).length :=
      (hinv.cleanup hkept).search_none hrank hidle hnone
    have hempty : l.entries.filter Entry.isOpen = [] := by
      rw [List.filter_eq_nil_iff]
      intro e he hopen
      have hcreated := hinv.created e he
      rw [h.closed hinv he (by omega)] at hopen
      cases hopen
    simp [hsearch, hempty]
  · rw [if_neg hsearch]
    omega

end Broadcast

open Broadcast

variable {p : Program n}

/-! ### The Broadcast steps of a program -/

def Program.broadcastSteps (p : Program n) : List (Collective n) :=
  p.steps.filter Collective.isBroadcast

theorem Program.broadcastSteps_getElem? {q : Nat} {step : Collective n}
    (hget : p.steps[q]? = some step) (hkind : step.isBroadcast = true) :
    p.broadcastSteps[p.broadcastsBefore q]? = some step := by
  obtain ⟨hlt, rfl⟩ := List.getElem?_eq_some_iff.mp hget
  have hsplit : p.steps = p.steps.take q ++ p.steps[q] :: p.steps.drop (q + 1) := by
    rw [List.getElem_cons_drop, List.take_append_drop]
  have hfilter : p.broadcastSteps = (p.steps.take q).filter Collective.isBroadcast ++
      p.steps[q] :: (p.steps.drop (q + 1)).filter Collective.isBroadcast := by
    unfold Program.broadcastSteps
    conv_lhs => rw [hsplit]
    rw [List.filter_append, List.filter_cons_of_pos hkind]
  rw [hfilter, Program.broadcastsBefore, List.countP_eq_length_filter]
  exact List.getElem?_append_right (Nat.le_refl _) |>.trans (by simp)

/-- The root of the `k`-th `Broadcast` step. -/
def Program.rootOf (p : Program n) (hn : 1 ≤ n) (k : Nat) : Fin n :=
  match p.broadcastSteps[k]? with
  | some (.broadcast root _) => root
  | _ => ⟨0, hn⟩

/-- What a rank passes in the `k`-th `Broadcast` step. -/
def Program.valueOf (p : Program n) (rank k : Nat) : UInt64 :=
  match p.broadcastSteps[k]? with
  | some (.broadcast _ value) => if h : rank < n then value ⟨rank, h⟩ else 0
  | _ => 0

/-- The guard of the `Broadcast` component. -/
abbrev Program.Scripted (p : Program n) (hn : 1 ≤ n) (s : Broadcast.System)
    (action : Broadcast.Action) : Prop :=
  ScriptCalls p.valueOf (p.rootOf hn) s action ∧ PositionsKept s action

/-! ### One operation at a time -/

/-- Every call is in its place, the `Broadcast` component is in a run in which the handler is
correct, and the lists hold at most one operation. -/
structure Ordered (p : Program n) (hn : 1 ≤ n) (s : Workers n) : Prop where
  placed : Placed p s
  scripted : Broadcast.machine.Reachable (p.Scripted hn) s.2
  single : s.2.state.bitmap.length ≤ 1

theorem Placed.entering {s : Workers n} (h : Placed p s) (hlock : Lockstep s.1)
    (hcohorts : Cohorts (fun _ => true) n s.1) {l : Ledger} (hl : s.2 = l.system)
    {rank : Fin n} {step : Collective n} (hfree : Free s rank)
    (hget : p.steps[made s rank]? = some step) (hkind : step.isBroadcast = true) :
    Entering l.calls n rank := by
  have hlength (other : Fin n) :
      (joinedOps l.calls other).length = p.broadcastsBefore (made s other) := by
    have hcount : (l.system.callsOf other).length = (joinedOps l.calls other).length :=
      length_callsOf l other
    rw [← hcount, ← hl]
    exact h.broadcasts other
  refine ⟨fun call hcall op hjoined hlt => ?_, fun other hother => ?_⟩
  · rw [hlength] at hlt
    have hmem : call ∈ s.2.calls := by rw [hl]; exact hcall
    exact h.settled hlock hcohorts hfree hget hkind hmem hjoined hlt
  · have hle := h.everyone_at hlock hcohorts hfree hget hkind ⟨other, hother⟩
    rw [hlength]
    exact (p.broadcastsBefore_mono hle).1.trans_eq (hlength ⟨other, hother⟩).symm

theorem Program.Follows.scripted {hn : 1 ≤ n} {s : Workers n} (h : Placed p s)
    {request : Request} (hguard : p.Follows s (.inr (.enter request))) :
    ScriptCalls p.valueOf (p.rootOf hn) s.2 (.enter request) := by
  obtain ⟨hrank, hfree, hstep⟩ := hguard
  refine ⟨hrank, ?_, hfree.2⟩
  obtain ⟨step, hget, hrequest⟩ := Option.bind_eq_some_iff.mp hstep
  obtain ⟨hkind, root, value, rfl, hsame⟩ := Collective.requestOf_eq_some hrequest
  have hfound := p.broadcastSteps_getElem? hget hkind
  rw [← h.broadcasts] at hfound
  rw [hsame]
  simp [scriptRequest, Program.valueOf, Program.rootOf, hfound, hrank]

theorem Ordered.initial (p : Program n) (hn : 1 ≤ n) :
    Ordered p hn ((⟨.initial, []⟩, ⟨.initial, []⟩) : Workers n) where
  placed := .initial
  scripted := .initial rfl
  single := Nat.zero_le _

/-- A call that enters joins the operation of its step. -/
theorem joined_of_enter {hn : 1 ≤ n} {s s' : Broadcast.System}
    (hreach : Broadcast.machine.Reachable (p.Scripted hn) s') {call : Broadcast.Call}
    (hcalls : s'.calls = s.calls ++ [call]) :
    call.joined = some (s.callsOf call.request.rank).length := by
  obtain ⟨l, hl, hinv, -⟩ := reachable_valued hreach
  have hnumbered := hinv.numbered call.request.rank
  have hlcalls : l.calls = s.calls ++ [call] := by
    rw [← hcalls, hl]
    rfl
  rw [hlcalls, joinedOps_snoc, if_pos rfl, List.length_append, List.length_singleton,
    List.range_succ, List.map_append] at hnumbered
  obtain ⟨-, hlast⟩ := List.append_inj' hnumbered rfl
  have hsame : call.joined = some (joinedOps s.calls call.request.rank).length := by
    simpa using hlast
  rw [hsame]
  exact congrArg some (List.length_map ..)

/-- **A worker's `Broadcast` call** keeps everything in order. -/
theorem Ordered.enterBroadcast {hn : 1 ≤ n} {s s' : Workers n} (h : Ordered p hn s)
    (hlock : Lockstep s.1) (hcohorts : Cohorts (fun _ => true) n s.1) {request : Request}
    (hguard : p.Follows s (.inr (.enter request)))
    (hstep : Broadcast.step s.2 (.enter request) = some s'.2) (hsame : s'.1 = s.1) :
    Ordered p hn s' := by
  obtain ⟨l, hl, hinv, -⟩ := reachable_valued h.scripted
  have hscript : ScriptCalls p.valueOf (p.rootOf hn) s.2 (.enter request) :=
    hguard.scripted h.placed
  have hfollows := hguard
  obtain ⟨hrank, hfree, hnext⟩ := hfollows
  obtain ⟨step, hget, hrequest⟩ := Option.bind_eq_some_iff.mp hnext
  have hentering : Entering l.calls n request.rank :=
    h.placed.entering hlock hcohorts hl hfree hget (Collective.requestOf_eq_some hrequest).1
  have hidle : l.Idle request.rank := fun call hcall =>
    hfree.2 call (by rw [hl]; exact hcall)
  have hsingle : l.entries.length ≤ 1 := by
    have hlength := h.single
    rw [hl] at hlength
    simpa [Ledger.system] using hlength
  have hkept := hentering.kept hinv hsingle hrank hidle
  have hpositions : PositionsKept s.2 (.enter request) := by
    rw [hl]
    exact positionsKept_of_kept hkept
  have hscripted : Broadcast.machine.Reachable (p.Scripted hn) s'.2 :=
    h.scripted.step ⟨hscript, hpositions⟩ hstep
  obtain ⟨call, hcall, hcalls⟩ := Broadcast.step_enter hstep
  refine ⟨?_, hscripted, ?_⟩
  · have hjoined := joined_of_enter hscripted hcalls
    rw [hcall] at hjoined
    exact h.placed.enterBroadcast hguard hcall hcalls hjoined hsame
  · rw [hl] at hstep
    obtain ⟨es', flags', hstate, hpiece⟩ := step_piece hstep
    generalize s'.2.calls = calls' at hpiece
    cases hpiece with
    | enter hsection =>
        rw [hstate]
        simpa using hentering.single hinv hsingle hrank hidle hsection

theorem Ordered.resumeBroadcast {hn : 1 ≤ n} {s s' : Workers n} (h : Ordered p hn s)
    {index : Nat} (hstep : Broadcast.step s.2 (.resume index) = some s'.2) (hsame : s'.1 = s.1) :
    Ordered p hn s' := by
  obtain ⟨call, phase, hcall, hrunning, hcalls⟩ := Broadcast.step_resume hstep
  have hguard : p.Scripted hn s.2 (.resume index) := ⟨trivial, trivial⟩
  refine ⟨h.placed.resumeBroadcast hcall hrunning hcalls hsame,
    h.scripted.step hguard hstep, ?_⟩
  obtain ⟨l, hl, -, -⟩ := reachable_valued h.scripted
  have hsingle := h.single
  rw [hl] at hstep hsingle
  obtain ⟨es', flags', hstate, hpiece⟩ := step_piece hstep
  rw [hstate]
  generalize s'.2.calls = calls' at hpiece
  cases hpiece with
  | mark _ _ _ _ => simpa [Ledger.system] using hsingle
  | wake | gone | read | missing => exact hsingle

/-- **Everything stays in order** in every run of a program. -/
theorem Program.ordered (hn : 1 ≤ n) {s : Workers n}
    (hreach : (workersMachine n).Reachable p.Follows s) : Ordered p hn s := by
  refine hreach.induction (Ordered p hn) ?_ ?_
  · rintro ⟨s₁, s₂⟩ ⟨rfl, rfl⟩
    exact Ordered.initial p hn
  · rintro s action t hbefore h hguard hstep
    obtain ⟨hcohorts, hlock⟩ := p.lockstep hn hbefore
    rcases action with (⟨client, rpc⟩ | index) | (request | index)
    · obtain ⟨hfirst, hsame⟩ := Machine.product_inl.mp hstep
      have hinv := reachable_inv
        (Machine.Reachable.left (fun _ _ h => Program.Follows.rounds h) hbefore)
      refine ⟨h.placed.enterRendezvous hlock hcohorts hguard (hinv.step_move hfirst) hsame, ?_, ?_⟩
      · rw [hsame]
        exact h.scripted
      · rw [hsame]
        exact h.single
    · obtain ⟨hfirst, hsame⟩ := Machine.product_inl.mp hstep
      have hinv := reachable_inv
        (Machine.Reachable.left (fun _ _ h => Program.Follows.rounds h) hbefore)
      have hmove : Move s.1 (.resume index) t.1 := hinv.step_move hfirst
      obtain ⟨call, call', hresumed⟩ := hmove.resumed
      refine ⟨h.placed.resumeRendezvous hresumed hsame, ?_, ?_⟩
      · rw [hsame]
        exact h.scripted
      · rw [hsame]
        exact h.single
    · obtain ⟨hsecond, hsame⟩ := Machine.product_inr.mp hstep
      exact h.enterBroadcast hlock hcohorts hguard hsecond hsame
    · obtain ⟨hsecond, hsame⟩ := Machine.product_inr.mp hstep
      exact h.resumeBroadcast hsecond hsame

/-! ### Agreement -/

/-- The `k`-th `Broadcast` call of a worker is made with the request of its step, and returns
what the root of the step passed. -/
theorem Program.answers (hn : 1 ≤ n) {s : Workers n}
    (hreach : (workersMachine n).Reachable p.Follows s) {rank : Fin n} {k : Nat}
    {call : Broadcast.Call} {result : UInt64} (hcall : (s.2.callsOf rank)[k]? = some call)
    (hreturned : call.phase = .returned result) :
    ∃ root value, p.broadcastSteps[k]? = some (.broadcast root value) ∧
      call.request = ⟨value rank, rank, n, root⟩ ∧ result = value root := by
  have hordered := p.ordered hn hreach
  obtain ⟨l, hl, hinv, hval⟩ := reachable_valued hordered.scripted
  obtain ⟨hmem, hrank⟩ := List.mem_filter.mp (List.mem_of_getElem? hcall)
  obtain ⟨rank', q, hq⟩ := hordered.placed.broadcast call hmem
  obtain ⟨step, hget, hrequest⟩ := Option.bind_eq_some_iff.mp hq.step
  obtain ⟨hkind, root, value, rfl, hmade⟩ := Collective.requestOf_eq_some hrequest
  have hsame : rank' = rank := by
    rw [hmade] at hrank
    exact Fin.ext (of_decide_eq_true hrank)
  have hfound := p.broadcastSteps_getElem? hget hkind
  have hop : p.broadcastsBefore q = k := by
    have hnumbered := joined_of_getElem? hinv (by rw [← hl]; exact hcall)
    exact Option.some.inj (hq.op.symm.trans hnumbered)
  rw [hop] at hfound
  have hright := hval.returned call (by rw [hl] at hmem; exact hmem) result k hreturned
    (hop ▸ hq.op)
  refine ⟨root, value, hfound, hsame ▸ hmade, hright.trans ?_⟩
  simp [Program.valueOf, Program.rootOf, hfound]

/-- What the workers of a program may rely on when they call `Broadcast`. -/
structure Agreed (p : Program n) (s : Workers n) : Prop where
  valid : IndexValid s.2
  single : s.2.state.values.length ≤ 1 ∧ s.2.state.bitmap.length ≤ 1 ∧
    s.2.state.events.length ≤ 1
  agreement : ∀ (rank : Fin n) (k : Nat) (call : Broadcast.Call) (result : UInt64),
    (s.2.callsOf rank)[k]? = some call → call.phase = .returned result →
    ∃ root value, p.broadcastSteps[k]? = some (.broadcast root value) ∧ result = value root

/-- **Broadcast agreement of programs.**  When every worker runs the same program, and a
rendezvous stands between any two of its `Broadcast` steps, then in every interleaving no
`Broadcast` call raises, the saved positions stay valid, the lists hold at most one
operation, and the `k`-th `Broadcast` call of every worker returns what the root of the
`k`-th `Broadcast` step passed. -/
theorem program_broadcast_agreement (hn : 1 ≤ n) {s : Workers n}
    (hreach : (workersMachine n).Reachable p.Follows s) : Agreed p s := by
  have hordered := p.ordered hn hreach
  obtain ⟨l, hl, hinv, -⟩ := reachable_valued hordered.scripted
  have hsingle := hordered.single
  rw [hl] at hsingle
  refine ⟨by rw [hl]; exact hinv.indexValid, ?_, ?_⟩
  · rw [hl]
    simpa [Ledger.system] using hsingle
  · intro rank k call result hcall hreturned
    obtain ⟨root, value, hstep, -, hresult⟩ := p.answers hn hreach hcall hreturned
    exact ⟨root, value, hstep, hresult⟩

/-- Both ranks of `grpc_test` receive the value of rank 0. -/
theorem program_broadcast_agreement_grpcTest :
    ∃ s : Workers 2, s.2.calls.map Broadcast.Call.phase = [.returned 42, .returned 42] ∧
      Agreed (grpcTest 0 0) s := by
  obtain ⟨history, s, hrun, -, -, hphases, -⟩ := grpcTest_run
  exact ⟨s, hphases, program_broadcast_agreement (by decide) hrun.reachable⟩

end Controller
end FlashReduce
