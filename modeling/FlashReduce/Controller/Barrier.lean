import FlashReduce.Controller.Lockstep
import Mathlib.Algebra.Order.Floor.Div

/-!
# What `Barrier` guarantees

* `barrier_lockstep`: with Barrier calls only, `n` workers move in lockstep.
* `barrier_released_by_barriers`: with RdmaSession calls in between, a Barrier
  caller is still released by Barrier callers alone as long as no operation is
  joined by calls of both kinds.  `barrier_released_by_session` shows that the
  condition is needed: the two methods share one counter, and an RdmaSession
  arrival counts towards the release of the Barrier callers it meets.
-/

namespace FlashReduce
namespace Controller

open Library

/-! ### Lockstep of Barrier calls -/

/-- `n` workers issue Barrier calls with `num_workers = n`, one at a time. -/
def BarrierRounds (n : Nat) (s : System (Fin n)) : Action (Fin n) → Prop
  | .enter client rpc => rpc = .barrier ⟨n⟩ ∧ s.Idle client
  | .resume _ => True

instance (n : Nat) (s : System (Fin n)) : ∀ action, Decidable (BarrierRounds n s action)
  | .enter client rpc => inferInstanceAs (Decidable (rpc = .barrier ⟨n⟩ ∧ s.Idle client))
  | .resume _ => inferInstanceAs (Decidable True)

theorem BarrierRounds.rounds {n : Nat} {s : System (Fin n)} {action : Action (Fin n)}
    (h : BarrierRounds n s action) : Rounds n s action := by
  cases action with
  | enter client rpc =>
      obtain ⟨rfl, hidle⟩ := h
      exact ⟨rfl, hidle⟩
  | resume index => trivial

/-- **Barrier lockstep.**  Every worker's `r`-th call is assigned operation `r`
(both from `0`); when some `r`-th call has returned, every worker has entered its
`r`-th call, so no worker is more than one round ahead of another; and once every
worker has entered its `r`-th call, no `r`-th call waits on an unset event. -/
theorem barrier_lockstep {n : Nat} (hn : 1 ≤ n) {s : System (Fin n)}
    (hreach : (rendezvousMachine (Fin n)).Reachable (BarrierRounds n) s) :
    (∀ worker r (call : Call (Fin n)), (s.callsOf worker)[r]? = some call → call.opId = r) ∧
    (∀ worker r (call : Call (Fin n)), (s.callsOf worker)[r]? = some call →
      call.hasReturned = true → ∀ other, r < s.rounds other) ∧
    (∀ worker other, s.rounds worker ≤ s.rounds other + 1) ∧
    (∀ r, (∀ worker, r < s.rounds worker) →
      ∀ worker (call : Call (Fin n)) event, (s.callsOf worker)[r]? = some call →
        call.phase = .waiting event → s.controller.eventFlags[event]? = some true) := by
  have hinv := reachable_inv hreach
  obtain ⟨hcohorts, hlock⟩ := reachable_lockstep hn (fun _ _ h => h.rounds) hreach
  refine ⟨?_, ?_, ?_, ?_⟩
  · intro worker r call hcall
    exact hlock.opId_eq hcall
  · intro worker r call hcall hreturned
    exact hlock.rounds_of_past hcohorts hcall (Call.isPast_of_hasReturned hreturned)
  · intro worker other
    rcases hlock.rounds worker with h | h <;> rcases hlock.rounds other with h' | h' <;> omega
  · intro r hentered worker call event hcall hwaiting
    have hmem := (System.mem_callsOf.mp (List.mem_of_getElem? hcall)).1
    have hevent : event = call.opId ∧ call.left = false := by
      simpa [PhaseOk, hwaiting] using hinv.phase call hmem
    rw [hevent.1, hinv.flag_iff, hlock.opId_eq hcall]
    by_contra hopen
    -- otherwise every worker has joined the open operation, which is then full
    have hr : r = s.open := by
      have := hinv.opId_le call hmem
      rw [hlock.opId_eq hcall] at this
      omega
    have hall : s.arrived = Finset.univ := by
      apply Finset.filter_true_of_mem
      intro other _
      have := hentered other
      rcases hlock.rounds other with h | h <;> omega
    have hlt := hcohorts.open_lt call hmem rfl (by rw [hlock.opId_eq hcall, hr])
    rw [hlock.joined, hall, Finset.card_univ, Fintype.card_fin] at hlt
    omega

/-- Two workers after one round, the second worker in its second call. -/
theorem barrier_lockstep_two_workers :
    ∃ s : System (Fin 2), (s.callsOf 1).map Call.opId = [0, 1] ∧
      (∀ other, 0 < s.rounds other) ∧ s.rounds 1 ≤ s.rounds 0 + 1 := by
  have hrun := Machine.run_of_exec (rendezvousMachine (Fin 2))
    (BarrierRounds 2) ⟨.initial, []⟩
    [.enter 0 (.barrier ⟨2⟩), .resume 0, .enter 1 (.barrier ⟨2⟩), .resume 1, .resume 1,
      .enter 1 (.barrier ⟨2⟩)] rfl rfl
  obtain ⟨-, hentered, hahead, -⟩ := barrier_lockstep (by decide) hrun.reachable
  exact ⟨_, rfl, hentered 1 0 _ rfl rfl, hahead 1 0⟩

/-! ### Barrier calls among RdmaSession calls -/

variable {ι : Type}

/-- The Barrier calls, in the order of their first locked sections. -/
def System.barrierCalls (s : System ι) : List (Call ι) :=
  s.calls.filter fun call => call.rpc.isBarrier

/-- The Barrier call that was the `j`-th to enter (`j` from `1`) returns only
after `n * ⌈j / n⌉` Barrier calls have entered. -/
def ReleasedByBarriers (n : Nat) (s : System ι) : Prop :=
  ∀ j call, 1 ≤ j → s.barrierCalls[j - 1]? = some call → call.hasReturned = true →
    n * (j ⌈/⌉ n) ≤ s.barrierCalls.length

/-- The operations that the Barrier calls joined. -/
def System.barrierOps (s : System ι) : List Nat :=
  s.barrierCalls.map Call.opId

theorem Resumed.barrierOps {s s' : System ι} {index : Nat} {call call' : Call ι}
    (h : Resumed s s' index call call') : s'.barrierOps = s.barrierOps := by
  have hops (t : System ι) : t.barrierOps =
      ((t.calls.map Call.ticket).filter fun ticket => ticket.rpc.isBarrier).map Ticket.opId := by
    simp [System.barrierOps, System.barrierCalls, List.filter_map, Function.comp_def]
  rw [hops, hops, h.tickets]

theorem barrierOps_of_calls_snoc {s s' : System ι} {call : Call ι}
    (hcalls : s'.calls = s.calls ++ [call]) :
    s'.barrierOps = s.barrierOps ++ if call.rpc.isBarrier then [call.opId] else [] := by
  unfold System.barrierOps System.barrierCalls
  rw [hcalls, List.filter_append]
  cases h : call.rpc.isBarrier <;> simp [h]

/-- The Barrier calls fill their operations one after the other: with `m` of
them entered, the last `m % n` are in the open operation. -/
structure BarrierOrder (n : Nat) (s : System ι) : Prop where
  in_open : ∀ j op, s.barrierOps[j]? = some op →
    (op = s.open ↔ n * (s.barrierOps.length / n) ≤ j)
  some_open : s.open ∈ s.barrierOps → s.joined s.open = s.barrierOps.length % n
  none_open : s.open ∉ s.barrierOps → s.barrierOps.length % n = 0

theorem mem_barrierOps_of_joined {s : System ι} (hpos : 0 < s.joined s.open)
    (hall : ∀ call ∈ s.calls, call.opId = s.open → call.rpc.isBarrier = true) :
    s.open ∈ s.barrierOps := by
  obtain ⟨call, hcall, hop⟩ := List.countP_pos_iff.mp hpos
  have hop : call.opId = s.open := by simpa using hop
  refine List.mem_map.mpr ⟨call, ?_, hop⟩
  exact List.mem_filter.mpr ⟨hcall, hall call hcall hop⟩

theorem BarrierOrder.enter_barrier {n : Nat} {s s' : System ι} {client : ι}
    {request : BarrierRequest} (hn : 1 ≤ n) (horder : BarrierOrder n s) (hinv : Inv s)
    (hguard : Unmixed Rpc.isBarrier n s (.enter client (.barrier request)))
    (hmove : Move s (.enter client (.barrier request)) s') : BarrierOrder n s' := by
  obtain ⟨hworkers, hsame⟩ := hguard
  obtain ⟨hcalls, -, hcases⟩ := hmove.entered
  have hops : s'.barrierOps = s.barrierOps ++ [s.open] := barrierOps_of_calls_snoc hcalls
  have hlen : s'.barrierOps.length = s.barrierOps.length + 1 := by simp [hops]
  have hbound : ∀ op ∈ s.barrierOps, op ≤ s.open := by
    intro op hop
    obtain ⟨call, hcall, rfl⟩ := List.mem_map.mp hop
    exact hinv.opId_le call (List.mem_filter.mp hcall).1
  -- the open operation holds the incomplete cohort of Barrier calls, and nobody else
  have hjoined : s.joined s.open = s.barrierOps.length % n := by
    rcases Nat.eq_zero_or_pos (s.joined s.open) with hzero | hpos
    · have hnot : s.open ∉ s.barrierOps := by
        intro hmem
        obtain ⟨call, hcall, hop⟩ := List.mem_map.mp hmem
        exact s.opId_ne_of_joined hzero (List.mem_filter.mp hcall).1 hop
      rw [hzero, horder.none_open hnot]
    · exact horder.some_open (mem_barrierOps_of_joined hpos hsame)
  have hworkers : (Rpc.barrier request).numWorkers = n := hworkers rfl
  have hmod := Nat.mod_lt s.barrierOps.length hn
  have hdiv := Nat.div_add_mod s.barrierOps.length n
  rcases hcases with ⟨hopen, hcount⟩ | ⟨hopen, hcount⟩
  · -- the call joins the incomplete cohort
    have hmod' : (s.barrierOps.length + 1) % n = s.barrierOps.length % n + 1 := by
      rw [Nat.add_mod, Nat.mod_eq_of_lt (show 1 < n by omega), Nat.mod_eq_of_lt (by omega)]
    have hdiv' : (s.barrierOps.length + 1) / n = s.barrierOps.length / n := by
      rw [Nat.div_eq_of_lt_le]
      · rw [Nat.mul_comm]; omega
      · rw [Nat.add_mul, Nat.mul_comm]; omega
    refine ⟨?_, ?_, ?_⟩
    · intro j op hop
      rw [hlen, hdiv', hopen]
      rw [hops] at hop
      rcases Nat.lt_or_ge j s.barrierOps.length with hj | hj
      · rw [List.getElem?_append_left hj] at hop
        exact horder.in_open j op hop
      · rw [List.getElem?_append_right hj] at hop
        obtain ⟨-, rfl⟩ := List.getElem?_eq_some_iff.mp hop
        simp only [List.getElem_singleton, true_iff]
        omega
    · intro _
      rw [joined_of_calls_snoc hcalls, hlen, hopen, hjoined, hmod', System.newCall_opId,
        if_pos rfl]
    · intro hnot
      exact absurd (by rw [hops, hopen]; simp) hnot
  · -- the call completes the cohort, and the next operation is empty
    have hfull : s.barrierOps.length % n + 1 = n := by omega
    have hlen' : s.barrierOps.length + 1 = n * (s.barrierOps.length / n + 1) := by
      rw [Nat.mul_add]
      omega
    have hnot : s'.open ∉ s'.barrierOps := by
      rw [hops, hopen, List.mem_append, List.mem_singleton]
      rintro (hmem | hmem)
      · have := hbound _ hmem
        omega
      · omega
    refine ⟨?_, fun hmem => absurd hmem hnot, ?_⟩
    · intro j op hop
      have hj := (List.getElem?_eq_some_iff.mp hop).1
      constructor
      · rintro rfl
        exact absurd (List.mem_of_getElem? hop) hnot
      · intro hle
        rw [hlen, hlen', Nat.mul_div_cancel_left _ (by omega)] at hle
        omega
    · intro _
      rw [hlen, hlen', Nat.mul_mod_right]

theorem BarrierOrder.enter_session {n : Nat} {s s' : System ι} {client : ι}
    {request : RdmaSessionRequest} (horder : BarrierOrder n s) (hinv : Inv s)
    (hguard : Unmixed Rpc.isBarrier n s (.enter client (.rdmaSession request)))
    (hmove : Move s (.enter client (.rdmaSession request)) s') : BarrierOrder n s' := by
  obtain ⟨-, hsame⟩ := hguard
  obtain ⟨hcalls, -, hcases⟩ := hmove.entered
  have hops : s'.barrierOps = s.barrierOps := by
    rw [barrierOps_of_calls_snoc hcalls]
    exact List.append_nil _
  have hopen : s.open ∉ s.barrierOps := by
    intro hmem
    obtain ⟨call, hcall, hop⟩ := List.mem_map.mp hmem
    obtain ⟨hcall, hbarrier⟩ := List.mem_filter.mp hcall
    have hother : call.rpc.isBarrier = false := hsame call hcall hop
    rw [hbarrier] at hother
    cases hother
  have hzero := horder.none_open hopen
  have hnot : s'.open ∉ s'.barrierOps := by
    rw [hops]
    intro hmem
    obtain ⟨call, hcall, hop⟩ := List.mem_map.mp hmem
    have hle := hinv.opId_le call (List.mem_filter.mp hcall).1
    rcases hcases with ⟨hsucc, -⟩ | ⟨hsucc, -⟩
    · exact hopen (hsucc ▸ hmem)
    · omega
  refine ⟨?_, fun hmem => absurd hmem hnot, fun _ => by rw [hops]; exact hzero⟩
  intro j op hop
  have hj := (List.getElem?_eq_some_iff.mp hop).1
  constructor
  · rintro rfl
    exact absurd (List.mem_of_getElem? hop) hnot
  · intro hle
    have hdiv := Nat.div_add_mod s.barrierOps.length n
    rw [hops] at hle hj
    omega

theorem BarrierOrder.move {n : Nat} {s s' : System ι} {action : Action ι} (hn : 1 ≤ n)
    (horder : BarrierOrder n s) (hinv : Inv s) (hguard : Unmixed Rpc.isBarrier n s action)
    (hmove : Move s action s') : BarrierOrder n s' := by
  cases action with
  | enter client rpc =>
      cases rpc with
      | barrier request => exact horder.enter_barrier hn hinv hguard hmove
      | rdmaSession request => exact horder.enter_session hinv hguard hmove
  | resume index =>
      obtain ⟨call, call', h⟩ := hmove.resumed
      refine ⟨?_, ?_, ?_⟩
      · rw [h.barrierOps, h.opened]
        exact horder.in_open
      · rw [h.barrierOps, h.opened, h.joined]
        exact horder.some_open
      · rw [h.barrierOps, h.opened]
        exact horder.none_open

theorem reachable_barrierOrder {n : Nat} (hn : 1 ≤ n) {s : System ι}
    (hreach : (rendezvousMachine ι).Reachable (Unmixed Rpc.isBarrier n) s) :
    BarrierOrder n s := by
  refine hreach.induction (BarrierOrder n) ?_ ?_
  · rintro s rfl
    refine ⟨?_, ?_, ?_⟩
    · intro j op hop
      cases hop
    · intro hmem
      cases hmem
    · intro _
      exact Nat.zero_mod n
  · intro s action t hbefore horder hguard hstep
    have hinv := reachable_inv hbefore
    exact horder.move hn hinv hguard (hinv.step_move hstep)

/-- Barrier calls ask for `n` workers; RdmaSession calls ask for anything. -/
def BarriersOf (n : Nat) (_ : System ι) : Action ι → Prop
  | .enter _ rpc => rpc.isBarrier = true → rpc.numWorkers = n
  | .resume _ => True

/-- A call finds the open operation joined by calls of its own kind only. -/
def KindsApart (s : System ι) : Action ι → Prop
  | .enter _ rpc => ∀ call ∈ s.calls, call.opId = s.open → call.rpc.isBarrier = rpc.isBarrier
  | .resume _ => True

instance (n : Nat) (s : System ι) : ∀ action, Decidable (BarriersOf n s action)
  | .enter _ rpc => inferInstanceAs (Decidable (rpc.isBarrier = true → rpc.numWorkers = n))
  | .resume _ => inferInstanceAs (Decidable True)

instance (s : System ι) : ∀ action, Decidable (KindsApart s action)
  | .enter _ rpc => inferInstanceAs (Decidable
      (∀ call ∈ s.calls, call.opId = s.open → call.rpc.isBarrier = rpc.isBarrier))
  | .resume _ => inferInstanceAs (Decidable True)

/-- **Barrier callers are released by Barrier callers**, in every run in which
each call finds the open operation joined by calls of its own kind only. -/
theorem barrier_released_by_barriers {n : Nat} (hn : 1 ≤ n) {s : System ι}
    (hreach : (rendezvousMachine ι).Reachable
      (fun s action => BarriersOf n s action ∧ KindsApart s action) s) :
    ReleasedByBarriers n s := by
  intro j call hj hcall hreturned
  have hunmixed : (rendezvousMachine ι).Reachable (Unmixed Rpc.isBarrier n) s := by
    refine hreach.weaken fun s action h => ?_
    cases action with
    | enter client rpc => exact h
    | resume index => trivial
  have hcohorts := reachable_cohorts hn (fun _ _ h => h) hunmixed
  have horder := reachable_barrierOrder hn hunmixed
  obtain ⟨hmem, hbarrier⟩ := List.mem_filter.mp (List.mem_of_getElem? hcall)
  have hclosed := hcohorts.past call hmem hbarrier (Call.isPast_of_hasReturned hreturned)
  have hop : s.barrierOps[j - 1]? = some call.opId := by simp [System.barrierOps, hcall]
  have hlen : s.barrierOps.length = s.barrierCalls.length := by simp [System.barrierOps]
  -- `call` is not among the Barrier calls of the open operation
  have hlt : ¬ n * (s.barrierOps.length / n) ≤ j - 1 := by
    intro hle
    have := (horder.in_open (j - 1) call.opId hop).mpr hle
    omega
  have hceil : j ⌈/⌉ n ≤ s.barrierOps.length / n := by
    rw [ceilDiv_le_iff_le_mul (by omega)]
    omega
  calc n * (j ⌈/⌉ n) ≤ n * (s.barrierOps.length / n) := Nat.mul_le_mul_left n hceil
    _ ≤ s.barrierOps.length := Nat.mul_div_le _ _
    _ = s.barrierCalls.length := hlen

/-- A single RdmaSession caller uses an operation of its own; the two Barrier
callers after it release each other. -/
theorem barrier_released_after_session :
    ∃ s : System Unit, s.barrierCalls.length = 2 ∧ ReleasedByBarriers 2 s := by
  have hrun := Machine.run_of_exec (rendezvousMachine Unit)
    (fun s action => BarriersOf 2 s action ∧ KindsApart s action)
    ⟨.initial, []⟩
    [.enter () (.rdmaSession (bareRequest 0 0 1 1)), .enter () (.barrier ⟨2⟩),
      .enter () (.barrier ⟨2⟩), .resume 1, .resume 1] rfl rfl
  exact ⟨_, rfl, barrier_released_by_barriers (by decide) hrun.reachable⟩

/-- Without the condition the property fails: the first Barrier caller of two
returns when an RdmaSession caller has arrived, before the second Barrier
caller. -/
theorem barrier_released_by_session :
    ¬ ∀ s : System Unit, (rendezvousMachine Unit).Reachable (BarriersOf 2) s →
      ReleasedByBarriers 2 s := by
  intro hall
  have hrun := Machine.run_of_exec (rendezvousMachine Unit) (BarriersOf 2)
    ⟨.initial, []⟩
    [.enter () (.barrier ⟨2⟩), .enter () (.rdmaSession (bareRequest 0 0 2 1)),
      .resume 0, .resume 0] rfl rfl
  have hreleased := hall _ hrun.reachable 1 _ (by decide) rfl rfl
  rw [Nat.ceilDiv_eq_add_pred_div] at hreleased
  exact absurd hreleased (by decide)

end Controller
end FlashReduce
