import FlashReduce.Controller.Cohort

/-!
# Entries of the rendezvous: never missing, not always reclaimed

Two properties of `_barrier_ctrs` and `_barrier_events`.

* `rendezvous_bookkeeping`: whatever calls are made, with whatever `num_workers`,
  the two maps agree, the counters count, and no call misses its entry, although
  entries are deleted while other calls read them without the lock.
* `barrier_reclaimed`: a round of Barrier calls whose calls have all returned has
  left no entry behind exactly when each of its tests outside the lock found the
  counter below `num_workers`.  `barrier_not_reclaimed` is the usual schedule of
  two workers, in which the call that closes the operation skips the wait, never
  counts itself out, and the entry stays for good.
-/

namespace FlashReduce
namespace Controller

open Library

variable {ι : Type}

/-! ### The entries are there -/

/-- The bookkeeping in a state between two locked sections. -/
structure Bookkept (s : System ι) : Prop where
  same_keys : ∀ op, op ∈ s.controller.barrierCtrs.keys ↔ op ∈ s.controller.barrierEvents.keys
  open_key : s.controller.barrierOpId ∈ s.controller.barrierCtrs.keys
  open_ctr : s.controller.barrierCtrs.get? s.controller.barrierOpId =
    some (s.joined s.controller.barrierOpId : Int)
  closed_ctr : ∀ op < s.controller.barrierOpId, ∀ ctr,
    s.controller.barrierCtrs.get? op = some ctr → ctr = (s.joined op : Int) - s.gone op ∧ 0 ≤ ctr
  closed_deleted : ∀ op < s.controller.barrierOpId,
    s.controller.barrierCtrs.get? op = none → s.joined op = s.gone op
  enter_ok : ∀ rpc : Rpc, ∃ result, (rpc.enter s.controller).1 = .ok result
  test_ok : ∀ call ∈ s.calls, ∀ event, call.phase = .entered event →
    ∃ wait, (mustWait call.rpc.numWorkers call.opId s.controller).1 = .ok wait
  leave_ok : ∀ call ∈ s.calls, call.phase = .woken → (leaveOp call.opId s.controller).1 = .ok ()
  no_keyError : ∀ call ∈ s.calls, call.phase ≠ .raised .keyError

/-- The counters and the events have the same keys. -/
theorem Inv.same_keys {s : System ι} (hinv : Inv s) (op : Nat) :
    op ∈ s.controller.barrierCtrs.keys ↔ op ∈ s.controller.barrierEvents.keys := by
  rw [OrderedDict.mem_keys_iff, OrderedDict.mem_keys_iff, hinv.events]
  cases h : s.controller.barrierCtrs.get? op with
  | none => simp
  | some ctr => simp

/-- No more calls are gone than have joined. -/
theorem System.gone_le_joined (s : System ι) (op : Nat) : s.gone op ≤ s.joined op := by
  apply List.countP_mono_left
  intro call _ h
  rw [Bool.and_eq_true] at h
  exact h.1

/-- Every RdmaSession call finds a record of its session. -/
def SessionsKnown (s : System ι) : Prop :=
  ∀ call ∈ s.calls, ∀ request, call.rpc = .rdmaSession request →
    (s.controller.sessions.get? request.sessionId).isSome = true

/-- A registration stores under its own session and deletes nothing. -/
theorem register_isSome (rpc : Rpc) (sessions : OrderedDict Nat SessionRecord) (sessionId : Nat)
    (h : (sessions.get? sessionId).isSome = true ∨ ∃ request, rpc = .rdmaSession request ∧
      request.sessionId = sessionId) :
    ((rpc.register sessions).get? sessionId).isSome = true := by
  cases rpc with
  | barrier request =>
      rcases h with h | ⟨other, hrpc, -⟩
      · exact h
      · cases hrpc
  | rdmaSession request =>
      have hsame : (sessions.get? sessionId).isSome = true ∨ request.sessionId = sessionId := by
        rcases h with h | ⟨other, hrpc, hid⟩
        · exact Or.inl h
        · cases hrpc
          exact Or.inr hid
      unfold Rpc.register
      by_cases hid : sessionId = request.sessionId
      · by_cases hroot : request.root = 1 <;> simp [hid, hroot]
      · have hold : (sessions.get? sessionId).isSome = true := by
          rcases hsame with h | h
          · exact h
          · exact absurd h.symm hid
        by_cases hroot : request.root = 1 <;>
          cases hrecord : sessions.get? request.sessionId <;> simp [hid, hroot, hrecord, hold]

/-- The lookup of the peer may raise, but not a `KeyError`. -/
theorem finish_ne_keyError {s : System ι} (hknown : SessionsKnown s) {call : Call ι}
    (hmem : call ∈ s.calls) : (call.rpc.finish s.controller).1 ≠ .error .keyError := by
  intro h
  cases hrpc : call.rpc with
  | barrier request =>
      rw [hrpc] at h
      cases h
  | rdmaSession request =>
      obtain ⟨session, hsession⟩ := Option.isSome_iff_exists.mp (hknown call hmem request hrpc)
      rw [hrpc] at h
      by_cases hroot : request.root = 1
      · cases hpeer : session.workers.keys.head? with
        | none => simp [Rpc.finish, lookupPeer, hsession, hroot, hpeer, Fallible.demand,
            Fallible.raise] at h
        | some peer =>
            -- the first key of the workers has a value
            have hkey : peer ∈ session.workers.keys := List.mem_of_head? hpeer
            rw [OrderedDict.mem_keys_iff] at hkey
            obtain ⟨req, hreq⟩ := Option.isSome_iff_exists.mp hkey
            simp [Rpc.finish, lookupPeer, hsession, hroot, hpeer, hreq] at h
      · cases hreq : session.root with
        | none => simp [Rpc.finish, lookupPeer, hsession, hroot, hreq, Fallible.demand,
            Fallible.raise] at h
        | some req => simp [Rpc.finish, lookupPeer, hsession, hroot, hreq] at h

/-- The sessions are known, and nobody has raised a `KeyError`. -/
structure Keyed (s : System ι) : Prop where
  known : SessionsKnown s
  no_keyError : ∀ call ∈ s.calls, call.phase ≠ .raised .keyError

theorem Keyed.move {s s' : System ι} {action : Action ι} (h : Keyed s)
    (hmove : Move s action s') : Keyed s' := by
  cases action with
  | enter client rpc =>
      obtain ⟨hcalls, hsessions, -⟩ := hmove.entered
      constructor
      · intro call hcall request hrpc
        rw [hsessions]
        apply register_isSome
        rw [hcalls] at hcall
        rcases List.mem_append.mp hcall with hold | hnew
        · exact Or.inl (h.known call hold request hrpc)
        · rw [List.mem_singleton.mp hnew] at hrpc
          exact Or.inr ⟨request, hrpc, rfl⟩
      · rw [hcalls]
        exact forall_mem_snoc h.no_keyError nofun
  | resume index =>
      obtain ⟨call, call', hresumed⟩ := hmove.resumed
      constructor
      · intro c hc request hrpc
        rw [hresumed.sessions]
        obtain ⟨c₀, hc₀, hticket⟩ := hresumed.exists_ticket hc
        have hrpc₀ : c₀.rpc = c.rpc := congrArg Ticket.rpc hticket
        exact h.known c₀ hc₀ request (hrpc₀.trans hrpc)
      · rw [hresumed.calls]
        apply forall_mem_set h.no_keyError
        intro hraised
        obtain ⟨-, herror⟩ := hresumed.failure .keyError hraised
        exact finish_ne_keyError h.known hresumed.mem herror

theorem reachable_keyed {guard : System ι → Action ι → Prop} {s : System ι}
    (hreach : (rendezvousMachine ι).Reachable guard s) : Keyed s := by
  refine hreach.induction Keyed ?_ ?_
  · rintro s rfl
    exact ⟨nofun, nofun⟩
  · intro s action t hbefore hkeyed _ hstep
    exact hkeyed.move ((reachable_inv hbefore).step_move hstep)

/-- **The bookkeeping never fails**, in every run of any Barrier and RdmaSession
calls. -/
theorem rendezvous_bookkeeping {s : System ι}
    (hreach : (rendezvousMachine ι).Reachable Machine.anyMove s) : Bookkept s := by
  have hinv := reachable_inv hreach
  have hkeyed := reachable_keyed hreach
  have hevent {call : Call ι} (hmem : call ∈ s.calls) (hleft : call.left = false) :
      s.controller.barrierEvents.get? call.opId = some call.opId := by
    rw [hinv.events, hinv.ctr_of_mem hmem hleft]
    rfl
  constructor
  · exact hinv.same_keys
  · exact OrderedDict.mem_keys_of_get? hinv.ctr_open
  · exact hinv.ctr_open
  · intro op hop ctr hctr
    have hle := s.gone_le_joined op
    rw [hinv.ctr_closed op hop] at hctr
    split at hctr
    · cases hctr
    · have heq : (s.joined op : Int) - s.gone op = ctr := Option.some.inj hctr
      omega
  · intro op hop hctr
    rw [hinv.ctr_closed op hop] at hctr
    split at hctr
    · assumption
    · cases hctr
  · intro rpc
    rw [rpc.enter_apply hinv.ctr_open hinv.event_open]
    exact ⟨_, rfl⟩
  · intro call hmem event hphase
    have hleft : call.left = false := by
      have hok := hinv.phase call hmem
      rw [PhaseOk, hphase] at hok
      exact hok.2
    rw [mustWait, Fallible.bind_apply, counter_apply (hinv.ctr_of_mem hmem hleft)]
    exact ⟨_, rfl⟩
  · intro call hmem hphase
    have hleft : call.left = false := by
      have hok := hinv.phase call hmem
      rw [PhaseOk, hphase] at hok
      exact hok.1
    rw [leaveOp_apply (hinv.ctr_of_mem hmem hleft) (hevent hmem hleft)]
  · exact hkeyed.no_keyError

/-- A Barrier caller asks for two workers and an RdmaSession caller for one: the
second call closes the operation and skips the wait while the first still waits. -/
theorem rendezvous_bookkeeping_mixed :
    ∃ s : System Unit, s.calls.map Call.opId = [0, 0] ∧ s.controller.barrierCtrs.get? 0 = some 2 ∧
      Bookkept s := by
  have hrun := Machine.run_of_exec (rendezvousMachine Unit) Machine.anyMove ⟨.initial, []⟩
    [.enter () (.barrier ⟨2⟩), .resume 0, .enter () (.rdmaSession (bareRequest 0 0 1 0)),
      .resume 1] rfl rfl
  exact ⟨_, rfl, rfl, rendezvous_bookkeeping hrun.reachable⟩

/-! ### What is reclaimed -/

/-- Every call is a Barrier call with `num_workers = n`. -/
def BarrierCalls (n : Nat) (_ : System ι) : Action ι → Prop
  | .enter _ rpc => rpc = .barrier ⟨n⟩
  | .resume _ => True

instance (n : Nat) (s : System ι) : ∀ action, Decidable (BarrierCalls n s action)
  | .enter _ rpc => inferInstanceAs (Decidable (rpc = .barrier ⟨n⟩))
  | .resume _ => inferInstanceAs (Decidable True)

/-- The call is not about to skip the wait: it is not at the test outside the
lock, or the counter of its operation is below its `num_workers`. -/
def Call.belowThreshold (self : Rendezvous) (call : Call ι) : Bool :=
  match call.phase with
  | .entered _ => (self.barrierCtrs.get? call.opId).all fun ctr : Int => ctr < call.rpc.numWorkers
  | _ => true

/-- The step is not a test by which a call of operation `op` skips the wait. -/
def WaitsIn (op : Nat) (s : System ι) : Action ι → Prop
  | .enter _ _ => True
  | .resume index => ∀ call, s.calls[index]? = some call → call.opId = op →
      call.belowThreshold s.controller = true

/-- All `n` calls of a round have returned. -/
def RoundReturned (n op : Nat) (s : System ι) : Prop :=
  s.joined op = n ∧ ∀ call ∈ s.calls, call.opId = op → call.hasReturned = true

/-- The entries of an operation are deleted. -/
def Deleted (op : Nat) (s : System ι) : Prop :=
  op ∉ s.controller.barrierCtrs.keys ∧ op ∉ s.controller.barrierEvents.keys

/-- How many calls of an operation are past the rendezvous without having counted
themselves out. -/
def System.skipped (s : System ι) (op : Nat) : Nat :=
  s.calls.countP fun call => call.opId = op && (call.isPast && !call.left)

theorem skipped_set_same (controller : Rendezvous) {s : System ι} {index : Nat} {call : Call ι}
    (hcall : s.calls[index]? = some call) (op : Nat) (left : Bool) (phase : Phase)
    (hsame : (({ call with left := left, phase := phase } : Call ι).isPast && !left) =
      (call.isPast && !call.left)) :
    (System.mk controller
      (s.calls.set index { call with left := left, phase := phase })).skipped op = s.skipped op :=
  countP_set_same hcall (by simp only [hsame])

/-- A step other than the test outside the lock lets nobody skip the wait. -/
theorem waitsIn_of_phase {s : System ι} {index op : Nat} {call : Call ι}
    (hcall : s.calls[index]? = some call) (hphase : ∀ event, call.phase ≠ .entered event) :
    WaitsIn op s (.resume index) := by
  intro other hother _
  cases hcall.symm.trans hother
  unfold Call.belowThreshold
  split
  · next event h => exact absurd h (hphase event)
  · rfl

/-- **Step lemma.**  A call of the operation has skipped the wait when one had before
the step, or when the step is such a test. -/
theorem Move.skipped {s s' : System ι} {action : Action ι} (hinv : Inv s)
    (hmove : Move s action s') (op : Nat) :
    s'.skipped op = 0 ↔ s.skipped op = 0 ∧ WaitsIn op s action := by
  cases hmove with
  | joinOpen client rpc hlt =>
      simp [System.skipped, List.countP_append, Call.isPast, System.newCall, WaitsIn]
  | joinClose client rpc hge =>
      simp [System.skipped, List.countP_append, Call.isPast, System.newCall, WaitsIn]
  | testWait index call hcall hphase hleft hlt =>
      have hbelow : WaitsIn op s (.resume index) := by
        intro other hother _
        cases hcall.symm.trans hother
        have hctr := hinv.ctr_of_mem (List.mem_of_getElem? hcall) hleft
        simp only [Call.belowThreshold, hphase, hctr, Option.all_some, decide_eq_true_eq]
        omega
      rw [skipped_set_same _ hcall op _ _ (by simp [Call.isPast, hphase])]
      exact (and_iff_left hbelow).symm
  | testPass index call hcall hphase hleft hge =>
      have hctr := hinv.ctr_of_mem (List.mem_of_getElem? hcall) hleft
      have habove : call.belowThreshold s.controller = false := by
        simp only [Call.belowThreshold, hphase, hctr, Option.all_some, decide_eq_false_iff_not]
        omega
      by_cases hop : call.opId = op
      · -- this call is the one that skips
        have hgain : (System.mk s.controller
            (s.calls.set index { call with phase := .passed })).skipped op = s.skipped op + 1 :=
          countP_set_gain hcall (by simp [Call.isPast, hphase])
            (by simp [Call.isPast, hop, hleft])
        have hskips : ¬ WaitsIn op s (.resume index) := by
          intro hwaits
          rw [hwaits call hcall hop] at habove
          cases habove
        rw [hgain]
        constructor
        · intro hzero
          omega
        · intro h
          exact absurd h.2 hskips
      · have hother : (System.mk s.controller
            (s.calls.set index { call with phase := .passed })).skipped op = s.skipped op :=
          countP_set_same hcall (by simp [hop])
        have hwaits : WaitsIn op s (.resume index) := by
          intro other hother hsame
          cases hcall.symm.trans hother
          exact absurd hsame hop
        rw [hother]
        exact (and_iff_left hwaits).symm
  | wake index call hcall hphase hleft hclosed =>
      rw [skipped_set_same _ hcall op _ _ (by simp [Call.isPast, hphase])]
      exact (and_iff_left (waitsIn_of_phase hcall (by simp [hphase]))).symm
  | countOut index call hcall hphase hleft hclosed =>
      rw [skipped_set_same _ hcall op _ _ (by simp [Call.isPast, hphase])]
      exact (and_iff_left (waitsIn_of_phase hcall (by simp [hphase]))).symm
  | respond index call hcall hphase response hfinish =>
      rw [skipped_set_same _ hcall op _ _ (by simp [Call.isPast, hphase])]
      exact (and_iff_left (waitsIn_of_phase hcall (by simp [hphase]))).symm
  | fail index call hcall hphase error hfinish =>
      rw [skipped_set_same _ hcall op _ _ (by simp [Call.isPast, hphase])]
      exact (and_iff_left (waitsIn_of_phase hcall (by simp [hphase]))).symm

/-- **Run lemma.**  Nobody has skipped the wait of an operation exactly when no step
of the run was such a test. -/
theorem run_skipped {guard : System ι → Action ι → Prop} {history : List (System ι × Action ι)}
    {s : System ι} (hrun : (rendezvousMachine ι).Run guard history s) (op : Nat) :
    s.skipped op = 0 ↔ ∀ move ∈ history, WaitsIn op move.1 move.2 := by
  refine hrun.induction
    (fun history s => s.skipped op = 0 ↔ ∀ move ∈ history, WaitsIn op move.1 move.2) ?_ ?_
  · rintro s rfl
    simp [System.skipped]
  · intro history s action t hbefore ih _ hstep
    have hinv := reachable_inv hbefore.reachable
    rw [(hinv.step_move hstep).skipped hinv op, ih]
    simp only [List.forall_mem_append, List.forall_mem_singleton]

/-- When all calls of an operation are past the rendezvous, those that did not count
themselves out are those that skipped the wait. -/
theorem System.joined_eq_of_past {s : System ι} {op : Nat}
    (hpast : ∀ call ∈ s.calls, call.opId = op → call.isPast = true) :
    s.joined op = s.gone op + s.skipped op := by
  have hsplit := List.countP_eq_countP_filter_add s.calls
    (fun call => decide (call.opId = op)) Call.left
  rw [List.countP_filter, List.countP_filter] at hsplit
  have hskipped : s.skipped op =
      s.calls.countP fun call => decide (call.opId = op) && !call.left := by
    apply List.countP_congr
    intro call hcall
    by_cases hop : call.opId = op
    · simp [hop, hpast call hcall hop]
    · simp [hop]
  rw [hskipped]
  exact hsplit

theorem BarrierCalls.unmixed {n : Nat} {s : System ι} {action : Action ι}
    (h : BarrierCalls n s action) : Unmixed (fun _ => true) n s action := by
  cases action with
  | enter client rpc =>
      constructor
      · rintro -
        rw [show rpc = .barrier ⟨n⟩ from h]
        rfl
      · exact fun _ _ _ => rfl
  | resume index => trivial

/-- The entries of a closed operation whose calls have all returned are deleted
exactly when nobody skipped the wait. -/
theorem Inv.deleted_iff {s : System ι} (hinv : Inv s) {op : Nat} (hclosed : op < s.open)
    (hreturned : ∀ call ∈ s.calls, call.opId = op → call.hasReturned = true) :
    Deleted op s ↔ s.skipped op = 0 := by
  have hjoined : s.joined op = s.gone op + s.skipped op :=
    s.joined_eq_of_past fun call hcall hop => Call.isPast_of_hasReturned (hreturned call hcall hop)
  unfold Deleted
  rw [← hinv.same_keys, and_self, OrderedDict.notMem_keys_iff, hinv.ctr_closed op hclosed]
  by_cases hall : s.joined op = s.gone op
  · rw [if_pos hall]
    constructor
    · intro _
      omega
    · intro _
      rfl
  · rw [if_neg hall]
    constructor
    · nofun
    · intro _
      omega

/-- Both maps hold one entry when the counters do. -/
theorem Inv.events_singleton_iff {s : System ι} (hinv : Inv s) (op : Nat) :
    s.controller.barrierEvents.keys = [op] ↔ s.controller.barrierCtrs.keys = [op] := by
  rw [OrderedDict.keys_eq_singleton_iff, OrderedDict.keys_eq_singleton_iff]
  simp only [hinv.same_keys]

/-- When no call is in progress, the counters hold the open operation alone exactly when
nobody has skipped a wait. -/
theorem Inv.quiet_iff {s : System ι} (hinv : Inv s)
    (hpast : ∀ call ∈ s.calls, call.isPast = true → call.opId < s.open)
    (hquiet : ∀ call ∈ s.calls, call.hasReturned = true) :
    s.controller.barrierCtrs.keys = [s.open] ↔ ∀ op, s.skipped op = 0 := by
  have hopen : s.open ∈ s.controller.barrierCtrs.keys :=
    OrderedDict.mem_keys_of_get? hinv.ctr_open
  have hlater (op : Nat) (hop : s.open < op) : op ∉ s.controller.barrierCtrs.keys := by
    rw [OrderedDict.notMem_keys_iff]
    exact hinv.ctr_later op hop
  have hclosed (op : Nat) (hop : op < s.open) :
      op ∉ s.controller.barrierCtrs.keys ↔ s.skipped op = 0 := by
    rw [← hinv.deleted_iff hop fun call hcall _ => hquiet call hcall, Deleted, ← hinv.same_keys,
      and_self]
  -- nobody joins an operation that is not closed and returns
  have hnone (op : Nat) (hop : ¬ op < s.open) : s.skipped op = 0 := by
    apply List.countP_eq_zero.mpr
    intro call hcall h
    have hlt := hpast call hcall (Call.isPast_of_hasReturned (hquiet call hcall))
    simp only [Bool.and_eq_true, decide_eq_true_eq] at h
    omega
  rw [OrderedDict.keys_eq_singleton_iff]
  constructor
  · intro hsingle op
    by_cases hop : op < s.open
    · rw [← hclosed op hop, hsingle]
      omega
    · exact hnone op hop
  · intro hskipped op
    rcases Nat.lt_trichotomy op s.open with hop | hop | hop
    · have hout := (hclosed op hop).mpr (hskipped op)
      constructor
      · intro hmem
        exact absurd hmem hout
      · intro heq
        omega
    · subst hop
      exact iff_of_true hopen rfl
    · constructor
      · intro hmem
        exact absurd hmem (hlater op hop)
      · intro heq
        omega

/-- **Reclaiming.**  A round whose calls have all returned is reclaimed exactly when
every test of the round outside the lock found the counter below `num_workers`.
When no call is in progress, the two maps hold the open operation alone exactly when
every test of the run did. -/
theorem barrier_reclaimed {n : Nat} (hn : 1 ≤ n) {history : List (System ι × Action ι)}
    {s : System ι} (hrun : (rendezvousMachine ι).Run (BarrierCalls n) history s) :
    (∀ op, RoundReturned n op s →
      (Deleted op s ↔ ∀ move ∈ history, WaitsIn op move.1 move.2)) ∧
    ((∀ call ∈ s.calls, call.hasReturned = true) →
      (s.controller.barrierCtrs.keys = [s.open] ∧
          s.controller.barrierEvents.keys = [s.open] ↔
        ∀ move ∈ history, ∀ op, WaitsIn op move.1 move.2)) := by
  have hinv := reachable_inv hrun.reachable
  have hcohorts := reachable_cohorts hn (fun _ _ h => h.unmixed) hrun.reachable
  have hpast (call : Call ι) (hcall : call ∈ s.calls) (h : call.isPast = true) :
      call.opId < s.open :=
    hcohorts.past call hcall rfl h
  constructor
  · rintro op ⟨hjoined, hreturned⟩
    obtain ⟨call, hcall, hop⟩ := List.countP_pos_iff.mp (show 0 < s.joined op by omega)
    have hop : call.opId = op := by simpa using hop
    have hclosed : op < s.open := by
      rw [← hop]
      exact hpast call hcall (Call.isPast_of_hasReturned (hreturned call hcall hop))
    rw [hinv.deleted_iff hclosed hreturned, run_skipped hrun]
  · intro hquiet
    rw [hinv.events_singleton_iff, and_self, hinv.quiet_iff hpast hquiet]
    simp only [run_skipped hrun]
    constructor
    · intro h move hmove op
      exact h op move hmove
    · intro h op move hmove
      exact h move hmove op

/-- The schedule in which the call that closes the operation waits as well: the first
call has counted itself out before the second one tests the counter. -/
def reclaimingSchedule : List (Action Unit) :=
  [.enter () (.barrier ⟨2⟩), .resume 0, .enter () (.barrier ⟨2⟩), .resume 0, .resume 0, .resume 1,
    .resume 1, .resume 1, .resume 0, .resume 1]

/-- After it the round is reclaimed. -/
theorem barrier_reclaimed_two_workers :
    ∃ (history : List (System Unit × Action Unit)) (s : System Unit), RoundReturned 2 0 s ∧
      (Deleted 0 s ↔ ∀ move ∈ history, WaitsIn 0 move.1 move.2) ∧ Deleted 0 s := by
  have hrun := Machine.run_of_exec (rendezvousMachine Unit) (BarrierCalls 2) ⟨.initial, []⟩
    reclaimingSchedule rfl rfl
  have hreclaimed := (barrier_reclaimed (by decide) hrun).1 0 ⟨rfl, by decide⟩
  exact ⟨_, _, ⟨rfl, by decide⟩, hreclaimed, by decide, by decide⟩

/-- Without the condition the property fails: the call that closes the operation
tests the counter while it is two, returns without counting itself out, and the
entries of the round stay with counter one. -/
theorem barrier_not_reclaimed :
    ¬ ∀ n ≥ 1, ∀ s : System Unit, (rendezvousMachine Unit).Reachable (BarrierCalls n) s →
      ∀ op, RoundReturned n op s → Deleted op s := by
  intro hall
  have hrun := Machine.run_of_exec (rendezvousMachine Unit) (BarrierCalls 2) ⟨.initial, []⟩
    [.enter () (.barrier ⟨2⟩), .resume 0, .enter () (.barrier ⟨2⟩), .resume 1, .resume 1,
      .resume 0, .resume 0, .resume 0] rfl rfl
  have hdeleted := hall 2 (by decide) _ hrun.reachable 0 ⟨rfl, by decide⟩
  exact absurd hdeleted.1 (by decide)

end Controller
end FlashReduce
