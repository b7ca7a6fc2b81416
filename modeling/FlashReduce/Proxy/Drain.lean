import FlashReduce.Library.ListUpdate
import FlashReduce.Proxy.FineSystem
import FlashReduce.Proxy.Ownership

/-!
# Draining the queue

The worker runs alone: no other thread takes a step any more, and each progress
callback finishes its operation in a certain number of calls.  Then the queue
becomes empty, and the number of iterations that this takes is bounded.

* `alone` is the proxy without other threads.  Its only choice is what a progress
  callback does, and that is a parameter (`Callbacks`).
* A finished operation leaves the queue only when the worker is at the operation
  before it, and after a removal the worker can be at an operation that is
  finished and that it neither runs nor removes.  The budget (`budget`) pays for
  both: each operation for its calls and its removal, and the worker for one
  iteration at an operation that is finished.
* `worker_drains`: the queue is drained within one iteration for each call and
  one for each operation.
-/

namespace FlashReduce
namespace Proxy

open Library Library.Machine

variable {Chan : Type}

/-! ### The worker alone -/

/-- The state of the proxy, and the number of calls of each progress callback that have
returned. -/
structure Alone (Chan : Type) where
  sys : System Chan
  calls : Slot → Nat

/-- The state and the idle flag that each call of each progress callback leaves. -/
abbrev Callbacks := Slot → Nat → ProxyOpState × Bool

/-- The next step of the worker or of the callback that it runs. -/
def Alone.action (callbacks : Callbacks) (a : Alone Chan) : Action Chan :=
  match a.sys.worker.pc with
  | .running op =>
      .progressReturn (callbacks op (a.calls op)).1 (callbacks op (a.calls op)).2
  | _ => .worker

/-- The calls that have returned after that step. -/
def Alone.count (a : Alone Chan) : Slot → Nat :=
  match a.sys.worker.pc with
  | .running op => Function.update a.calls op (a.calls op + 1)
  | _ => a.calls

theorem Alone.action_running {a : Alone Chan} {op : Slot} (callbacks : Callbacks)
    (hpc : a.sys.worker.pc = .running op) : a.action callbacks =
      .progressReturn (callbacks op (a.calls op)).1 (callbacks op (a.calls op)).2 := by
  simp [Alone.action, hpc]

theorem Alone.count_running {a : Alone Chan} {op : Slot} (hpc : a.sys.worker.pc = .running op) :
    a.count = Function.update a.calls op (a.calls op + 1) := by
  simp [Alone.count, hpc]

theorem Alone.action_worker {a : Alone Chan} (callbacks : Callbacks)
    (hrunning : ∀ op, a.sys.worker.pc ≠ .running op) : a.action callbacks = .worker := by
  unfold Alone.action
  split
  · next op hpc => exact absurd hpc (hrunning op)
  · rfl

theorem Alone.count_worker {a : Alone Chan} (hrunning : ∀ op, a.sys.worker.pc ≠ .running op) :
    a.count = a.calls := by
  unfold Alone.count
  split
  · next op hpc => exact absurd hpc (hrunning op)
  · rfl

/-- The operation is in the ring or in a chain behind it. -/
def Queued (s : System Chan) (op : Slot) : Prop :=
  ∃ head, Reaches s.store.next s.store.ops head ∧ Reaches s.store.nextPeer (some head) op

/-- From `s` on, the callback of the operation sets `ProxyOpNone` in its `k`-th call and in no
call before. -/
structure FinishesAfter (s : System Chan) (callbacks : Callbacks) (op : Slot) (k : Nat) :
    Prop where
  zero : k = 0 ↔ s.store.state op = .proxyOpNone
  last : ∀ j, j < k → ((callbacks op j).1 = .proxyOpNone ↔ j + 1 = k)

/-- The iterations of `persistentThread` that a history completes. -/
def iterations (history : List (Alone Chan × Unit)) : Nat :=
  history.countP fun move => move.1.sys.worker.pc.isAdvance

/-! ### The budget -/

/-- The calls that are missing, and one removal for each operation. -/
def load (k calls : Slot → Nat) (ring : List (Entry Chan)) : Nat :=
  ((queued ring).map fun op => k op - calls op + 1).sum

/-- One iteration at an operation that is finished, unless the worker is at one that is not. -/
def spare (state : Slot → ProxyOpState) : Pc → Nat
  | .top (some op) => if state op = .proxyOpNone then 1 else 0
  | .visit op => if state op = .proxyOpNone then 1 else 0
  | .running _ => 0
  | _ => 1

/-- The iterations that are left at most. -/
def budget (k calls : Slot → Nat) (cfg : Config Chan) : Nat :=
  load k calls cfg.ring + spare cfg.sys.store.state cfg.sys.worker.pc

/-- The steps until the end of the iteration. -/
def Pc.rank : Pc → Nat
  | .waking => 6
  | .top _ => 5
  | .fetch => 4
  | .visit _ => 3
  | .running _ => 2
  | .advance _ => 1
  | .sleeping => 0
  | .returned _ => 0

theorem spare_le (state : Slot → ProxyOpState) (pc : Pc) : spare state pc ≤ 1 := by
  unfold spare
  split
  · split_ifs <;> omega
  · split_ifs <;> omega
  · omega
  · omega

/-- Without a current operation the worker has its spare iteration. -/
theorem spare_of_op {state : Slot → ProxyOpState} {pc : Pc} (hop : pc.op = none) :
    spare state pc = 1 := by
  cases pc with
  | top op => cases op <;> simp_all [Pc.op, spare]
  | visit op | running op | advance op => simp [Pc.op] at hop
  | fetch | sleeping | waking | returned => rfl

/-- Before the first call. -/
theorem load_start (k : Slot → Nat) (ring : List (Entry Chan)) :
    load k (fun _ => 0) ring = ((queued ring).map k).sum + (queued ring).length := by
  unfold load
  induction queued ring with
  | nil => rfl
  | cons op rest ih =>
      simp only [List.map_cons, List.sum_cons, List.length_cons, Nat.sub_zero] at ih ⊢
      omega

/-- A call of the callback is paid for. -/
theorem load_call {k calls : Slot → Nat} {ring : List (Entry Chan)} {op : Slot}
    (hnodup : (queued ring).Nodup) (hop : op ∈ queued ring) (hopen : calls op < k op) :
    load k (Function.update calls op (calls op + 1)) ring + 1 = load k calls ring := by
  refine sum_map_pred hnodup hop (fun x _ hne => ?_) ?_
  · rw [Function.update_of_ne hne]
  · rw [Function.update_self]
    omega

/-- The removal of a finished operation is paid for. -/
theorem load_remove (front back : List (Entry Chan)) {k calls : Slot → Nat} {e : Entry Chan}
    (hdone : calls e.head = k e.head) :
    load k calls (front ++ e.pop.toList ++ back) + 1 = load k calls (front ++ e :: back) := by
  have hperm : (e.head :: queued (front ++ e.pop.toList ++ back)).Perm
      (queued (front ++ e :: back)) := queued_freed front back e []
  have hsum := (hperm.map fun op => k op - calls op + 1).sum_nat
  rw [List.map_cons, List.sum_cons] at hsum
  unfold load
  omega

/-! ### Running callbacks -/

variable [DecidableEq Chan]

/-- The proxy from `s` on, without steps of other threads. -/
def alone (callbacks : Callbacks) (s : System Chan) : Machine (Alone Chan) Unit where
  init a := a = ⟨s, fun _ => 0⟩
  step a _ := (step a.sys (a.action callbacks)).map fun sys => ⟨sys, a.count⟩

omit [DecidableEq Chan] in
/-- The worker runs the callback of an operation that is in the queue. -/
theorem Inv.running_queued {s : System Chan} {ring : List (Entry Chan)} {free : List Slot}
    {op : Slot} (hinv : Inv ⟨s, ring, free⟩) (hpc : s.worker.pc = .running op) :
    op ∈ queued ring := by
  have hhead : op ∈ heads ring := hinv.cursor op (by simp [hpc, Pc.op])
  exact (heads_sublist_queued ring).subset hhead

/-- The worker runs the callback of an operation that is not finished. -/
theorem reachable_running {guard : System Chan → Action Chan → Prop} {s : System Chan}
    (hreach : (machine Chan).Reachable guard s) :
    ∀ op, s.worker.pc = .running op → s.store.state op ≠ .proxyOpNone := by
  refine hreach.induction
    (fun s => ∀ op, s.worker.pc = .running op → s.store.state op ≠ .proxyOpNone) ?_ ?_
  · rintro s rfl op hpc
    cases hpc
  · intro s action t hbefore hrunning hguard hstep op hpc
    obtain ⟨ring, free, hinv⟩ := reachable_inv hbefore
    obtain ⟨ring', free', hmove⟩ := hinv.step_move hstep
    cases hmove with
    | allocate | allocateReturn | crash | startEmpty | setAbortFlag => exact hrunning op hpc
    | allocateBlock hblock =>
        have hold : op.block < s.store.nextBlock := by
          refine hinv.blocks_lt _ ((hinv.mem_slots op).mp ?_)
          simp [Config.slots, hinv.running_queued hpc]
        have hne : op.block ≠ s.store.nextBlock := by omega
        simpa [Store.addPool, hne] using hrunning op hpc
    | @fill _ _ _ slot state proxyTail hmem =>
        have hne : op ≠ slot := by
          rintro rfl
          exact (hinv.held_apart hmem).2 (List.mem_append_right free (hinv.running_queued hpc))
        simpa [Store.fill, hne] using hrunning op hpc
    | append hmem htail hws => simpa using hrunning op hpc
    | start hops | requestStop =>
        refine hrunning op ?_
        unfold Worker.signal at hpc
        split at hpc
        · cases hpc
        · exact hpc
    | run hpc' hstate =>
        cases hpc
        exact hstate
    | keep hpc' hfollows hstate =>
        rw [Worker.endIteration_pc] at hpc
        cases hpc
    | remove hpc' hfollows hstate hws =>
        rw [Worker.endIteration_pc] at hpc
        cases hpc
    | _ => cases hpc

/-! ### The invariant of the worker alone -/

omit [DecidableEq Chan] in
theorem Inv.queued_nodup {cfg : Config Chan} (hinv : Inv cfg) : (queued cfg.ring).Nodup :=
  (List.nodup_append.mp hinv.represents.nodup).2.1

/-- What holds while the worker works off the operations `ops`, which are finished after `k`
calls each. -/
structure Draining (ops : List Slot) (k calls : Slot → Nat) (cfg : Config Chan) : Prop where
  inv : Inv cfg
  live : cfg.sys.crashed = false
  abortFlag : cfg.sys.store.abortFlag = false
  awake : cfg.sys.worker.pc ≠ .sleeping
  working : ∀ stopped, cfg.sys.worker.pc ≠ .returned stopped
  unfinished : ∀ op, cfg.sys.worker.pc = .running op → cfg.sys.store.state op ≠ .proxyOpNone
  calls_le : ∀ op ∈ queued cfg.ring, calls op ≤ k op
  finished_iff : ∀ op ∈ queued cfg.ring,
    cfg.sys.store.state op = .proxyOpNone ↔ calls op = k op
  queued_subset : ∀ op ∈ queued cfg.ring, op ∈ ops
  placed : ∀ op ∈ ops, op ∈ queued cfg.ring ∨ op ∈ cfg.free

/-- A step pays for the iteration that it ends, and it ends one or comes nearer to the end of
one. -/
structure Pays (k calls calls' : Slot → Nat) (cfg cfg' : Config Chan) : Prop where
  budget : budget k calls' cfg' + (if cfg.sys.worker.pc.isAdvance then 1 else 0) ≤
    budget k calls cfg
  rank : cfg.sys.worker.pc.isAdvance = false →
    cfg'.sys.worker.pc.rank < cfg.sys.worker.pc.rank

variable {s s' : System Chan} {ops : List Slot} {k calls calls' : Slot → Nat} {cfg : Config Chan}
  {ring front back : List (Entry Chan)} {free : List Slot} {e : Entry Chan} {op : Slot}
  {callbacks : Callbacks}

omit [DecidableEq Chan] in
/-- A step that changes neither the queue nor the state of an operation. -/
theorem Draining.quiet {pc : Pc} (h : Draining ops k calls ⟨s, ring, free⟩)
    (hinv : Inv ⟨s', ring, free⟩) (hlive : s'.crashed = s.crashed)
    (habort : s'.store.abortFlag = s.store.abortFlag) (hstate : s'.store.state = s.store.state)
    (hpc : s'.worker.pc = pc) (hawake : pc ≠ .sleeping) (hworking : ∀ stopped, pc ≠ .returned stopped)
    (hrunning : ∀ op, pc = .running op → s'.store.state op ≠ .proxyOpNone) :
    Draining ops k calls ⟨s', ring, free⟩ := by
  subst hpc
  exact ⟨hinv, hlive.trans h.live, habort.trans h.abortFlag, hawake, hworking, hrunning, h.calls_le,
    fun op hop => by rw [hstate]; exact h.finished_iff op hop, h.queued_subset, h.placed⟩

theorem Pc.rank_le (pc : Pc) : pc.rank ≤ 6 := by
  cases pc <;> simp [Pc.rank]

omit [DecidableEq Chan] in
/-- Eight steps are more than an iteration takes. -/
theorem Pays.measure {cfg' : Config Chan} (h : Pays k calls calls' cfg cfg') :
    8 * Proxy.budget k calls' cfg' + cfg'.sys.worker.pc.rank <
      8 * Proxy.budget k calls cfg + cfg.sys.worker.pc.rank := by
  have hbudget := h.budget
  have hle := Pc.rank_le cfg'.sys.worker.pc
  cases hadvance : cfg.sys.worker.pc.isAdvance with
  | false =>
      have hrank := h.rank hadvance
      rw [hadvance] at hbudget
      simp only [Bool.false_eq_true, if_false] at hbudget
      omega
  | true =>
      rw [hadvance] at hbudget
      simp only [if_true] at hbudget
      omega

omit [DecidableEq Chan] in
/-- A step that changes neither the queue nor what is missing. -/
theorem Pays.quiet {pc pc' : Pc} (hpc : s.worker.pc = pc) (hpc' : s'.worker.pc = pc')
    (hspare : spare s'.store.state pc' ≤ spare s.store.state pc) (hrank : pc'.rank < pc.rank)
    (hadvance : pc.isAdvance = false) :
    Pays k calls calls ⟨s, ring, free⟩ ⟨s', ring, free⟩ := by
  subst hpc hpc'
  refine ⟨?_, fun _ => hrank⟩
  rw [hadvance]
  exact Nat.add_le_add_left hspare _

/-- The worker is not stuck while it runs alone. -/
theorem Draining.enabled (h : Draining ops k calls ⟨s, ring, free⟩)
    (hrunning : ∀ op, s.worker.pc ≠ .running op) : ∃ s', workerStep s = some s' := by
  have habort : s.store.abortFlag = false := h.abortFlag
  unfold workerStep
  cases hpc : s.worker.pc with
  | top op => cases op <;> simp [habort]
  | fetch =>
      cases s.store.ops with
      | none => cases s.store.stop <;> simp
      | some op => simp
  | sleeping => exact absurd hpc h.awake
  | waking => simp
  | visit op => by_cases hstate : s.store.state op = .proxyOpNone <;> simp [hstate]
  | running op => exact absurd hpc (hrunning op)
  | advance op =>
      have hop : op ∈ heads ring := h.inv.cursor op (by simp [hpc, Pc.op])
      obtain ⟨front, e, back, rfl, hfollows⟩ := exists_follows hop
      by_cases hstate : s.store.state e.head = .proxyOpNone
      · obtain ⟨ws, hws, -, -⟩ := h.inv.represents.advance_remove hfollows hstate
        simp [hws]
      · simp [h.inv.represents.advance_keep hfollows hstate]
  | returned stopped => exact absurd hpc (h.working stopped)

omit [DecidableEq Chan] in
/-- A finished operation that follows the worker's is removed. -/
theorem Draining.removed {next : Option Slot}
    (h : Draining ops k calls ⟨s, front ++ e :: back, free⟩)
    (hinv : Inv ⟨s', front ++ e.pop.toList ++ back, e.head :: free⟩)
    (hlive : s'.crashed = s.crashed) (habort : s'.store.abortFlag = s.store.abortFlag)
    (hstate : s'.store.state = s.store.state) (hpc : s'.worker.pc = .top next) :
    Draining ops k calls ⟨s', front ++ e.pop.toList ++ back, e.head :: free⟩ := by
  have hplaces := queued_freed front back e free
  have hsubset : ∀ op ∈ queued (front ++ e.pop.toList ++ back),
      op ∈ queued (front ++ e :: back) := by
    intro op hop
    have hmem := (queued_freed front back e []).mem_iff.mp (List.mem_append_right _ hop)
    simpa using hmem
  refine ⟨hinv, hlive.trans h.live, habort.trans h.abortFlag, by simp [hpc], by simp [hpc],
    by simp [hpc], fun op hop => h.calls_le op (hsubset op hop), ?_,
    fun op hop => h.queued_subset op (hsubset op hop), ?_⟩
  · intro op hop
    rw [hstate]
    exact h.finished_iff op (hsubset op hop)
  · intro op hop
    have hold : op ∈ free ++ queued (front ++ e :: back) :=
      List.mem_append.mpr (h.placed op hop).symm
    exact (List.mem_append.mp (hplaces.mem_iff.mpr hold)).symm

/-! ### One step -/

/-- The callback returns. -/
theorem Draining.progress (h : Draining ops k calls ⟨s, ring, free⟩)
    (hlast : ∀ op ∈ ops, ∀ j, j < k op → ((callbacks op j).1 = .proxyOpNone ↔ j + 1 = k op))
    (hpc : s.worker.pc = .running op) (hstep : step s (.progressReturn
      (callbacks op (calls op)).1 (callbacks op (calls op)).2) = some s') :
    Draining ops k (Function.update calls op (calls op + 1)) ⟨s', ring, free⟩ ∧
      Pays k calls (Function.update calls op (calls op + 1)) ⟨s, ring, free⟩ ⟨s', ring, free⟩ := by
  have hop : op ∈ queued ring := h.inv.running_queued hpc
  -- an unfinished operation has a call left
  have hopen : calls op < k op := by
    have hle := h.calls_le op hop
    have hne : calls op ≠ k op := fun heq => h.unfinished op hpc ((h.finished_iff op hop).mpr heq)
    omega
  have hreturn := hlast op (h.queued_subset op hop) (calls op) hopen
  obtain ⟨ring', free', hmove⟩ := h.inv.step_move hstep
  have hinv := h.inv.move hmove
  cases hmove with
  | progressReturn hpc' =>
  cases hpc.symm.trans hpc'
  refine ⟨⟨hinv, h.live, h.abortFlag, by simp, by simp, by simp, ?_, ?_, h.queued_subset,
    h.placed⟩, ?_, ?_⟩
  · intro x hx
    by_cases hxop : x = op
    · rw [hxop, Function.update_self]
      omega
    · rw [Function.update_of_ne hxop]
      exact h.calls_le x hx
  · intro x hx
    change Function.update s.store.state op _ x = _ ↔ _
    by_cases hxop : x = op
    · rw [hxop, Function.update_self, Function.update_self]
      exact hreturn
    · rw [Function.update_of_ne hxop, Function.update_of_ne hxop]
      exact h.finished_iff x hx
  · have hnodup : (queued ring).Nodup := h.inv.queued_nodup
    have hload := load_call hnodup hop hopen
    simp only [budget, spare, hpc, Pc.isAdvance, Bool.false_eq_true, if_false]
    omega
  · intro _
    simp [hpc, Pc.rank]

/-- Any other step of the worker. -/
theorem Draining.worker (h : Draining ops k calls ⟨s, ring, free⟩) (hops : s.store.ops ≠ none)
    (hstep : workerStep s = some s') : ∃ ring' free',
      Draining ops k calls ⟨s', ring', free'⟩ ∧
        Pays k calls calls ⟨s, ring, free⟩ ⟨s', ring', free'⟩ := by
  obtain ⟨ring', free', hmove⟩ := h.inv.worker_move hstep
  have hinv := h.inv.move hmove
  refine ⟨ring', free', ?_⟩
  cases hmove with
  | abort hpc hflag => cases hflag.symm.trans h.abortFlag
  | stop hpc hnone | sleep hpc hnone => exact absurd hnone hops
  | topFetch hpc hflag =>
      exact ⟨h.quiet hinv rfl rfl rfl rfl nofun nofun nofun,
        .quiet hpc rfl (Nat.le_refl 1) (by simp [Pc.rank]) rfl⟩
  | topVisit hpc hflag =>
      exact ⟨h.quiet hinv rfl rfl rfl rfl nofun nofun nofun,
        .quiet hpc rfl (Nat.le_refl _) (by simp [Pc.rank]) rfl⟩
  | fetchVisit hpc hsome =>
      exact ⟨h.quiet hinv rfl rfl rfl rfl nofun nofun nofun,
        .quiet hpc rfl (spare_le _ _) (by simp [Pc.rank]) rfl⟩
  | wake hpc =>
      exact ⟨h.quiet hinv rfl rfl rfl rfl nofun nofun nofun,
        .quiet hpc rfl (Nat.le_refl 1) (by simp [Pc.rank]) rfl⟩
  | run hpc hstate =>
      refine ⟨h.quiet hinv rfl rfl rfl rfl nofun nofun ?_,
        .quiet hpc rfl (Nat.zero_le _) (by simp [Pc.rank]) rfl⟩
      intro op hop
      cases hop
      exact hstate
  | skip hpc hstate =>
      exact ⟨h.quiet hinv rfl rfl rfl rfl nofun nofun nofun,
        .quiet hpc rfl (by simp [spare, hstate]) (by simp [Pc.rank]) rfl⟩
  | @keep _ front e back _ op hpc hfollows hstate =>
      have htop : (s.worker.endIteration (some e.head) s.store.ops).pc = .top (some e.head) :=
        Worker.endIteration_pc ..
      refine ⟨h.quiet hinv rfl rfl rfl htop nofun nofun nofun, ?_, ?_⟩
      -- the iteration is paid for by the spare one
      · simp [budget, htop, hpc, spare, hstate, Pc.isAdvance]
      · simp [hpc, Pc.isAdvance]
  | @remove _ front e back _ op ws hpc hfollows hstate hws =>
      have htop := Worker.endIteration_pc s.worker
        (heads (e.pop.toList ++ (back ++ front))).head? (s.store.writes ws).ops
      have hdone := (h.finished_iff e.head (by simp [e.head_mem_slots])).mp hstate
      refine ⟨h.removed hinv rfl (writes_abortFlag _ _) (writes_state _ _) htop, ?_, ?_⟩
      -- the iteration is paid for by the removal
      · have hload := load_remove front back hdone
        have hspare := spare_le s.store.state (.top (heads (e.pop.toList ++ (back ++ front))).head?)
        simp only [budget, htop, hpc, writes_state, Pc.isAdvance, if_true, spare] at hspare ⊢
        omega
      · simp [hpc, Pc.isAdvance]

/-- The worker alone takes a step while the queue is not empty, and pays for it. -/
theorem Draining.step {start : System Chan} {a : Alone Chan}
    (h : Draining ops k a.calls ⟨a.sys, ring, free⟩)
    (hlast : ∀ op ∈ ops, ∀ j, j < k op → ((callbacks op j).1 = .proxyOpNone ↔ j + 1 = k op))
    (hops : a.sys.store.ops ≠ none) : ∃ a' ring' free',
      (alone callbacks start).Allowed anyMove a (a, ()) a' ∧
        Draining ops k a'.calls ⟨a'.sys, ring', free'⟩ ∧
          Pays k a.calls a'.calls ⟨a.sys, ring, free⟩ ⟨a'.sys, ring', free'⟩ := by
  have hlive : a.sys.crashed = false := h.live
  by_cases hrunning : ∃ op, a.sys.worker.pc = .running op
  · obtain ⟨op, hpc⟩ := hrunning
    obtain ⟨s', hs⟩ : ∃ s', Proxy.step a.sys (.progressReturn (callbacks op (a.calls op)).1
        (callbacks op (a.calls op)).2) = some s' := by
      simp [Proxy.step, hlive, liveStep, progressReturn, hpc]
    obtain ⟨hdraining, hpays⟩ := h.progress hlast hpc hs
    refine ⟨⟨s', _⟩, ring, free, ⟨rfl, trivial, ?_⟩, hdraining, hpays⟩
    change (Proxy.step a.sys (a.action callbacks)).map _ = _
    rw [a.action_running callbacks hpc, hs, Alone.count_running hpc]
    rfl
  · rw [not_exists] at hrunning
    obtain ⟨s', hs⟩ := h.enabled hrunning
    obtain ⟨ring', free', hdraining, hpays⟩ := h.worker hops hs
    refine ⟨⟨s', a.calls⟩, ring', free', ⟨rfl, trivial, ?_⟩, hdraining, hpays⟩
    change (Proxy.step a.sys (a.action callbacks)).map _ = _
    rw [Alone.action_worker callbacks hrunning, Alone.count_worker hrunning]
    simp [Proxy.step, hlive, liveStep, hs]

/-! ### The whole run -/

omit [DecidableEq Chan] in
/-- The operations that memory shows as queued are those of the entries. -/
theorem Inv.queued_iff {op : Slot} (hinv : Inv ⟨s, ring, free⟩) :
    Queued s op ↔ op ∈ queued ring := by
  have hchains := hinv.represents.chains
  constructor
  · rintro ⟨head, hhead, hop⟩
    obtain ⟨e, he, rfl⟩ := List.mem_map.mp (hinv.reaches_ops_iff.mp hhead)
    exact mem_queued.mpr ⟨e, he, (hchains.chains e he).mem_of_reaches hop⟩
  · intro hop
    obtain ⟨e, he, hop⟩ := mem_queued.mp hop
    exact ⟨e.head, hinv.reaches_ops_iff.mpr (List.mem_map_of_mem he),
      (hchains.chains e he).reaches hop⟩

/-- The worker alone gets to an empty queue and does not spend more than its budget. -/
theorem Draining.drains {start : System Chan} (a : Alone Chan)
    (h : Draining ops k a.calls ⟨a.sys, ring, free⟩)
    (hlast : ∀ op ∈ ops, ∀ j, j < k op → ((callbacks op j).1 = .proxyOpNone ↔ j + 1 = k op)) :
    ∃ history t ring' free', (alone callbacks start).Path anyMove a history t ∧
      t.sys.store.ops = none ∧ Draining ops k t.calls ⟨t.sys, ring', free'⟩ ∧
        iterations history + budget k t.calls ⟨t.sys, ring', free'⟩ ≤
          budget k a.calls ⟨a.sys, ring, free⟩ := by
  have hrule := exists_path_of_measure (alone callbacks start) anyMove
    (fun (a : Alone Chan) (g : List (Entry Chan) × List Slot) =>
      Draining ops k a.calls ⟨a.sys, g.1, g.2⟩)
    (fun a => a.sys.store.ops = none) (fun a => a.sys.worker.pc.isAdvance)
    (fun a g => budget k a.calls ⟨a.sys, g.1, g.2⟩)
    (fun a g => 8 * budget k a.calls ⟨a.sys, g.1, g.2⟩ + a.sys.worker.pc.rank)
  obtain ⟨history, t, ⟨ring', free'⟩, hpath, hempty, hend, hspent⟩ := hrule (by
    rintro a ⟨ring, free⟩ hdraining hops
    obtain ⟨a', ring', free', hallowed, hnext, hpays⟩ := hdraining.step hlast hops
    exact ⟨(), a', (ring', free'), hallowed, hnext, hpays.budget, hpays.measure⟩)
    a (ring, free) h
  exact ⟨history, t, ring', free', hpath, hempty, hend, hspent⟩

/-- **The worker drains the queue.**  In a reachable state in which it has not returned, is not
asleep and is not told to abort, let the callback of each of the queued operations `ops` finish
it in `k op` calls.  Then the worker alone reaches a state in which `handler->ops` is `NULL`,
every operation is in the pool and every channel cell is `NULL`, after one iteration for each
call and one for each operation at most. -/
theorem worker_drains {s : System Chan} (hreach : (machine Chan).Reachable anyMove s)
    (hlive : s.crashed = false) (habort : s.store.abortFlag = false)
    (hawake : s.worker.pc ≠ .sleeping) (hworking : ∀ stopped, s.worker.pc ≠ .returned stopped) :
    ∃ ops : List Slot, ops.Nodup ∧ (∀ op, op ∈ ops ↔ Queued s op) ∧
      ∀ (callbacks : Callbacks) (k : Slot → Nat),
        (∀ op ∈ ops, FinishesAfter s callbacks op (k op)) →
          ∃ history t, (alone callbacks s).Run anyMove history t ∧
            t.sys.store.ops = none ∧
            iterations history ≤ (ops.map k).sum + ops.length ∧
            (∀ op ∈ ops, Reaches t.sys.store.next t.sys.store.pool op) ∧
            ∀ c, t.sys.store.cell c = none := by
  obtain ⟨ring, free, hinv⟩ := reachable_inv hreach
  refine ⟨queued ring, hinv.queued_nodup, fun op => hinv.queued_iff.symm, ?_⟩
  intro callbacks k hfinishes
  have hlast : ∀ op ∈ queued ring, ∀ j, j < k op →
      ((callbacks op j).1 = .proxyOpNone ↔ j + 1 = k op) := fun op hop => (hfinishes op hop).last
  have hstart : Draining (queued ring) k (fun _ => 0) ⟨s, ring, free⟩ := by
    refine ⟨hinv, hlive, habort, hawake, hworking, reachable_running hreach,
      fun _ _ => Nat.zero_le _, fun op hop => ?_, fun _ hop => hop, fun _ hop => .inl hop⟩
    rw [← (hfinishes op hop).zero]
    exact eq_comm
  obtain ⟨history, t, ring', free', hpath, hempty, hend, hspent⟩ :=
    Draining.drains ⟨s, fun _ => 0⟩ hstart hlast
  obtain rfl : ring' = [] := hend.inv.ring_nil hempty
  refine ⟨history, t, ⟨_, rfl, hpath⟩, hempty, ?_, ?_, ?_⟩
  · have hop : t.sys.worker.pc.op = none := by
      cases hop : t.sys.worker.pc.op with
      | none => rfl
      | some op => cases hend.inv.cursor op hop
    have hleft : budget k t.calls ⟨t.sys, [], free'⟩ = 1 := by
      simp [budget, load, spare_of_op hop]
    have hload := load_start k ring
    have hspare := spare_le s.store.state s.worker.pc
    rw [hleft] at hspent
    simp only [budget] at hspent
    omega
  · intro op hop
    rcases hend.placed op hop with hqueued | hfree
    · cases hqueued
    · exact hend.inv.represents.pool.reaches hfree
  · intro c
    exact hend.inv.represents.chains.idle_cells c (by simp)

/-- Callbacks that finish their operation in the next call. -/
def finishAtOnce : Callbacks := fun _ _ => (.proxyOpNone, false)

/-- The calls that such a callback needs. -/
def oneCall (s : System Chan) (op : Slot) : Nat :=
  if s.store.state op = .proxyOpNone then 0 else 1

omit [DecidableEq Chan] in
theorem finishAtOnce_finishes (s : System Chan) (op : Slot) :
    FinishesAfter s finishAtOnce op (oneCall s op) := by
  unfold oneCall
  split
  · next hstate => exact ⟨by simp [hstate], nofun⟩
  · next hstate =>
      refine ⟨by simp [hstate], fun j hj => ?_⟩
      obtain rfl : j = 0 := by omega
      simp [finishAtOnce]

/-- Two operations of one channel are drained. -/
theorem worker_drains_chain : ∃ s : System Bool, s.store.ops = some ⟨0, 0⟩ ∧
    ∃ history t, (alone finishAtOnce s).Run anyMove history t ∧ t.sys.store.ops = none := by
  have hrun := Machine.run_of_exec (machine Bool) anyMove (.initial Bool)
    (twoOperations.take 8) rfl rfl
  obtain ⟨ops, -, -, hdrains⟩ := worker_drains hrun.reachable rfl rfl nofun nofun
  obtain ⟨history, t, hpath, hempty, -⟩ :=
    hdrains finishAtOnce _ (fun op _ => finishAtOnce_finishes _ op)
  exact ⟨_, rfl, history, t, hpath, hempty⟩

/-- A worker that has returned takes no step any more. -/
theorem alone_returned {stopped : Bool} {history : List (Alone Chan × Unit)} {t : Alone Chan}
    (hpc : s.worker.pc = .returned stopped)
    (hrun : (alone callbacks s).Run anyMove history t) : t.sys = s := by
  refine hrun.induction (fun _ a => a.sys = s) ?_ ?_
  · rintro a rfl
    rfl
  · rintro history a action t - rfl - hstep
    have haction := a.action_worker callbacks (by simp [hpc])
    have hnone : Proxy.step a.sys .worker = none := by
      simp [Proxy.step, liveStep, workerStep, hpc]
    simp [alone, haction, hnone] at hstep

/-- An operation that is appended after the worker has returned stays where it is. -/
theorem returned_drains_nothing : ∃ s : System Bool, (machine Bool).Reachable anyMove s ∧
    s.crashed = false ∧ s.store.abortFlag = false ∧ s.worker.pc ≠ .sleeping ∧
    (∀ op, Queued s op → FinishesAfter s finishAtOnce op (oneCall s op)) ∧
    ∀ history t, (alone finishAtOnce s).Run anyMove history t → t.sys.store.ops ≠ none := by
  have hrun := Machine.run_of_exec (machine Bool) anyMove (.initial Bool)
    [.requestStop, .worker, .worker, .allocateArgs, .allocateArgsReturn ⟨0, 0⟩,
      .fill ⟨0, 0⟩ .proxyOpReady true, .proxyArgsAppend ⟨0, 0⟩] rfl rfl
  refine ⟨_, hrun.reachable, rfl, rfl, nofun, fun op _ => finishAtOnce_finishes _ op, ?_⟩
  intro history t halone
  rw [alone_returned rfl halone]
  nofun

end Proxy
end FlashReduce
