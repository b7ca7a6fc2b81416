import FlashReduce.Proxy.Shutdown

/-!
# The life of a handler

`ProxyCreate`, the calls of a cycle, and `ProxyDestroy` on one handler, any number of
times.  Before the first `ProxyCreate` the fields of the handler hold anything.

* `Lifecycle` is the proxy with the field `proxyThread`, the worker thread that exists,
  and the pool blocks that are allocated and not yet freed.
* `Valid` and `Created` are what is expected of the pointers in every state and of
  the state after a `ProxyCreate`.
* `lifecycle_valid`: they hold in every run in which `ProxyCreate` finds `proxyThread`,
  `pool` and `pools` empty and `ProxyDestroy` frees the blocks only when `ops` and `pool`
  are `NULL`.  `ProxyDestroy` resets none of these fields but `pools`, and
  `lifecycle_second_create` is a second cycle without a worker.
* `broken_of_unclean`: the first step that finds one of the other fields set breaks them.
-/

namespace FlashReduce
namespace Proxy

open Library

variable {Chan : Type}

/-- Where the handler is: before the first `ProxyCreate`, between `ProxyCreate` and
`ProxyDestroy`, in `ProxyDestroy` before it frees the blocks, or after it. -/
inductive Stage
  | fresh
  | active
  | stopping
  | destroyed
  deriving DecidableEq

/-- The proxy, whether `handler->proxyThread` is set, whether there is a thread that was not
joined, and the blocks that were allocated and not freed. -/
structure Lifecycle (Chan : Type) where
  sys : System Chan
  proxyThread : Bool
  thread : Bool
  live : List Nat
  stage : Stage

inductive LifecycleAction (Chan : Type)
  | proxyCreate
  | call (action : Action Chan)
  | proxyDestroy
  | freePools

/-- Which steps of the proxy are possible: the worker needs a thread, and the calls come
after `ProxyCreate` and before the blocks are freed. -/
def Lifecycle.allows (l : Lifecycle Chan) : Action Chan → Prop
  | .setAbortFlag _ => True
  -- the first section of `ProxyDestroy`
  | .requestStop => False
  | .worker => l.thread = true
  | .progressReturn _ _ => l.thread = true
  | .spuriousWakeup => l.thread = true
  | _ => l.stage = .active ∨ l.stage = .stopping

instance (l : Lifecycle Chan) : ∀ action, Decidable (l.allows action)
  | .setAbortFlag _ => inferInstanceAs (Decidable True)
  | .requestStop => inferInstanceAs (Decidable False)
  | .worker => inferInstanceAs (Decidable (l.thread = true))
  | .progressReturn _ _ => inferInstanceAs (Decidable (l.thread = true))
  | .spuriousWakeup => inferInstanceAs (Decidable (l.thread = true))
  | .allocateArgs => inferInstanceAs (Decidable (l.stage = .active ∨ l.stage = .stopping))
  | .allocateArgsReturn _ => inferInstanceAs (Decidable (l.stage = .active ∨ l.stage = .stopping))
  | .fill _ _ _ => inferInstanceAs (Decidable (l.stage = .active ∨ l.stage = .stopping))
  | .proxyArgsAppend _ => inferInstanceAs (Decidable (l.stage = .active ∨ l.stage = .stopping))
  | .proxyStart => inferInstanceAs (Decidable (l.stage = .active ∨ l.stage = .stopping))

/-- The block that a step allocates. -/
def allocatedBlock (s : System Chan) : Action Chan → List Nat
  | .allocateArgs => if s.store.pool = none then [s.store.nextBlock] else []
  | _ => []

/-- `ProxyCreate` -/
def Lifecycle.proxyCreate (l : Lifecycle Chan) : Lifecycle Chan :=
  if l.proxyThread then { l with stage := .active }
  else
    { sys := { l.sys with
        store := { l.sys.store with stop := false, ops := none }
        worker := .initial }
      proxyThread := true
      thread := true
      live := l.live
      stage := .active }

/-- `ProxyDestroy` after the thread was joined: it frees the blocks on `pools`.  Joining no
thread, or freeing what is not allocated, is undefined. -/
def Lifecycle.freePools (l : Lifecycle Chan) : Lifecycle Chan :=
  if (l.proxyThread = true → l.thread = true) ∧ ∀ b ∈ l.sys.store.pools, b ∈ l.live then
    { sys := { l.sys with store := { l.sys.store with pools := [] } }
      proxyThread := l.proxyThread
      thread := false
      live := l.live.filter (· ∉ l.sys.store.pools)
      stage := .destroyed }
  else { l with sys := { l.sys with crashed := true } }

variable [DecidableEq Chan]

/-- One step of a handler. -/
def lifecycleStep (l : Lifecycle Chan) : LifecycleAction Chan → Option (Lifecycle Chan)
  | .proxyCreate =>
      if l.sys.crashed = false ∧ (l.stage = .fresh ∨ l.stage = .destroyed) then
        some l.proxyCreate
      else none
  | .call action =>
      if l.allows action then
        match step l.sys action with
        | none => none
        | some sys => some { l with sys := sys, live := allocatedBlock l.sys action ++ l.live }
      else none
  | .proxyDestroy =>
      if l.stage = .active then
        match step l.sys .requestStop with
        | none => none
        | some sys => some { l with sys := sys, stage := .stopping }
      else none
  | .freePools =>
      if l.sys.crashed = false ∧ l.stage = .stopping ∧
          (l.thread = true → l.sys.worker.pc.isReturned = true) then
        some l.freePools
      else none

/-- A handler before its first `ProxyCreate`: no thread, no blocks and no slots exist, and
the channels have no operations; all fields of the handler hold anything. -/
structure Lifecycle.Fresh (l : Lifecycle Chan) : Prop where
  stage : l.stage = .fresh
  thread : l.thread = false
  live : l.live = []
  returning : l.sys.returning = []
  held : l.sys.held = []
  crashed : l.sys.crashed = false
  cells : ∀ c, l.sys.store.cell c = none

variable (Chan) in
/-- Any number of cycles on one handler. -/
def lifecycle : Machine (Lifecycle Chan) (LifecycleAction Chan) where
  init := Lifecycle.Fresh
  step := lifecycleStep

/-! ### What is expected -/

/-- The pointers of the handler lead to the slot: on the free list, in the ring, or in the
chain behind an operation of the ring. -/
def Referenced (st : Store Chan) (slot : Slot) : Prop :=
  Reaches st.next st.pool slot ∨ Reaches st.next st.ops slot ∨
    ∃ op, Reaches st.next st.ops op ∧ Reaches st.nextPeer (st.nextPeer op) slot

/-- From the first `ProxyCreate` on, every slot that the handler refers to is in a block that
is on `handler->pools` and not freed; until `ProxyDestroy` has freed the blocks, so is
every slot that `allocateArgs` has returned and that was not appended. -/
def Valid (l : Lifecycle Chan) : Prop :=
  l.stage ≠ .fresh → ∀ slot, Referenced l.sys.store slot ∨
    l.stage ≠ .destroyed ∧ slot ∈ l.sys.returning ++ l.sys.held →
      slot.block ∈ l.sys.store.pools ∧ slot.block ∈ l.live

/-- After `ProxyCreate`: a worker that has just started, an empty queue and an empty free
list. -/
structure Created (l : Lifecycle Chan) : Prop where
  thread : l.thread = true
  worker : l.sys.worker = .initial
  ops : l.sys.store.ops = none
  pool : l.sys.store.pool = none

/-- `ProxyCreate` finds a handler without thread, slots and blocks, and `ProxyDestroy` frees
the blocks only when nothing refers to a slot. -/
def CleanCycle (l : Lifecycle Chan) : LifecycleAction Chan → Prop
  | .proxyCreate => l.proxyThread = false ∧ l.sys.store.pool = none ∧ l.sys.store.pools = []
  | .freePools => l.sys.store.ops = none ∧ l.sys.store.pool = none
  | _ => True

instance (l : Lifecycle Chan) : ∀ action, Decidable (CleanCycle l action)
  | .proxyCreate => inferInstanceAs (Decidable (l.proxyThread = false ∧
      l.sys.store.pool = none ∧ l.sys.store.pools = []))
  | .freePools => inferInstanceAs (Decidable (l.sys.store.ops = none ∧ l.sys.store.pool = none))
  | .call _ => inferInstanceAs (Decidable True)
  | .proxyDestroy => inferInstanceAs (Decidable True)

/-! ### Slots and blocks -/

section Blocks

variable {s s' : System Chan} {ring ring' : List (Entry Chan)} {free free' : List Slot}
  {slot : Slot} {action : Action Chan}

omit [DecidableEq Chan] in
/-- Everything that the handler refers to, and everything in the hands of the callers, is in a
block on `handler->pools`. -/
theorem Inv.block_mem (hinv : Inv ⟨s, ring, free⟩)
    (hslot : Referenced s.store slot ∨ slot ∈ s.returning ++ s.held) :
    slot.block ∈ s.store.pools := by
  have h := hinv.represents
  have hhead {op : Slot} (hop : Reaches s.store.next s.store.ops op) : op ∈ heads ring :=
    hinv.reaches_ops_iff.mp hop
  have hplace : slot ∈ free ∨ slot ∈ queued ring ∨ slot ∈ s.returning ++ s.held := by
    rcases hslot with (hpool | hring | ⟨op, hop, hchain⟩) | hheld
    · exact .inl (h.pool.mem_of_reaches hpool)
    · exact .inr (.inl ((heads_sublist_queued ring).subset (hhead hring)))
    · obtain ⟨e, he, rfl⟩ := List.mem_map.mp (hhead hop)
      have hpeers := (h.chains.chains e he).2.mem_of_reaches hchain
      exact .inr (.inl (mem_queued.mpr ⟨e, he, List.mem_cons_of_mem _ hpeers⟩))
    · exact .inr (.inr hheld)
  refine (hinv.mem_slots slot).mp ?_
  simp only [Config.slots, List.mem_append] at hplace ⊢
  tauto

/-- A step adds the block that it allocates, and no other, to `handler->pools`. -/
theorem Inv.pools_move (hinv : Inv ⟨s, ring, free⟩)
    (hmove : Move ⟨s, ring, free⟩ action ⟨s', ring', free'⟩) :
    s'.store.pools = allocatedBlock s action ++ s.store.pools := by
  have hpool := hinv.represents.pool
  cases hmove with
  | allocate =>
      have hhead : s.store.pool ≠ none := by
        rw [hpool.1]
        nofun
      rw [allocatedBlock, if_neg hhead]
      rfl
  | allocateBlock hblock =>
      have hnull : s.store.pool = none := hpool
      rw [allocatedBlock, if_pos hnull]
      rfl
  | append | remove => exact writes_pools _ _
  | _ => rfl

end Blocks

/-! ### The invariant of a cycle -/

/-- What holds in a run of clean cycles. -/
inductive CycleInv (l : Lifecycle Chan) : Prop
  | fresh (hfresh : l.Fresh)
  | running (hstage : l.stage = .active ∨ l.stage = .stopping) (hproxyThread : l.proxyThread = true)
      (hthread : l.thread = true) (hlive : l.live = l.sys.store.pools)
      (hinv : ∃ ring free, Inv ⟨l.sys, ring, free⟩)
  | destroyed (hstage : l.stage = .destroyed) (hproxyThread : l.proxyThread = true)
      (hthread : l.thread = false) (hops : l.sys.store.ops = none)
      (hpool : l.sys.store.pool = none)

variable {l l' : Lifecycle Chan}

omit [DecidableEq Chan] in
/-- From a null pointer nothing is reached. -/
theorem not_referenced {st : Store Chan} {slot : Slot} (hops : st.ops = none)
    (hpool : st.pool = none) : ¬ Referenced st slot := by
  rintro (h | h | ⟨op, h, -⟩)
  · rw [hpool] at h
    cases h
  · rw [hops] at h
    cases h
  · rw [hops] at h
    cases h

omit [DecidableEq Chan] in
theorem CycleInv.valid (h : CycleInv l) : Valid l := by
  intro hstage slot hslot
  cases h with
  | fresh hfresh => exact absurd hfresh.stage hstage
  | running _ _ _ hlive hinv =>
      obtain ⟨ring, free, hinv⟩ := hinv
      have hblock := hinv.block_mem (hslot.imp_right And.right)
      exact ⟨hblock, hlive ▸ hblock⟩
  | destroyed hdestroyed _ _ hops hpool =>
      rcases hslot with hreferenced | ⟨hnot, -⟩
      · exact absurd hreferenced (not_referenced hops hpool)
      · exact absurd hdestroyed hnot

omit [DecidableEq Chan] in
/-- `ProxyCreate` on a handler without slots and blocks. -/
theorem Lifecycle.Fresh.inv (hfresh : l.Fresh) (hpool : l.sys.store.pool = none)
    (hpools : l.sys.store.pools = []) :
    Inv ⟨{ l.sys with
      store := { l.sys.store with stop := false, ops := none }
      worker := .initial }, [], []⟩ where
  represents := ⟨rfl, ⟨nofun, nofun, nofun, fun c _ => hfresh.cells c, List.nodup_nil⟩, rfl, hpool,
    List.nodup_nil, nofun⟩
  slots_nodup := by simp [Config.slots, hfresh.returning, hfresh.held]
  mem_slots := by simp [Config.slots, hfresh.returning, hfresh.held, hpools]
  blocks_lt := by simp [hpools]
  blocks_nodup := by simp [hpools]
  held_nextPeer := by simp [hfresh.held]
  cursor := nofun

omit [DecidableEq Chan] in
/-- Outside a cycle only the abort flag changes. -/
theorem Lifecycle.allows_outside {action : Action Chan} (hallows : l.allows action)
    (hthread : l.thread = false) (hstage : l.stage = .fresh ∨ l.stage = .destroyed) :
    ∃ value, action = .setAbortFlag value := by
  cases action with
  | setAbortFlag value => exact ⟨value, rfl⟩
  | requestStop => exact hallows.elim
  | worker | progressReturn | spuriousWakeup =>
      rw [Lifecycle.allows, hthread] at hallows
      cases hallows
  | _ => rcases hstage with heq | heq <;> simp [Lifecycle.allows, heq] at hallows

theorem step_setAbortFlag {s s' : System Chan} {value : Bool}
    (hstep : step s (.setAbortFlag value) = some s') :
    s' = { s with store := { s.store with abortFlag := value } } := by
  unfold step at hstep
  split at hstep
  · cases hstep
  · exact (Option.some.inj hstep).symm

/-- A step of the proxy during a cycle. -/
theorem CycleInv.running_step {action : Action Chan} {sys : System Chan} {stage : Stage}
    (hproxyThread : l.proxyThread = true) (hthread : l.thread = true)
    (hlive : l.live = l.sys.store.pools) (hinv : ∃ ring free, Inv ⟨l.sys, ring, free⟩)
    (hstep : step l.sys action = some sys) (hstage : stage = .active ∨ stage = .stopping) :
    CycleInv { l with
      sys := sys, live := allocatedBlock l.sys action ++ l.live, stage := stage } := by
  obtain ⟨ring, free, hinv⟩ := hinv
  obtain ⟨ring', free', hmove⟩ := hinv.step_move hstep
  refine .running hstage hproxyThread hthread ?_ ⟨ring', free', hinv.move hmove⟩
  rw [hinv.pools_move hmove, hlive]

omit [DecidableEq Chan] in
theorem CycleInv.create (h : CycleInv l) (hproxyThread : l.proxyThread = false)
    (hpool : l.sys.store.pool = none) (hpools : l.sys.store.pools = []) :
    CycleInv l.proxyCreate ∧ Created l.proxyCreate := by
  cases h with
  | fresh hfresh =>
      rw [Lifecycle.proxyCreate, hproxyThread]
      refine ⟨.running (.inl rfl) rfl rfl ?_ ⟨[], [], hfresh.inv hpool hpools⟩,
        rfl, rfl, rfl, hpool⟩
      exact hfresh.live.trans hpools.symm
  | running _ hset | destroyed _ hset =>
      rw [hproxyThread] at hset
      cases hset

theorem CycleInv.call {action : Action Chan} {sys : System Chan} (h : CycleInv l)
    (hallows : l.allows action) (hstep : step l.sys action = some sys) :
    CycleInv { l with sys := sys, live := allocatedBlock l.sys action ++ l.live } := by
  cases h with
  | running hstage hproxyThread hthread hlive hinv =>
      exact .running_step hproxyThread hthread hlive hinv hstep hstage
  | fresh hfresh =>
      obtain ⟨value, rfl⟩ := l.allows_outside hallows hfresh.thread (.inl hfresh.stage)
      obtain rfl := step_setAbortFlag hstep
      exact .fresh ⟨hfresh.stage, hfresh.thread, hfresh.live, hfresh.returning, hfresh.held,
        hfresh.crashed, hfresh.cells⟩
  | destroyed hstage hproxyThread hthread hops hpool =>
      obtain ⟨value, rfl⟩ := l.allows_outside hallows hthread (.inr hstage)
      obtain rfl := step_setAbortFlag hstep
      exact .destroyed hstage hproxyThread hthread hops hpool

theorem CycleInv.stop {sys : System Chan} (h : CycleInv l) (hactive : l.stage = .active)
    (hstep : step l.sys .requestStop = some sys) :
    CycleInv { l with sys := sys, stage := .stopping } := by
  cases h with
  | running _ hproxyThread hthread hlive hinv =>
      exact .running_step hproxyThread hthread hlive hinv hstep (.inr rfl)
  | fresh hfresh =>
      rw [hfresh.stage] at hactive
      cases hactive
  | destroyed hstage =>
      rw [hstage] at hactive
      cases hactive

omit [DecidableEq Chan] in
theorem CycleInv.free (h : CycleInv l) (hstopping : l.stage = .stopping)
    (hops : l.sys.store.ops = none) (hpool : l.sys.store.pool = none) :
    CycleInv l.freePools := by
  cases h with
  | running _ hproxyThread hthread hlive hinv =>
      rw [Lifecycle.freePools, if_pos ⟨fun _ => hthread, fun b hb => hlive ▸ hb⟩]
      exact .destroyed rfl hproxyThread rfl hops hpool
  | fresh hfresh =>
      rw [hfresh.stage] at hstopping
      cases hstopping
  | destroyed hstage =>
      rw [hstage] at hstopping
      cases hstopping

/-- Every step of a clean cycle preserves the invariant, and `ProxyCreate` creates. -/
theorem CycleInv.step {action : LifecycleAction Chan} (h : CycleInv l)
    (hguard : CleanCycle l action) (hstep : lifecycleStep l action = some l') :
    CycleInv l' ∧ (action = .proxyCreate → Created l') := by
  unfold lifecycleStep at hstep
  cases action with
  | proxyCreate =>
      dsimp only at hstep
      split at hstep
      · obtain rfl := Option.some.inj hstep
        obtain ⟨hinv, hcreated⟩ := h.create hguard.1 hguard.2.1 hguard.2.2
        exact ⟨hinv, fun _ => hcreated⟩
      · cases hstep
  | call action =>
      dsimp only at hstep
      split at hstep
      · next hallows =>
        split at hstep
        · cases hstep
        · next sys hsys =>
          obtain rfl := Option.some.inj hstep
          exact ⟨h.call hallows hsys, nofun⟩
      · cases hstep
  | proxyDestroy =>
      dsimp only at hstep
      split at hstep
      · next hactive =>
        split at hstep
        · cases hstep
        · next sys hsys =>
          obtain rfl := Option.some.inj hstep
          exact ⟨h.stop hactive hsys, nofun⟩
      · cases hstep
  | freePools =>
      dsimp only at hstep
      split at hstep
      · next hready =>
        obtain rfl := Option.some.inj hstep
        exact ⟨h.free hready.2.1 hguard.1 hguard.2, nofun⟩
      · cases hstep

theorem reachable_cycle (hreach : (lifecycle Chan).Reachable CleanCycle l) : CycleInv l := by
  refine hreach.invariant CycleInv ?_ ?_
  · intro l hfresh
    exact .fresh hfresh
  · intro l action l' hinv hguard hstep
    exact (hinv.step hguard hstep).1

/-- **Clean cycles are valid.**  In every run in which `ProxyCreate` finds a handler without
thread, slots and blocks, and `ProxyDestroy` frees the blocks when nothing refers to a slot,
every slot that the handler refers to is in a live block, and each `ProxyCreate` starts a
worker with an empty queue and an empty free list. -/
theorem lifecycle_valid {history : List (Lifecycle Chan × LifecycleAction Chan)}
    (hrun : (lifecycle Chan).Run CleanCycle history l) :
    Valid l ∧ ∀ first before, history = first ++ [(before, .proxyCreate)] → Created l := by
  refine ⟨(reachable_cycle hrun.reachable).valid, ?_⟩
  rintro first before rfl
  obtain ⟨start, hinit, hpath⟩ := hrun
  obtain ⟨mid, hfirst, hlast⟩ := hpath.split
  have hallowed := hlast.single
  have hinv : CycleInv mid := reachable_cycle ⟨first, start, hinit, hfirst⟩
  exact (hinv.step hallowed.guard hallowed.step).2 rfl

omit [DecidableEq Chan] in
/-- `ProxyCreate` starts no thread when the handler has one, and leaves the free list. -/
theorem CycleInv.not_created (h : CycleInv l) (hstage : l.stage = .fresh ∨ l.stage = .destroyed)
    (hfound : l.proxyThread = true ∨ l.sys.store.pool ≠ none) : ¬ Created l.proxyCreate := by
  have hthread : l.thread = false := by
    cases h with
    | fresh hfresh => exact hfresh.thread
    | running hactive => rcases hactive with heq | heq <;> simp [heq] at hstage
    | destroyed _ _ hthread => exact hthread
  intro hcreated
  rcases hfound with hset | hpool
  · have hstarted := hcreated.thread
    rw [Lifecycle.proxyCreate, hset, if_pos rfl] at hstarted
    cases hthread.symm.trans hstarted
  · have hempty := hcreated.pool
    unfold Lifecycle.proxyCreate at hempty
    split at hempty
    · exact hpool hempty
    · exact hpool hempty

omit [DecidableEq Chan] in
/-- `ProxyDestroy` leaves `ops` and `pool`, and no block is left for them. -/
theorem CycleInv.not_valid (h : CycleInv l) (hstopping : l.stage = .stopping)
    (hfound : l.sys.store.ops ≠ none ∨ l.sys.store.pool ≠ none) : ¬ Valid l.freePools := by
  cases h with
  | fresh hfresh =>
      rw [hfresh.stage] at hstopping
      cases hstopping
  | destroyed hstage =>
      rw [hstage] at hstopping
      cases hstopping
  | running _ hproxyThread hthread hlive hinv =>
      intro hvalid
      rw [Lifecycle.freePools, if_pos ⟨fun _ => hthread, fun b hb => hlive ▸ hb⟩] at hvalid
      obtain ⟨slot, hslot⟩ : ∃ slot, Referenced l.sys.store slot := by
        rcases hfound with hops | hpool
        · obtain ⟨slot, hslot⟩ := Option.ne_none_iff_exists'.mp hops
          exact ⟨slot, .inr (.inl (hslot ▸ .here slot))⟩
        · obtain ⟨slot, hslot⟩ := Option.ne_none_iff_exists'.mp hpool
          exact ⟨slot, .inl (hslot ▸ .here slot)⟩
      exact absurd (hvalid nofun slot (.inl hslot)).1 List.not_mem_nil

/-- The condition is needed: a step of an otherwise clean run in which `ProxyCreate` finds a
thread or a free list, or `ProxyDestroy` frees blocks that the handler refers to, leads to a
state that is not as expected. -/
theorem broken_of_unclean {action : LifecycleAction Chan}
    (hreach : (lifecycle Chan).Reachable CleanCycle l) (hstep : lifecycleStep l action = some l')
    (hunclean : action = .proxyCreate ∧ (l.proxyThread = true ∨ l.sys.store.pool ≠ none) ∨
      action = .freePools ∧ (l.sys.store.ops ≠ none ∨ l.sys.store.pool ≠ none)) :
    ¬ (Valid l' ∧ (action = .proxyCreate → Created l')) := by
  have hinv := reachable_cycle hreach
  rintro ⟨hvalid, hcreated⟩
  unfold lifecycleStep at hstep
  rcases hunclean with ⟨rfl, hfound⟩ | ⟨rfl, hfound⟩
  · have hcreated := hcreated rfl
    dsimp only at hstep
    split at hstep
    · next hready =>
      obtain rfl := Option.some.inj hstep
      exact hinv.not_created hready.2 hfound hcreated
    · cases hstep
  · dsimp only at hstep
    split at hstep
    · next hready =>
      obtain rfl := Option.some.inj hstep
      exact hinv.not_valid hready.2.1 hfound hvalid
    · cases hstep

/-- A handler of zeros. -/
def Lifecycle.zeroed : Lifecycle Unit := ⟨.initial Unit, false, false, [], .fresh⟩

theorem Lifecycle.fresh_zeroed : Lifecycle.zeroed.Fresh :=
  ⟨rfl, rfl, rfl, rfl, rfl, rfl, fun _ => rfl⟩

/-- In the first cycle an operation is queued in a live block. -/
theorem lifecycle_valid_first_cycle :
    ∃ l : Lifecycle Unit, l.sys.store.ops = some ⟨0, 0⟩ ∧ l.live = [0] ∧ Valid l := by
  have hrun := Machine.run_of_exec (lifecycle Unit) CleanCycle .zeroed
    [.proxyCreate, .call .allocateArgs, .call (.allocateArgsReturn ⟨0, 0⟩),
      .call (.fill ⟨0, 0⟩ .proxyOpReady ()), .call (.proxyArgsAppend ⟨0, 0⟩), .call .proxyStart,
      .call .worker, .call .worker] Lifecycle.fresh_zeroed rfl
  exact ⟨_, rfl, rfl, (lifecycle_valid hrun).1⟩

/-- Without the condition a second cycle has no worker, and its free list leads into the block
that the first one has freed: `ProxyDestroy` resets neither `proxyThread` nor `pool`. -/
theorem lifecycle_second_create :
    ¬ ∀ (history : List (Lifecycle Unit × LifecycleAction Unit)) (l : Lifecycle Unit),
      (lifecycle Unit).Run Machine.anyMove history l →
        Valid l ∧ ∀ first before, history = first ++ [(before, .proxyCreate)] → Created l := by
  intro hall
  have hrun := Machine.run_of_exec (lifecycle Unit) Machine.anyMove .zeroed
    [.proxyCreate, .call .allocateArgs, .call (.allocateArgsReturn ⟨0, 0⟩), .call .worker,
      .call .worker, .proxyDestroy, .call .worker, .call .worker, .call .worker, .freePools,
      .proxyCreate] Lifecycle.fresh_zeroed rfl
  have hcreated := (hall _ _ hrun).2 _ _ (List.dropLast_append_getLast? _ rfl).symm
  cases hcreated.thread

end Proxy
end FlashReduce
