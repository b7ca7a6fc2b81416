import FlashReduce.Proxy.Represents
import FlashReduce.Proxy.System

/-!
# The invariant of the proxy

A `Config` is a state of the proxy together with the entries of the queue and the
slots of the free list, in order.

* `Inv` is the invariant: the memory represents the entries and the free list,
  every slot of every pool block is in exactly one place, and the worker's
  current operation is in the ring.
* `Move` lists what a step can do to a configuration, and `Inv.step_move` shows
  that every step is a move.
* `Inv.move` shows that every move preserves the invariant, and `reachable_inv`
  that it holds in every reachable state.
-/

namespace FlashReduce
namespace Proxy

open Library

variable {Chan : Type}

/-- A state with the entries of its queue and the slots of its free list. -/
structure Config (Chan : Type) where
  sys : System Chan
  ring : List (Entry Chan)
  free : List Slot

/-- All slots, by place: free, inside `allocateArgs`, held by a caller, queued. -/
def Config.slots (cfg : Config Chan) : List Slot :=
  cfg.free ++ (cfg.sys.returning ++ (cfg.sys.held ++ queued cfg.ring))

/-- The invariant of a configuration. -/
structure Inv (cfg : Config Chan) : Prop where
  represents : Represents cfg.sys.store cfg.ring cfg.free
  slots_nodup : cfg.slots.Nodup
  mem_slots : ∀ x, x ∈ cfg.slots ↔ x.block ∈ cfg.sys.store.pools
  blocks_lt : ∀ b ∈ cfg.sys.store.pools, b < cfg.sys.store.nextBlock
  blocks_nodup : cfg.sys.store.pools.Nodup
  held_nextPeer : ∀ x ∈ cfg.sys.held, cfg.sys.store.nextPeer x = none
  cursor : ∀ op, cfg.sys.worker.pc.op = some op → op ∈ heads cfg.ring

theorem Inv.initial : Inv ⟨.initial Chan, [], []⟩ where
  represents := .initial
  slots_nodup := List.nodup_nil
  mem_slots := by simp [Config.slots, System.initial, Store.initial]
  blocks_lt := nofun
  blocks_nodup := List.nodup_nil
  held_nextPeer := nofun
  cursor := nofun

/-! ### Places -/

section Places

variable {s : System Chan} {ring : List (Entry Chan)} {free : List Slot}

/-- A held slot is in no other place. -/
theorem Inv.held_apart {cfg : Config Chan} (hinv : Inv cfg) {x : Slot}
    (hx : x ∈ cfg.sys.held) : x ∉ cfg.sys.returning ∧ x ∉ cfg.free ++ queued cfg.ring := by
  obtain ⟨-, hrest, hfree⟩ := List.nodup_append.mp hinv.slots_nodup
  obtain ⟨-, hrest, hreturning⟩ := List.nodup_append.mp hrest
  obtain ⟨-, -, hheld⟩ := List.nodup_append.mp hrest
  refine ⟨fun hmem => hreturning x hmem x (by simp [hx]) rfl, ?_⟩
  rw [List.mem_append, not_or]
  exact ⟨fun hmem => hfree x hmem x (by simp [hx]) rfl, fun hmem => hheld x hx x hmem rfl⟩

/-- A slot inside `allocateArgs` is in no other place. -/
theorem Inv.returning_apart {cfg : Config Chan} (hinv : Inv cfg) {x : Slot}
    (hx : x ∈ cfg.sys.returning) : x ∉ cfg.sys.held ∧ x ∉ cfg.free ∧ x ∉ queued cfg.ring := by
  obtain ⟨-, hrest, hfree⟩ := List.nodup_append.mp hinv.slots_nodup
  obtain ⟨-, -, hreturning⟩ := List.nodup_append.mp hrest
  exact ⟨fun hmem => hreturning x hx x (by simp [hmem]) rfl,
    fun hmem => hfree x hmem x (by simp [hx]) rfl,
    fun hmem => hreturning x hx x (by simp [hmem]) rfl⟩

/-- The ring is empty when `handler->ops` is `NULL`. -/
theorem Inv.ring_nil {cfg : Config Chan} (hinv : Inv cfg) (hops : cfg.sys.store.ops = none) :
    cfg.ring = [] := by
  have hheads := hinv.represents.ops.symm.trans hops
  simpa [heads] using hheads

/-- The operations that `handler->ops` leads to are those of the ring. -/
theorem Inv.reaches_ops_iff {op : Slot} (hinv : Inv ⟨s, ring, free⟩) :
    Reaches s.store.next s.store.ops op ↔ op ∈ heads ring := by
  have hlinks := hinv.represents.links
  have hops : s.store.ops = (heads ring).head? := hinv.represents.ops
  rw [hops]
  constructor
  · exact hlinks.mem_of_reaches (fun first hfirst => List.mem_of_head? hfirst)
  · exact Segment.reaches hlinks

/-! ### Steps that leave the queue alone -/

/-- A step that changes only flags, the states of slots that are not free, and
the worker. -/
theorem Inv.quiet (hinv : Inv ⟨s, ring, free⟩) (stop abortFlag : Bool) (idle : Slot → Bool)
    (state : Slot → ProxyOpState) (worker : Worker)
    (hstate : ∀ x ∈ free, state x = .proxyOpNone)
    (hcursor : ∀ op, worker.pc.op = some op → op ∈ heads ring) :
    Inv ⟨{ s with
      store := { s.store with stop := stop, abortFlag := abortFlag, idle := idle, state := state }
      worker := worker }, ring, free⟩ :=
  have h := hinv.represents
  ⟨⟨h.links, h.chains, h.ops, h.pool, h.nodup, hstate⟩, hinv.slots_nodup, hinv.mem_slots,
    hinv.blocks_lt, hinv.blocks_nodup, hinv.held_nextPeer, hcursor⟩

/-- The worker moves on without touching the memory. -/
theorem Inv.goto (hinv : Inv ⟨s, ring, free⟩) (worker : Worker)
    (hcursor : ∀ op, worker.pc.op = some op → op ∈ heads ring) :
    Inv ⟨{ s with worker := worker }, ring, free⟩ :=
  hinv.quiet s.store.stop s.store.abortFlag s.store.idle s.store.state worker
    hinv.represents.finished hcursor

theorem Worker.signal_op (w : Worker) : w.signal.pc.op = w.pc.op := by
  unfold Worker.signal
  split
  · next hpc => simp [hpc, Pc.op]
  · rfl

theorem Worker.endIteration_pc (w : Worker) (next ops : Option Slot) :
    (w.endIteration next ops).pc = .top next := by
  unfold Worker.endIteration
  dsimp only
  split_ifs <;> rfl

end Places

/-! ### Moves -/

variable [DecidableEq Chan]

/-- What a step does to a configuration. -/
inductive Move : Config Chan → Action Chan → Config Chan → Prop
  | allocate {s ring elem free} :
      Move ⟨s, ring, elem :: free⟩ .allocateArgs
        ⟨{ s with
            store := { s.store with pool := s.store.next elem }
            returning := elem :: s.returning }, ring, free⟩
  | allocateBlock {s ring elem free} (hblock : blockSlots s.store.nextBlock = elem :: free) :
      Move ⟨s, ring, []⟩ .allocateArgs
        ⟨{ s with
            store := { s.store.addPool with pool := s.store.addPool.next elem }
            returning := elem :: s.returning }, ring, free⟩
  | allocateReturn {s ring free elem} (hmem : elem ∈ s.returning) :
      Move ⟨s, ring, free⟩ (.allocateArgsReturn elem)
        ⟨{ s with
            store := s.store.allocateArgsReturn elem
            returning := s.returning.erase elem
            held := elem :: s.held }, ring, free⟩
  | fill {s ring free slot state proxyTail} (hmem : slot ∈ s.held) :
      Move ⟨s, ring, free⟩ (.fill slot state proxyTail)
        ⟨{ s with store := s.store.fill slot state proxyTail }, ring, free⟩
  | append {s ring free slot c ws} (hmem : slot ∈ s.held)
      (htail : s.store.proxyTail slot = some c) (hws : s.store.appendWrites slot = some ws) :
      Move ⟨s, ring, free⟩ (.proxyArgsAppend slot)
        ⟨{ s with store := s.store.writes ws, held := s.held.erase slot },
          enqueue c slot ring, free⟩
  | crash {s ring free slot} (hmem : slot ∈ s.held) (htail : s.store.proxyTail slot = none) :
      Move ⟨s, ring, free⟩ (.proxyArgsAppend slot) ⟨{ s with crashed := true }, ring, free⟩
  | start {s ring free} (hops : s.store.ops ≠ none) :
      Move ⟨s, ring, free⟩ .proxyStart
        ⟨{ s with store := { s.store with stop := false }, worker := s.worker.signal }, ring, free⟩
  | startEmpty {s ring free} (hops : s.store.ops = none) :
      Move ⟨s, ring, free⟩ .proxyStart ⟨s, ring, free⟩
  | requestStop {s ring free} :
      Move ⟨s, ring, free⟩ .requestStop
        ⟨{ s with store := { s.store with stop := true }, worker := s.worker.signal }, ring, free⟩
  | setAbortFlag {s ring free value} :
      Move ⟨s, ring, free⟩ (.setAbortFlag value)
        ⟨{ s with store := { s.store with abortFlag := value } }, ring, free⟩
  | abort {s ring free op} (hpc : s.worker.pc = .top op) (hflag : s.store.abortFlag = true) :
      Move ⟨s, ring, free⟩ .worker
        ⟨{ s with worker := { s.worker with pc := .returned false } }, ring, free⟩
  | topFetch {s ring free} (hpc : s.worker.pc = .top none) (hflag : s.store.abortFlag = false) :
      Move ⟨s, ring, free⟩ .worker ⟨{ s with worker := { s.worker with pc := .fetch } }, ring, free⟩
  | topVisit {s ring free op} (hpc : s.worker.pc = .top (some op))
      (hflag : s.store.abortFlag = false) :
      Move ⟨s, ring, free⟩ .worker
        ⟨{ s with worker := { s.worker with pc := .visit op } }, ring, free⟩
  | stop {s ring free} (hpc : s.worker.pc = .fetch) (hops : s.store.ops = none)
      (hstop : s.store.stop = true) :
      Move ⟨s, ring, free⟩ .worker
        ⟨{ s with worker := { s.worker with pc := .returned true } }, ring, free⟩
  | sleep {s ring free} (hpc : s.worker.pc = .fetch) (hops : s.store.ops = none)
      (hstop : s.store.stop = false) :
      Move ⟨s, ring, free⟩ .worker
        ⟨{ s with worker := { s.worker with pc := .sleeping } }, ring, free⟩
  | fetchVisit {s ring free op} (hpc : s.worker.pc = .fetch) (hops : s.store.ops = some op) :
      Move ⟨s, ring, free⟩ .worker
        ⟨{ s with worker := { s.worker with pc := .visit op } }, ring, free⟩
  | wake {s ring free} (hpc : s.worker.pc = .waking) :
      Move ⟨s, ring, free⟩ .worker
        ⟨{ s with worker := { s.worker with pc := .top none } }, ring, free⟩
  | run {s ring free op} (hpc : s.worker.pc = .visit op)
      (hstate : s.store.state op ≠ .proxyOpNone) :
      Move ⟨s, ring, free⟩ .worker
        ⟨{ s with
            store := { s.store with idle := Function.update s.store.idle op false }
            worker := { s.worker with pc := .running op } }, ring, free⟩
  | skip {s ring free op} (hpc : s.worker.pc = .visit op)
      (hstate : s.store.state op = .proxyOpNone) :
      Move ⟨s, ring, free⟩ .worker
        ⟨{ s with
            store := { s.store with idle := Function.update s.store.idle op false }
            worker := { s.worker with pc := .advance op, idle := false } }, ring, free⟩
  | keep {s front e back free op} (hpc : s.worker.pc = .advance op)
      (hfollows : Follows op e (back ++ front)) (hstate : s.store.state e.head ≠ .proxyOpNone) :
      Move ⟨s, front ++ e :: back, free⟩ .worker
        ⟨{ s with worker := s.worker.endIteration (some e.head) s.store.ops },
          front ++ e :: back, free⟩
  | remove {s front e back free op ws} (hpc : s.worker.pc = .advance op)
      (hfollows : Follows op e (back ++ front)) (hstate : s.store.state e.head = .proxyOpNone)
      (hws : s.store.advanceWrites op =
        some (ws, (heads (e.pop.toList ++ (back ++ front))).head?)) :
      Move ⟨s, front ++ e :: back, free⟩ .worker
        ⟨{ s with
            store := s.store.writes ws
            worker := s.worker.endIteration (heads (e.pop.toList ++ (back ++ front))).head?
              (s.store.writes ws).ops }, front ++ e.pop.toList ++ back, e.head :: free⟩
  | progressReturn {s ring free op state idle} (hpc : s.worker.pc = .running op) :
      Move ⟨s, ring, free⟩ (.progressReturn state idle)
        ⟨{ s with
            store := { s.store with
              state := Function.update s.store.state op state
              idle := Function.update s.store.idle op idle }
            worker := { s.worker with pc := .advance op, idle := s.worker.idle && idle } },
          ring, free⟩
  | spuriousWakeup {s ring free} (hpc : s.worker.pc = .sleeping) :
      Move ⟨s, ring, free⟩ .spuriousWakeup
        ⟨{ s with worker := { s.worker with pc := .waking } }, ring, free⟩

/-! ### Every step is a move -/

section Steps

variable {s : System Chan} {ring front back : List (Entry Chan)} {free : List Slot}

/-- The locked section of `allocateArgs` takes a slot from the free list or from
a new block, and never fails. -/
theorem Inv.allocateArgs_move (hinv : Inv ⟨s, ring, free⟩) :
    ∃ elem store free', s.store.allocateArgs = some (elem, store) ∧
      Move ⟨s, ring, free⟩ .allocateArgs
        ⟨{ s with store := store, returning := elem :: s.returning }, ring, free'⟩ := by
  have hpool := hinv.represents.pool
  cases free with
  | nil =>
      -- the free list is empty: a new block is linked in
      have hnull : s.store.pool = none := hpool
      have hblock : blockSlots s.store.nextBlock =
          ⟨s.store.nextBlock, 0⟩ :: (blockSlots s.store.nextBlock).tail := by
        simp [blockSlots, List.ofFn_succ]
      refine ⟨⟨s.store.nextBlock, 0⟩, _, _, ?_, .allocateBlock hblock⟩
      simp only [Store.allocateArgs, hnull, if_true]
      rfl
  | cons elem free =>
      have hhead : s.store.pool = some elem := hpool.1
      exact ⟨elem, _, _, by simp [Store.allocateArgs, hhead], .allocate⟩

/-- Every step of the worker is a move. -/
theorem Inv.worker_move {s' : System Chan} (hinv : Inv ⟨s, ring, free⟩)
    (hstep : workerStep s = some s') :
    ∃ ring' free', Move ⟨s, ring, free⟩ .worker ⟨s', ring', free'⟩ := by
  unfold workerStep at hstep
  cases hpc : s.worker.pc with
  | top op =>
      simp only [hpc] at hstep
      cases hflag : s.store.abortFlag with
      | true =>
          simp only [hflag, if_true, Option.some.injEq] at hstep
          subst hstep
          exact ⟨_, _, .abort hpc hflag⟩
      | false =>
          cases op with
          | none =>
              simp only [hflag, Bool.false_eq_true, if_false, Option.some.injEq] at hstep
              subst hstep
              exact ⟨_, _, .topFetch hpc hflag⟩
          | some op =>
              simp only [hflag, Bool.false_eq_true, if_false, Option.some.injEq] at hstep
              subst hstep
              exact ⟨_, _, .topVisit hpc hflag⟩
  | fetch =>
      simp only [hpc] at hstep
      cases hops : s.store.ops with
      | none =>
          cases hstop : s.store.stop with
          | true =>
              simp only [hops, hstop, if_true, Option.some.injEq] at hstep
              subst hstep
              exact ⟨_, _, .stop hpc hops hstop⟩
          | false =>
              simp only [hops, hstop, Bool.false_eq_true, if_false, Option.some.injEq] at hstep
              subst hstep
              exact ⟨_, _, .sleep hpc hops hstop⟩
      | some op =>
          simp only [hops, Option.some.injEq] at hstep
          subst hstep
          exact ⟨_, _, .fetchVisit hpc hops⟩
  | sleeping => simp [hpc] at hstep
  | waking =>
      simp only [hpc, Option.some.injEq] at hstep
      subst hstep
      exact ⟨_, _, .wake hpc⟩
  | visit op =>
      by_cases hstate : s.store.state op = .proxyOpNone
      · simp only [hpc, hstate, ne_eq, not_true_eq_false, if_false, Function.update_self,
          Bool.and_false, Option.some.injEq] at hstep
        subst hstep
        exact ⟨_, _, .skip hpc hstate⟩
      · simp only [hpc, hstate, ne_eq, not_false_eq_true, if_true, Option.some.injEq] at hstep
        subst hstep
        exact ⟨_, _, .run hpc hstate⟩
  | running op => simp [hpc] at hstep
  | advance op =>
      -- the section looks at the entry that follows the current operation
      have hop : op ∈ heads ring := hinv.cursor op (by simp [hpc, Pc.op])
      obtain ⟨front, e, back, rfl, hfollows⟩ := exists_follows hop
      by_cases hstate : s.store.state e.head = .proxyOpNone
      · obtain ⟨ws, hws, -, -⟩ := hinv.represents.advance_remove hfollows hstate
        simp only [hpc, hws, Option.some.injEq] at hstep
        subst hstep
        exact ⟨_, _, .remove hpc hfollows hstate hws⟩
      · have hws := hinv.represents.advance_keep hfollows hstate
        simp only [hpc, hws, Store.writes_nil, Option.some.injEq] at hstep
        subst hstep
        exact ⟨_, _, .keep hpc hfollows hstate⟩
  | returned stopped => simp [hpc] at hstep

/-- **Every step is a move.** -/
theorem Inv.step_move {s' : System Chan} {action : Action Chan} (hinv : Inv ⟨s, ring, free⟩)
    (hstep : step s action = some s') :
    ∃ ring' free', Move ⟨s, ring, free⟩ action ⟨s', ring', free'⟩ := by
  cases hcrashed : s.crashed with
  | true => simp [step, hcrashed] at hstep
  | false =>
  simp only [step, hcrashed, Bool.false_eq_true, if_false] at hstep
  cases action with
  | allocateArgs =>
      obtain ⟨elem, store, free', hresult, hmove⟩ := hinv.allocateArgs_move
      simp only [liveStep, hresult, Option.some.injEq] at hstep
      subst hstep
      exact ⟨ring, free', hmove⟩
  | allocateArgsReturn elem =>
      by_cases hmem : elem ∈ s.returning
      · simp only [liveStep, hmem, if_true, Option.some.injEq] at hstep
        subst hstep
        exact ⟨_, _, .allocateReturn hmem⟩
      · simp [liveStep, hmem] at hstep
  | fill slot state proxyTail =>
      by_cases hmem : slot ∈ s.held
      · simp only [liveStep, hmem, if_true, Option.some.injEq] at hstep
        subst hstep
        exact ⟨_, _, .fill hmem⟩
      · simp [liveStep, hmem] at hstep
  | proxyArgsAppend slot =>
      by_cases hmem : slot ∈ s.held
      · cases htail : s.store.proxyTail slot with
        | none =>
            have hnull : s.store.proxyArgsAppend slot = none := by
              simp [Store.proxyArgsAppend, Store.appendWrites, htail]
            simp only [liveStep, hmem, if_true, hnull, Option.some.injEq] at hstep
            subst hstep
            exact ⟨_, _, .crash hmem htail⟩
        | some c =>
            obtain ⟨ws, hws, -, -⟩ :=
              hinv.represents.append (hinv.held_apart hmem).2 (hinv.held_nextPeer slot hmem) htail
            simp only [liveStep, hmem, if_true, Store.proxyArgsAppend, hws, Option.bind_eq_bind,
              Option.bind_some, Option.pure_def, Option.some.injEq] at hstep
            subst hstep
            exact ⟨_, _, .append hmem htail hws⟩
      · simp [liveStep, hmem] at hstep
  | proxyStart =>
      by_cases hops : s.store.ops = none
      · simp only [liveStep, hops, ne_eq, not_true_eq_false, if_false, Option.some.injEq] at hstep
        subst hstep
        exact ⟨_, _, .startEmpty hops⟩
      · simp only [liveStep, ne_eq, hops, not_false_eq_true, if_true, Option.some.injEq] at hstep
        subst hstep
        exact ⟨_, _, .start hops⟩
  | requestStop =>
      simp only [liveStep, Option.some.injEq] at hstep
      subst hstep
      exact ⟨_, _, .requestStop⟩
  | setAbortFlag value =>
      simp only [liveStep, Option.some.injEq] at hstep
      subst hstep
      exact ⟨_, _, .setAbortFlag⟩
  | worker => exact hinv.worker_move hstep
  | progressReturn state idle =>
      cases hpc : s.worker.pc with
      | running op =>
          simp only [liveStep, Proxy.progressReturn, hpc, Function.update_self,
            Option.some.injEq] at hstep
          subst hstep
          exact ⟨_, _, .progressReturn hpc⟩
      | _ => simp [liveStep, Proxy.progressReturn, hpc] at hstep
  | spuriousWakeup =>
      cases hpc : s.worker.pc with
      | sleeping =>
          simp only [liveStep, hpc, Option.some.injEq] at hstep
          subst hstep
          exact ⟨_, _, .spuriousWakeup hpc⟩
      | _ => simp [liveStep, hpc] at hstep

/-! ### Every move preserves the invariant -/

omit [DecidableEq Chan] in
/-- A new state in which every slot has one place, as in the old one. -/
theorem Inv.of_perm {cfg cfg' : Config Chan} (hinv : Inv cfg)
    (hrepresents : Represents cfg'.sys.store cfg'.ring cfg'.free)
    (hperm : cfg'.slots.Perm cfg.slots)
    (hpools : cfg'.sys.store.pools = cfg.sys.store.pools)
    (hblock : cfg'.sys.store.nextBlock = cfg.sys.store.nextBlock)
    (hheld : ∀ x ∈ cfg'.sys.held, cfg'.sys.store.nextPeer x = none)
    (hcursor : ∀ op, cfg'.sys.worker.pc.op = some op → op ∈ heads cfg'.ring) : Inv cfg' where
  represents := hrepresents
  slots_nodup := hperm.nodup_iff.mpr hinv.slots_nodup
  mem_slots := fun x => by rw [hperm.mem_iff, hpools]; exact hinv.mem_slots x
  blocks_lt := by rw [hpools, hblock]; exact hinv.blocks_lt
  blocks_nodup := by rw [hpools]; exact hinv.blocks_nodup
  held_nextPeer := hheld
  cursor := hcursor

omit [DecidableEq Chan] in
theorem Inv.allocate {elem : Slot} (hinv : Inv ⟨s, ring, elem :: free⟩) :
    Inv ⟨{ s with
      store := { s.store with pool := s.store.next elem }
      returning := elem :: s.returning }, ring, free⟩ :=
  hinv.of_perm hinv.represents.take List.perm_middle rfl rfl hinv.held_nextPeer hinv.cursor

omit [DecidableEq Chan] in
theorem Inv.allocateBlock {elem : Slot} (hinv : Inv ⟨s, ring, []⟩)
    (hblock : blockSlots s.store.nextBlock = elem :: free) :
    Inv ⟨{ s with
      store := { s.store.addPool with pool := s.store.addPool.next elem }
      returning := elem :: s.returning }, ring, free⟩ := by
  have hold : ∀ x ∈ Config.slots ⟨s, ring, []⟩, x.block ≠ s.store.nextBlock := by
    intro x hx
    exact Nat.ne_of_lt (hinv.blocks_lt x.block ((hinv.mem_slots x).mp hx))
  have hfresh : ∀ x ∈ queued ring, x.block ≠ s.store.nextBlock :=
    fun x hx => hold x (by simp [Config.slots, hx])
  have hrepresents := hinv.represents.addPool hfresh
  rw [hblock] at hrepresents
  -- the new block joins the places of the old slots
  have hperm : (Config.slots ⟨{ s with
      store := { s.store.addPool with pool := s.store.addPool.next elem }
      returning := elem :: s.returning }, ring, free⟩).Perm
      (blockSlots s.store.nextBlock ++ Config.slots ⟨s, ring, []⟩) := by
    rw [hblock]
    exact List.perm_middle
  refine ⟨hrepresents.take, ?_, ?_, ?_, ?_, ?_, hinv.cursor⟩
  · refine hperm.nodup_iff.mpr (List.nodup_append.mpr ⟨nodup_blockSlots _, hinv.slots_nodup, ?_⟩)
    rintro x hx y hy rfl
    exact hold x hy (mem_blockSlots.mp hx)
  · intro x
    rw [hperm.mem_iff, List.mem_append, mem_blockSlots, hinv.mem_slots]
    exact List.mem_cons.symm
  · refine List.forall_mem_cons.mpr ⟨Nat.lt_succ_self _, fun b hb => ?_⟩
    exact Nat.lt_succ_of_lt (hinv.blocks_lt b hb)
  · exact List.nodup_cons.mpr
      ⟨fun hmem => Nat.lt_irrefl _ (hinv.blocks_lt _ hmem), hinv.blocks_nodup⟩
  · intro x hx
    have hne := hold x (by simp only [Config.slots, List.mem_append]; exact .inr (.inr (.inl hx)))
    exact (if_neg hne).trans (hinv.held_nextPeer x hx)

theorem Inv.allocateReturn {elem : Slot} (hinv : Inv ⟨s, ring, free⟩)
    (hmem : elem ∈ s.returning) :
    Inv ⟨{ s with
      store := s.store.allocateArgsReturn elem
      returning := s.returning.erase elem
      held := elem :: s.held }, ring, free⟩ := by
  obtain ⟨-, hfree, hqueued⟩ := hinv.returning_apart hmem
  have hheads : elem ∉ heads ring := fun h => hqueued ((heads_sublist_queued ring).subset h)
  have h := hinv.represents
  refine hinv.of_perm ⟨?_, ⟨?_, h.chains.tails, h.chains.cells, h.chains.idle_cells,
    h.chains.chans⟩, h.ops, ?_, h.nodup, h.finished⟩ ?_ rfl rfl ?_ hinv.cursor
  · exact h.links.frame hheads none
  · intro e he
    exact (h.chains.chains e he).frame (fun hx => hqueued (mem_queued.mpr ⟨e, he, hx⟩)) none
  · exact h.pool.frame hfree none
  · refine List.Perm.append_left _ ?_
    refine List.perm_middle.trans ?_
    exact List.Perm.append_right (s.held ++ queued ring) (List.perm_cons_erase hmem).symm
  · refine List.forall_mem_cons.mpr ⟨Function.update_self .., fun x hx => ?_⟩
    by_cases heq : x = elem
    · exact (congrArg _ heq).trans (Function.update_self ..)
    · exact (Function.update_of_ne heq _ _).trans (hinv.held_nextPeer x hx)

omit [DecidableEq Chan] in
theorem Inv.fill {slot : Slot} (hinv : Inv ⟨s, ring, free⟩) (hmem : slot ∈ s.held)
    (state : ProxyOpState) (proxyTail : Chan) :
    Inv ⟨{ s with store := s.store.fill slot state proxyTail }, ring, free⟩ := by
  have hout := (hinv.held_apart hmem).2
  rw [List.mem_append, not_or] at hout
  have h := hinv.represents
  refine hinv.of_perm ⟨h.links, ⟨h.chains.chains, ?_, h.chains.cells, h.chains.idle_cells,
    h.chains.chans⟩, h.ops, h.pool, h.nodup, ?_⟩ (.refl _) rfl rfl hinv.held_nextPeer
    hinv.cursor
  · intro e he x hx
    have hne : x ≠ slot := fun heq => hout.2 (mem_queued.mpr ⟨e, he, heq ▸ hx⟩)
    exact (Function.update_of_ne hne _ _).trans (h.chains.tails e he x hx)
  · intro x hx
    have hne : x ≠ slot := fun heq => hout.1 (heq ▸ hx)
    exact (Function.update_of_ne hne _ _).trans (h.finished x hx)

theorem mem_heads_enqueue {x slot : Slot} {c : Chan} (hx : x ∈ heads ring) :
    x ∈ heads (enqueue c slot ring) := by
  by_cases hc : c ∈ ring.map Entry.chan
  · rwa [heads_enqueue_of_mem hc]
  · cases ring with
    | nil => cases hx
    | cons e rest =>
        rw [enqueue_cons hc]
        rcases List.mem_cons.mp hx with rfl | hrest
        · exact List.mem_cons_self
        · exact List.mem_cons_of_mem _ (List.mem_cons_of_mem _ hrest)

theorem Inv.append {slot : Slot} {c : Chan} {ws : List (Write Chan)}
    (hinv : Inv ⟨s, ring, free⟩) (hmem : slot ∈ s.held)
    (htail : s.store.proxyTail slot = some c) (hws : s.store.appendWrites slot = some ws) :
    Inv ⟨{ s with store := s.store.writes ws, held := s.held.erase slot },
      enqueue c slot ring, free⟩ := by
  obtain ⟨ws', hws', hrepresents, hpeer⟩ :=
    hinv.represents.append (hinv.held_apart hmem).2 (hinv.held_nextPeer slot hmem) htail
  cases hws.symm.trans hws'
  have hperm := queued_enqueue (s := slot) (c := c) hinv.represents.chains.chans
  refine hinv.of_perm hrepresents ?_ (writes_pools _ _) (writes_nextBlock _ _) ?_ ?_
  · refine List.Perm.append_left _ (List.Perm.append_left _ ?_)
    calc s.held.erase slot ++ queued (enqueue c slot ring)
      _ |>.Perm (s.held.erase slot ++ slot :: queued ring) := hperm.append_left _
      _ |>.Perm (slot :: s.held.erase slot ++ queued ring) := List.perm_middle
      _ |>.Perm (s.held ++ queued ring) := (List.perm_cons_erase hmem).symm.append_right _
  · intro x hx
    have hheld : x ∈ s.held := List.mem_of_mem_erase hx
    have hout := (hinv.held_apart hheld).2
    rw [List.mem_append, not_or] at hout
    exact (hpeer x hout.2).trans (hinv.held_nextPeer x hheld)
  · exact fun op hop => mem_heads_enqueue (hinv.cursor op hop)

theorem Inv.remove {e : Entry Chan} {op : Slot} {ws : List (Write Chan)}
    (hinv : Inv ⟨s, front ++ e :: back, free⟩) (hfollows : Follows op e (back ++ front))
    (hstate : s.store.state e.head = .proxyOpNone)
    (hws : s.store.advanceWrites op =
      some (ws, (heads (e.pop.toList ++ (back ++ front))).head?)) :
    Inv ⟨{ s with
      store := s.store.writes ws
      worker := s.worker.endIteration (heads (e.pop.toList ++ (back ++ front))).head?
        (s.store.writes ws).ops }, front ++ e.pop.toList ++ back, e.head :: free⟩ := by
  obtain ⟨ws', hws', hrepresents, hpeer⟩ := hinv.represents.advance_remove hfollows hstate
  cases hws.symm.trans hws'
  refine hinv.of_perm hrepresents ?_ (writes_pools _ _) (writes_nextBlock _ _) ?_ ?_
  · have hfreed := queued_freed front back e free
    have hplaces (a q : List Slot) : (a ++ (s.returning ++ (s.held ++ q))).Perm
        ((s.returning ++ s.held) ++ (a ++ q)) := by
      rw [← List.append_assoc s.returning]
      exact List.perm_append_comm_assoc ..
    exact ((hplaces _ _).trans (hfreed.append_left _)).trans (hplaces _ _).symm
  · intro x hx
    rw [← hinv.held_nextPeer x hx]
    exact congrFun hpeer x
  · intro op' hop'
    rw [Worker.endIteration_pc] at hop'
    have hin := List.mem_of_head? hop'
    simp only [heads_append, List.mem_append] at hin ⊢
    tauto

/-- **Every move preserves the invariant.** -/
theorem Inv.move {cfg cfg' : Config Chan} {action : Action Chan} (hinv : Inv cfg)
    (hmove : Move cfg action cfg') : Inv cfg' := by
  cases hmove with
  | allocate => exact hinv.allocate
  | allocateBlock hblock => exact hinv.allocateBlock hblock
  | allocateReturn hmem => exact hinv.allocateReturn hmem
  | fill hmem => exact hinv.fill hmem _ _
  | append hmem htail hws => exact hinv.append hmem htail hws
  | crash hmem htail =>
      exact ⟨hinv.represents, hinv.slots_nodup, hinv.mem_slots, hinv.blocks_lt, hinv.blocks_nodup,
        hinv.held_nextPeer, hinv.cursor⟩
  | start hops =>
      exact hinv.quiet _ _ _ _ _ hinv.represents.finished
        (fun op hop => hinv.cursor op (Worker.signal_op _ ▸ hop))
  | startEmpty hops => exact hinv
  | requestStop =>
      exact hinv.quiet _ _ _ _ _ hinv.represents.finished
        (fun op hop => hinv.cursor op (Worker.signal_op _ ▸ hop))
  | setAbortFlag => exact hinv.quiet _ _ _ _ _ hinv.represents.finished hinv.cursor
  | abort hpc hflag => exact hinv.goto _ nofun
  | topFetch hpc hflag => exact hinv.goto _ nofun
  | topVisit hpc hflag =>
      exact hinv.goto _ (fun op hop => hinv.cursor op (by rw [hpc]; exact hop))
  | stop hpc hops hstop => exact hinv.goto _ nofun
  | sleep hpc hops hstop => exact hinv.goto _ nofun
  | fetchVisit hpc hops =>
      refine hinv.goto _ (fun op hop => ?_)
      cases hop
      exact List.mem_of_head? (hinv.represents.ops.symm.trans hops)
  | wake hpc => exact hinv.goto _ nofun
  | run hpc hstate =>
      exact hinv.quiet _ _ _ _ _ hinv.represents.finished
        (fun op hop => hinv.cursor op (by rw [hpc]; exact hop))
  | skip hpc hstate =>
      exact hinv.quiet _ _ _ _ _ hinv.represents.finished
        (fun op hop => hinv.cursor op (by rw [hpc]; exact hop))
  | keep hpc hfollows hstate =>
      refine hinv.goto _ (fun op hop => ?_)
      rw [Worker.endIteration_pc] at hop
      cases hop
      simp
  | remove hpc hfollows hstate hws => exact hinv.remove hfollows hstate hws
  | @progressReturn s ring free op state idle hpc =>
      have hop : op ∈ heads ring := hinv.cursor op (by simp [hpc, Pc.op])
      -- the callback writes to an operation of the ring, and free slots are elsewhere
      refine hinv.quiet _ _ _ _ _ (fun x hx => ?_) (fun op' hop' => ?_)
      · have hne : x ≠ op := by
          rintro rfl
          exact (List.nodup_append.mp hinv.represents.nodup).2.2 x hx x
            ((heads_sublist_queued ring).subset hop) rfl
        exact (Function.update_of_ne hne _ _).trans (hinv.represents.finished x hx)
      · cases hop'
        exact hop
  | spuriousWakeup hpc => exact hinv.goto _ nofun

/-- The invariant holds of some configuration of every reachable state. -/
theorem reachable_inv {guard : System Chan → Action Chan → Prop}
    (hreach : (machine Chan).Reachable guard s) : ∃ ring free, Inv ⟨s, ring, free⟩ := by
  refine hreach.invariant (fun s => ∃ ring free, Inv ⟨s, ring, free⟩) ?_ ?_
  · rintro s rfl
    exact ⟨[], [], Inv.initial⟩
  · rintro s action t ⟨ring, free, hinv⟩ - hstep
    obtain ⟨ring', free', hmove⟩ := hinv.step_move hstep
    exact ⟨ring', free', hinv.move hmove⟩

/-- No step dereferences `NULL` when every appended slot has the address of a
channel cell. -/
theorem reachable_live {s : System Chan} (hreach : (machine Chan).Reachable CellsGiven s) :
    s.crashed = false := by
  refine hreach.induction (fun s => s.crashed = false) ?_ ?_
  · rintro s rfl
    rfl
  · intro s action t hbefore hlive hguard hstep
    obtain ⟨ring, free, hinv⟩ := reachable_inv hbefore
    obtain ⟨ring', free', hmove⟩ := hinv.step_move hstep
    cases hmove with
    | crash hmem htail => exact absurd htail hguard
    | _ => exact hlive

end Steps

end Proxy
end FlashReduce
