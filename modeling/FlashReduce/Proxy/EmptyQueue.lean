import FlashReduce.Proxy.FineSystem

/-!
# An empty queue means that everything is finished

`ProxyWaitAllOpFinished` reads `handler->ops` without the mutex, at any point of a
run of the fine-grained system.  `persistentThread` returns because of
`handler->stop` only when it sees an empty queue, too.

* `FinishedUntil` says what holds of every operation whose `ProxyArgsAppend`
  completed: it has reached `ProxyOpNone`, its callback is not running and is not
  called again before the slot is appended again, and the worker leaves the cell of
  its channel alone until it is released.
* `proxy_empty_finished`: all this holds whenever a reader sees `NULL` and whenever
  the worker returns because of `handler->stop`.  The cell is released by the next
  append to its channel.
* `proxy_cell_written_again`: it is not enough to watch the slot, because another
  operation of the channel makes the worker write the cell again.
-/

namespace FlashReduce
namespace Proxy

open Library Library.Machine

variable {Chan : Type} [DecidableEq Chan]

/-- A state and the action taken in it. -/
abbrev FineMove (Chan : Type) := FineSystem Chan × FineAction Chan

/-! ### What is promised -/

/-- The move is the locked section of `ProxyArgsAppend` for the slot. -/
def Appends (slot : Slot) (move : FineMove Chan) : Prop :=
  move.2 = .coarse (.proxyArgsAppend slot)

/-- The move appends an operation to the channel. -/
def AppendsTo (c : Chan) (move : FineMove Chan) : Prop :=
  ∃ slot, Appends slot move ∧ move.1.sys.store.proxyTail slot = some c

/-- The move is the locked section of `allocateArgs` that hands out the slot. -/
def Allocates (slot : Slot) (move : FineMove Chan) : Prop :=
  move.2 = .coarse .allocateArgs ∧ ∃ store, move.1.sys.store.allocateArgs = some (slot, store)

/-- On the way from the first of the moves to `u`, the slot has the state
`ProxyOpNone` at some point before it is allocated again. -/
def Reached (slot : Slot) : List (FineMove Chan) → FineSystem Chan → Prop
  | [], u => u.sys.store.state slot = .proxyOpNone
  | move :: moves, u =>
      move.1.sys.store.state slot = .proxyOpNone ∨
        ¬ Allocates slot move ∧ Reached slot moves u

/-- The next write of the worker goes to the channel cell. -/
def WritesCell (c : Chan) (v : FineSystem Chan) : Prop :=
  ∃ value ws next, v.pending = some (.cell c value :: ws, next)

/-- An operation in the slot that was appended before the moves `since` is finished
in `u`: it has reached `ProxyOpNone`, and its callback is neither running nor
called again before the slot is appended again. -/
structure Finished (slot : Slot) (since : List (FineMove Chan)) (u : FineSystem Chan) :
    Prop where
  reached : Reached slot since u
  not_running : u.sys.worker.pc ≠ .running slot
  not_run_again : ∀ v moves, (fineMachine Chan).Path anyMove u moves v →
    (∀ move ∈ moves, ¬ Appends slot move) → v.sys.worker.pc ≠ .running slot

/-- From `u` on, the worker does not write the cell until a move releases it. -/
def CellLeft (released : FineMove Chan → Prop) (c : Chan) (u : FineSystem Chan) : Prop :=
  ∀ v moves, (fineMachine Chan).Path anyMove u moves v →
    (∀ move ∈ moves, ¬ released move) → ¬ WritesCell c v

/-- In `u` every operation whose append completed is finished, and the worker leaves
the cell of its channel alone until it is released. -/
def FinishedUntil (released : Slot → Chan → FineMove Chan → Prop)
    (history : List (FineMove Chan)) (u : FineSystem Chan) : Prop :=
  ∀ first v slot since c, history = first ++ (v, .coarse (.proxyArgsAppend slot)) :: since →
    v.sys.store.proxyTail slot = some c →
    Finished slot since u ∧ CellLeft (released slot c) c u

/-- The worker has just returned because of `handler->stop`. -/
def ReturnsByStop (history : List (FineMove Chan)) (u : FineSystem Chan) : Prop :=
  ∃ front move, history = front ++ [move] ∧ move.1.sys.worker.pc ≠ .returned true ∧
    u.sys.worker.pc = .returned true

/-! ### What a move does to the queue and to the places of the slots -/

section Moves

variable {cfg cfg' : Config Chan} {action : Action Chan} {slot : Slot} {c : Chan}

/-- A move leaves the ring as it is, appends to it or removes from it. -/
theorem Move.ring_cases (hmove : Move cfg action cfg') :
    cfg'.ring = cfg.ring ∨
      (∃ slot c, action = .proxyArgsAppend slot ∧ cfg.sys.store.proxyTail slot = some c ∧
        cfg'.ring = enqueue c slot cfg.ring) ∨
      ∃ front e back, cfg.ring = front ++ e :: back ∧
        cfg'.ring = front ++ e.pop.toList ++ back := by
  cases hmove with
  | @append _ _ _ slot c _ _ htail _ => exact .inr (.inl ⟨slot, c, rfl, htail, rfl⟩)
  | @remove _ front e back _ _ _ _ _ _ _ => exact .inr (.inr ⟨front, e, back, rfl, rfl⟩)
  | _ => exact .inl rfl

/-- Only its append puts a slot into the queue. -/
theorem Move.queued_of_queued (hinv : Inv cfg) (hmove : Move cfg action cfg')
    (hslot : slot ∈ queued cfg'.ring) :
    slot ∈ queued cfg.ring ∨ action = .proxyArgsAppend slot := by
  rcases hmove.ring_cases with hring | ⟨s, c, rfl, -, hring⟩ | ⟨front, e, back, hold, hring⟩
  · rw [hring] at hslot
    exact .inl hslot
  · rw [hring, (queued_enqueue hinv.represents.chains.chans).mem_iff] at hslot
    rcases List.mem_cons.mp hslot with rfl | hslot
    · exact .inr rfl
    · exact .inl hslot
  · rw [hring] at hslot
    rw [hold]
    have hmem : slot ∈ e.head :: [] ++ queued (front ++ e.pop.toList ++ back) :=
      List.mem_append_right _ hslot
    exact .inl ((queued_freed front back e []).mem_iff.mp hmem)

/-- Only an append to it puts a channel into the ring. -/
theorem Move.chan_of_chan (hinv : Inv cfg) (hmove : Move cfg action cfg')
    (hc : c ∈ cfg'.ring.map Entry.chan) :
    c ∈ cfg.ring.map Entry.chan ∨
      ∃ slot, action = .proxyArgsAppend slot ∧ cfg.sys.store.proxyTail slot = some c := by
  rcases hmove.ring_cases with hring | ⟨s, d, rfl, htail, hring⟩ | ⟨front, e, back, hold, hring⟩
  · rw [hring] at hc
    exact .inl hc
  · have hchans : (enqueue d s cfg.ring).map Entry.chan ⊆ d :: cfg.ring.map Entry.chan := by
      rcases enqueue_perm hinv.represents.chains.chans d s with
        ⟨e, rest, rfl, hperm, hnew⟩ | ⟨-, hnew⟩
      · intro b hb
        have hb' := (hnew.map Entry.chan).mem_iff.mp hb
        exact List.mem_cons_of_mem _ ((hperm.map Entry.chan).mem_iff.mpr (by simpa using hb'))
      · intro b hb
        exact (hnew.map Entry.chan).mem_iff.mp hb
    rw [hring] at hc
    rcases List.mem_cons.mp (hchans hc) with rfl | hc
    · exact .inr ⟨s, rfl, htail⟩
    · exact .inl hc
  · rw [hring] at hc
    rw [hold]
    left
    cases hpop : e.pop with
    | none =>
        simp only [hpop, Option.toList_none, List.append_nil, List.map_append, List.map_cons,
          List.mem_append, List.mem_cons] at hc ⊢
        tauto
    | some e' =>
        have hchan : e'.chan = e.chan := (Entry.slots_of_pop_some hpop).1
        simpa [hpop, hchan] using hc

/-- The slot belongs to the proxy: it is in no caller's hands. -/
structure Submitted (slot : Slot) (s : System Chan) : Prop where
  pools : slot.block ∈ s.store.pools
  not_returning : slot ∉ s.returning
  not_held : slot ∉ s.held

omit [DecidableEq Chan] in
/-- A slot that belongs to the proxy is free or queued. -/
theorem Inv.submitted_iff (hinv : Inv cfg) :
    Submitted slot cfg.sys ↔ slot ∈ cfg.free ++ queued cfg.ring := by
  constructor
  · rintro ⟨hpools, hreturning, hheld⟩
    have hmem := (hinv.mem_slots slot).mpr hpools
    simp only [Config.slots, List.mem_append] at hmem ⊢
    tauto
  · intro hmem
    refine ⟨(hinv.mem_slots slot).mp ?_, fun h => ?_, fun h => (hinv.held_apart h).2 hmem⟩
    · simp only [Config.slots, List.mem_append] at hmem ⊢
      tauto
    · obtain ⟨-, hfree, hqueued⟩ := hinv.returning_apart h
      exact (List.mem_append.mp hmem).elim hfree hqueued

/-- A slot leaves the proxy only when it is allocated, with the state `ProxyOpNone`. -/
theorem Move.submitted (hinv : Inv cfg) (hmove : Move cfg action cfg')
    (hslot : Submitted slot cfg.sys) (hstate : cfg.sys.store.state slot ≠ .proxyOpNone) :
    Submitted slot cfg'.sys := by
  obtain ⟨hpools, hreturning, hheld⟩ := hslot
  cases hmove with
  | @allocate s ring elem free =>
      refine ⟨hpools, fun hmem => ?_, hheld⟩
      rcases List.mem_cons.mp hmem with rfl | hmem
      · exact hstate (hinv.represents.finished slot List.mem_cons_self)
      · exact hreturning hmem
  | @allocateBlock s ring elem free hblock =>
      refine ⟨List.mem_cons_of_mem _ hpools, fun hmem => ?_, hheld⟩
      -- the new block is not among the old ones
      rcases List.mem_cons.mp hmem with rfl | hmem
      · have hnew : slot.block = s.store.nextBlock := by
          rw [← mem_blockSlots, hblock]
          exact List.mem_cons_self
        exact absurd hnew (Nat.ne_of_lt (hinv.blocks_lt _ hpools))
      · exact hreturning hmem
  | allocateReturn hmem =>
      refine ⟨hpools, fun h => hreturning (List.mem_of_mem_erase h), fun h => ?_⟩
      rcases List.mem_cons.mp h with rfl | h
      · exact hreturning hmem
      · exact hheld h
  | append hmem htail hws =>
      exact ⟨by rwa [writes_pools], hreturning, fun h => hheld (List.mem_of_mem_erase h)⟩
  | remove hpc hfollows hstate hws => exact ⟨by rwa [writes_pools], hreturning, hheld⟩
  | _ => exact ⟨hpools, hreturning, hheld⟩

/-- The worker returns because of `handler->stop` only when the queue is empty. -/
theorem Move.returned (hmove : Move cfg action cfg')
    (hpc : cfg'.sys.worker.pc = .returned true) :
    cfg.sys.worker.pc = .returned true ∨ cfg'.sys.store.ops = none := by
  have hsignal (w : Worker) (h : w.signal.pc = .returned true) : w.pc = .returned true := by
    unfold Worker.signal at h
    split at h
    · cases h
    · exact h
  cases hmove with
  | stop hfetch hops hstop => exact .inr hops
  | start hops => exact .inl (hsignal _ hpc)
  | requestStop => exact .inl (hsignal _ hpc)
  | keep hadvance hfollows hstate =>
      rw [Worker.endIteration_pc] at hpc
      cases hpc
  | remove hadvance hfollows hstate hws =>
      rw [Worker.endIteration_pc] at hpc
      cases hpc
  | allocate => exact .inl hpc
  | allocateBlock hblock => exact .inl hpc
  | allocateReturn hmem => exact .inl hpc
  | fill hmem => exact .inl hpc
  | append hmem htail hws => exact .inl hpc
  | crash hmem htail => exact .inl hpc
  | startEmpty hops => exact .inl hpc
  | setAbortFlag => exact .inl hpc
  | _ => cases hpc

end Moves

/-! ### What a fine step does to them -/

section FineSteps

variable {u u' : FineSystem Chan} {action : FineAction Chan} {slot : Slot} {c : Chan}
  {ring : List (Entry Chan)} {free : List Slot}

theorem settle_proxyTail : u.settle.store.proxyTail = u.sys.store.proxyTail := by
  unfold FineSystem.settle
  split
  · rfl
  · exact writes_proxyTail _ _

theorem settle_state : u.settle.store.state = u.sys.store.state := by
  unfold FineSystem.settle
  split
  · rfl
  · exact writes_state _ _

theorem settle_submitted : Submitted slot u.settle ↔ Submitted slot u.sys := by
  have hpools : u.settle.store.pools = u.sys.store.pools := by
    unfold FineSystem.settle
    split
    · rfl
    · exact writes_pools _ _
  have hhands : u.settle.returning = u.sys.returning ∧ u.settle.held = u.sys.held := by
    unfold FineSystem.settle
    split <;> exact ⟨rfl, rfl⟩
  constructor
  · rintro ⟨h, hreturning, hheld⟩
    exact ⟨hpools ▸ h, hhands.1 ▸ hreturning, hhands.2 ▸ hheld⟩
  · rintro ⟨h, hreturning, hheld⟩
    exact ⟨hpools.symm ▸ h, hhands.1.symm ▸ hreturning, hhands.2.symm ▸ hheld⟩

/-- Outside the section there is nothing to wait for. -/
theorem FineInv.settle_eq (hinv : FineInv u) (hpc : ∀ op, u.sys.worker.pc ≠ .advance op) :
    u.settle = u.sys := by
  cases hpending : u.pending with
  | none => simp [FineSystem.settle, hpending]
  | some rest =>
      obtain ⟨op, hop⟩ := (hinv.pending rest.1 rest.2 hpending).at_advance
      exact absurd hop (hpc op)

/-- A fine step leaves the configuration after the section alone or is a move of it. -/
theorem FineInv.config_step (hinv : FineInv u) (hconfig : Inv ⟨u.settle, ring, free⟩)
    (hstep : fineStep u action = some u') :
    u'.settle = u.settle ∨ ∃ a ring' free', action.seen = some a ∧
      Inv ⟨u'.settle, ring', free'⟩ ∧ Move ⟨u.settle, ring, free⟩ a ⟨u'.settle, ring', free'⟩ := by
  have hsettles := (hinv.step hstep).2
  unfold Settles at hsettles
  cases hseen : action.seen with
  | none =>
      rw [hseen] at hsettles
      exact .inl hsettles
  | some a =>
      rw [hseen] at hsettles
      obtain ⟨ring', free', hmove⟩ := hconfig.step_move hsettles
      exact .inr ⟨a, ring', free', rfl, hconfig.move hmove, hmove⟩

omit [DecidableEq Chan] in
theorem FineAction.of_seen_append (hseen : action.seen = some (.proxyArgsAppend slot)) :
    action = .coarse (.proxyArgsAppend slot) := by
  cases action with
  | coarse a => exact congrArg _ (Option.some.inj hseen)
  | _ => cases hseen

/-- The slot is not queued, seen after the section under way. -/
def Unqueued (slot : Slot) (u : FineSystem Chan) : Prop :=
  ∃ ring free, Inv ⟨u.settle, ring, free⟩ ∧ slot ∉ queued ring

theorem Unqueued.step (hinv : FineInv u) (hout : Unqueued slot u)
    (hstep : fineStep u action = some u') (hguard : ¬ Appends slot (u, action)) :
    Unqueued slot u' := by
  obtain ⟨ring, free, hconfig, hslot⟩ := hout
  rcases hinv.config_step hconfig hstep with hsame | ⟨a, ring', free', hseen, hconfig', hmove⟩
  · exact ⟨ring, free, hsame ▸ hconfig, hslot⟩
  · refine ⟨ring', free', hconfig', fun hmem => ?_⟩
    rcases hmove.queued_of_queued hconfig hmem with hmem | rfl
    · exact hslot hmem
    · exact hguard (FineAction.of_seen_append hseen)

/-- The callback of a slot that is not queued is not running. -/
theorem Unqueued.not_running (hinv : FineInv u) (hout : Unqueued slot u) :
    u.sys.worker.pc ≠ .running slot := by
  intro hpc
  obtain ⟨ring, free, hconfig, hslot⟩ := hout
  have hsettle : u.settle = u.sys := hinv.settle_eq (fun op hop => by cases hpc.symm.trans hop)
  rw [hsettle] at hconfig
  have hcursor := hconfig.cursor slot (by simp [hpc, Pc.op])
  exact hslot ((heads_sublist_queued ring).subset hcursor)

/-- The channel has nothing in the ring, and the section under way does not write
its cell. -/
structure Quiet (c : Chan) (u : FineSystem Chan) : Prop where
  idle : ∃ ring free, Inv ⟨u.settle, ring, free⟩ ∧ c ∉ ring.map Entry.chan
  pending : ∀ ws next, u.pending = some (ws, next) → ∀ value, .cell c value ∉ ws

theorem Quiet.step (hinv : FineInv u) (hquiet : Quiet c u)
    (hstep : fineStep u action = some u') (hguard : ¬ AppendsTo c (u, action)) : Quiet c u' := by
  obtain ⟨⟨ring, free, hconfig, hc⟩, hpending⟩ := hquiet
  constructor
  · rcases hinv.config_step hconfig hstep with hsame | ⟨a, ring', free', hseen, hconfig', hmove⟩
    · exact ⟨ring, free, hsame ▸ hconfig, hc⟩
    · refine ⟨ring', free', hconfig', fun hmem => ?_⟩
      rcases hmove.chan_of_chan hconfig hmem with hmem | ⟨slot, rfl, htail⟩
      · exact hc hmem
      · rw [settle_proxyTail] at htail
        exact hguard ⟨slot, FineAction.of_seen_append hseen, htail⟩
  · intro ws next hws value hmem
    cases fineStep_cases hstep with
    | coarse hadv hs' => cases hws
    | unlocked hunlocked hs' => exact hpending ws next hws value hmem
    | crash hpc hlive hws' => cases hws
    | @enter s op ws' next' hpc hlive hws' =>
        cases hws
        -- the section writes the cell of an entry that is still in the ring
        have hbefore : Inv ⟨s, ring, free⟩ := hconfig
        obtain ⟨front, e, back, rfl, hfollows⟩ :=
          exists_follows (hbefore.cursor op (by simp [hpc, Pc.op]))
        have hchan := (hbefore.represents.advanceWrites_mem hfollows hws' hmem).2 c value rfl
        exact hc (by simp [hchan])
    | write =>
        cases hws
        exact hpending _ _ rfl value (List.mem_cons_of_mem _ hmem)
    | leave => cases hws

end FineSteps

/-! ### What a run does to them -/

section Runs

variable {u v w : FineSystem Chan} {history moves : List (FineMove Chan)} {slot : Slot} {c : Chan}

/-- What every step keeps until a move releases it is kept until then. -/
theorem FineInv.keep_until (property : FineSystem Chan → Prop) (released : FineMove Chan → Prop)
    (hkeep : ∀ u action v, FineInv u → property u → fineStep u action = some v →
      ¬ released (u, action) → property v)
    (hinv : FineInv u) (hstart : property u)
    (hpath : (fineMachine Chan).Path anyMove u moves v)
    (hmoves : ∀ move ∈ moves, ¬ released move) : FineInv v ∧ property v := by
  have hguarded : (fineMachine Chan).Path (fun w action => ¬ released (w, action)) u moves v :=
    hpath.reguard fun move hmove _ => hmoves move hmove
  refine hguarded.invariant (fun w => FineInv w ∧ property w) ?_ ⟨hinv, hstart⟩
  rintro w action w' ⟨hinv, hproperty⟩ hguard hstep
  exact ⟨(hinv.step hstep).1, hkeep w action w' hinv hproperty hstep hguard⟩

/-- A step that hands out a slot takes it from the proxy. -/
theorem Allocates.not_submitted {move : FineMove Chan} (hallocates : Allocates slot move)
    (hstep : fineStep move.1 move.2 = some v) : ¬ Submitted slot v.sys := by
  obtain ⟨⟨s, pending⟩, action⟩ := move
  obtain ⟨rfl, store, hstore⟩ : action = .coarse .allocateArgs ∧ _ := hallocates
  cases fineStep_cases hstep with
  | unlocked hunlocked hs' => cases hunlocked
  | coarse hadv hs' =>
      cases hcrashed : s.crashed with
      | true => simp [step, hcrashed] at hs'
      | false =>
          simp only [step, hcrashed, Bool.false_eq_true, if_false, liveStep, hstore,
            Option.some.injEq] at hs'
          subst hs'
          exact fun hsubmitted => hsubmitted.not_returning List.mem_cons_self

/-- A slot that belongs to the proxy and is not queued in the end has reached
`ProxyOpNone` before it was allocated again. -/
theorem reached_of_path (hpath : (fineMachine Chan).Path anyMove w moves u) (hinv : FineInv w)
    (hslot : Submitted slot w.sys) (hout : Unqueued slot u) : Reached slot moves u := by
  induction moves generalizing w with
  | nil =>
      cases Trace.nil_iff.mp hpath
      obtain ⟨ring, free, hconfig, hqueued⟩ := hout
      have hplace := hconfig.submitted_iff.mp (settle_submitted.mpr hslot)
      have hfree := (List.mem_append.mp hplace).resolve_right hqueued
      have hstate := hconfig.represents.finished slot hfree
      rwa [settle_state] at hstate
  | cons move moves ih =>
      obtain ⟨b, hallowed, hrest⟩ := Trace.head hpath
      obtain ⟨before, action⟩ := move
      obtain rfl : before = w := hallowed.before
      have hstep : fineStep before action = some b := hallowed.step
      -- only a finished slot can leave the proxy
      by_cases hstate : before.sys.store.state slot = .proxyOpNone
      · exact .inl hstate
      · have hkept : Submitted slot b.sys := by
          obtain ⟨ring, free, hconfig⟩ := hinv.settled
          rw [← settle_submitted] at hslot ⊢
          rcases hinv.config_step hconfig hstep with hsame | ⟨a, ring', free', -, -, hmove⟩
          · rwa [hsame]
          · exact hmove.submitted hconfig hslot (by rwa [settle_state])
        exact .inr ⟨fun hallocates => hallocates.not_submitted hstep hkept,
          ih hrest (hinv.step hstep).1 hkept⟩

/-- After its append a slot belongs to the proxy. -/
theorem submitted_of_append (hinv : FineInv u)
    (hstep : fineStep u (.coarse (.proxyArgsAppend slot)) = some v)
    (htail : u.sys.store.proxyTail slot = some c) : Submitted slot v.sys := by
  obtain ⟨ring, free, hconfig⟩ := hinv.settled
  have hsettles : step u.settle (.proxyArgsAppend slot) = some v.settle := (hinv.step hstep).2
  obtain ⟨ring', free', hmove⟩ := hconfig.step_move hsettles
  have hconfig' := hconfig.move hmove
  rw [← settle_submitted]
  rw [← settle_proxyTail] at htail
  refine hconfig'.submitted_iff.mpr (List.mem_append_right _ ?_)
  generalize hv : v.settle = t at hmove hconfig'
  cases hmove with
  | append hmem htail' hws =>
      exact (queued_enqueue hconfig.represents.chains.chans).mem_iff.mpr List.mem_cons_self
  | crash hmem hnull => cases htail.symm.trans hnull

theorem settle_returned (hpc : u.settle.worker.pc = .returned true) :
    u.sys.worker.pc = .returned true := by
  unfold FineSystem.settle at hpc
  split at hpc
  · exact hpc
  · rw [Worker.endIteration_pc] at hpc
    cases hpc

/-- When the worker returns because of `handler->stop`, the queue is empty. -/
theorem ReturnsByStop.ops (hrun : (fineMachine Chan).Run anyMove history u)
    (hreturns : ReturnsByStop history u) : u.sys.store.ops = none := by
  obtain ⟨front, ⟨before, action⟩, rfl, hbefore, hafter⟩ := hreturns
  obtain ⟨start, hinit, hpath⟩ := hrun
  obtain ⟨x, hfront, hlast⟩ := hpath.split
  obtain rfl : before = x := hlast.single.before
  have hinv : FineInv before := fine_reachable_inv ⟨front, start, hinit, hfront⟩
  have hstep : fineStep before action = some u := hlast.single.step
  have hsettle : u.settle = u.sys :=
    (hinv.step hstep).1.settle_eq (fun op hop => by cases hafter.symm.trans hop)
  rw [← hsettle] at hafter ⊢
  obtain ⟨ring, free, hconfig⟩ := hinv.settled
  rcases hinv.config_step hconfig hstep with hsame | ⟨a, ring', free', -, -, hmove⟩
  · rw [hsame] at hafter
    exact absurd (settle_returned hafter) hbefore
  · rcases hmove.returned hafter with hold | hops
    · exact absurd (settle_returned hold) hbefore
    · exact hops

/-- **An empty queue means that everything is finished**: when a reader without the
mutex sees it, and when the worker returns because of `handler->stop`. -/
theorem proxy_empty_finished (hrun : (fineMachine Chan).Run anyMove history u)
    (hempty : u.sys.store.ops = none ∨ ReturnsByStop history u) :
    FinishedUntil (fun _ c => AppendsTo c) history u := by
  have hinv : FineInv u := fine_reachable_inv hrun.reachable
  have hread : u.sys.store.ops = none := hempty.elim id (ReturnsByStop.ops hrun)
  obtain ⟨ring, free, hconfig⟩ := hinv.settled
  obtain rfl : ring = [] := hconfig.ring_nil (hinv.settle_ops hread)
  rintro first before slot since c rfl htail
  have hout : Unqueued slot u := ⟨[], free, hconfig, List.not_mem_nil⟩
  obtain ⟨start, hinit, hpath⟩ := hrun
  obtain ⟨x, hfirst, hrest⟩ := hpath.split
  obtain ⟨after, hallowed, hsince⟩ := hrest.head
  obtain rfl : before = x := hallowed.before
  have hbefore : FineInv before := fine_reachable_inv ⟨first, start, hinit, hfirst⟩
  have hstep : fineStep before (.coarse (.proxyArgsAppend slot)) = some after := hallowed.step
  refine ⟨⟨?_, hout.not_running hinv, fun v moves hcont hmoves => ?_⟩,
    fun v moves hcont hmoves => ?_⟩
  · exact reached_of_path hsince (hbefore.step hstep).1 (submitted_of_append hbefore hstep htail)
      hout
  · obtain ⟨hv, hslot⟩ := hinv.keep_until (Unqueued slot) (Appends slot)
      (fun _ _ _ hinv hout hstep hguard => hout.step hinv hstep hguard) hout hcont hmoves
    exact hslot.not_running hv
  · have hquiet : Quiet c u := by
      refine ⟨⟨[], free, hconfig, List.not_mem_nil⟩, fun ws next hpending value hmem => ?_⟩
      -- the cells are written before `handler->ops`
      have hlinks := (hinv.pending ws next hpending).links hread
      cases hlinks _ hmem
    obtain ⟨-, hquiet'⟩ := hinv.keep_until (Quiet c) (AppendsTo c)
      (fun _ _ _ hinv hquiet hstep hguard => hquiet.step hinv hstep hguard) hquiet hcont hmoves
    rintro ⟨value, ws, next, hpending⟩
    exact hquiet'.pending _ next hpending value List.mem_cons_self

end Runs

/-! ### Two operations of one channel -/

/-- A slot is allocated and filled in. -/
def prepare (slot : Slot) (c : Chan) : List (FineAction Chan) :=
  [.coarse .allocateArgs, .coarse (.allocateArgsReturn slot),
    .coarse (.fill slot .proxyOpReady c)]

/-- Two callers have got a slot for the same channel. -/
def twoPrepared : List (FineAction Bool) := prepare ⟨0, 0⟩ true ++ prepare ⟨0, 1⟩ true

/-- The slot is appended to the empty queue, and the worker runs it to its end, up to
the beginning of its locked section. -/
def appendAndRun (slot : Slot) : List (FineAction Chan) :=
  [.coarse (.proxyArgsAppend slot), .coarse .worker, .coarse .worker, .coarse .worker,
    .coarse (.progressReturn .proxyOpNone false), .beginAdvance]

/-- The worker writes the channel cell and `handler->ops`. -/
def firstFinished : List (FineAction Bool) := appendAndRun ⟨0, 0⟩ ++ [.write, .write]

/-- The section ends, and the second operation runs. -/
def secondRun : List (FineAction Bool) :=
  [.write, .write, .endAdvance] ++ appendAndRun ⟨0, 1⟩

/-- A reader sees the empty queue before the worker has written the free list. -/
theorem proxy_empty_finished_mid_section :
    ∃ history, ∃ u : FineSystem Bool, u.sys.store.ops = none ∧ u.pending ≠ none ∧
      FinishedUntil (fun _ c => AppendsTo c) history u := by
  have hrun := Machine.run_of_exec (fineMachine Bool) anyMove ⟨.initial Bool, none⟩
    (twoPrepared ++ firstFinished) rfl rfl
  exact ⟨_, _, rfl, Option.some_ne_none _, proxy_empty_finished hrun (.inl rfl)⟩

/-- After the first operation is finished, the worker writes the cell of its channel
although its slot was not appended again: the second operation was. -/
theorem proxy_cell_written_again :
    ¬ ∀ history (u : FineSystem Bool), (fineMachine Bool).Run anyMove history u →
      u.sys.store.ops = none ∨ ReturnsByStop history u →
      FinishedUntil (fun slot _ => Appends slot) history u := by
  intro hall
  have hnot : FineAction.coarse (.proxyArgsAppend ⟨0, 0⟩) ∉ secondRun := by
    simp [secondRun, appendAndRun, proxyArgsAllocateSize]
  have hprepared := path_of_exec (fineMachine Bool) anyMove ⟨.initial Bool, none⟩ twoPrepared rfl
  have hfinished := hprepared.trans (path_of_exec (fineMachine Bool) anyMove _ firstFinished rfl)
  have hleft := (hall _ _ ⟨_, rfl, hfinished⟩ (.inl rfl) _ _ ⟨0, 0⟩ _ true rfl rfl).2
  refine hleft _ _ (path_of_exec (fineMachine Bool) anyMove _ secondRun rfl)
    (fun move hmove happends => hnot ?_) ⟨none, _, _, rfl⟩
  exact happends ▸ action_mem_of_mem_moves hmove

end Proxy
end FlashReduce
