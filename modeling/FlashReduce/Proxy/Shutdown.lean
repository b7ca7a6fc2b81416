import FlashReduce.Library.ListUpdate
import FlashReduce.Proxy.Invariant

/-!
# Sleeping and leaving

When `persistentThread` sleeps, and in which state it leaves the queue when it returns.

* `no_lost_wakeup`: once every append has been followed by a `ProxyStart`, the
  worker sleeps only when the queue is empty.
* `stop_not_lost`: after the stop request of `ProxyDestroy` the worker never sleeps
  again, as long as no `ProxyStart` finds operations while the request is pending;
  such a `ProxyStart` takes the request back, and `stop_lost` is a run in which the
  worker then sleeps for good.
* `returned_empty_iff`: the worker has left an empty queue behind exactly when it saw
  `*abortFlag` set only on an empty queue; with `stop` it leaves no operation behind.
-/

namespace FlashReduce
namespace Proxy

open Library

variable {Chan : Type}

def Action.isProxyStart : Action Chan → Bool
  | .proxyStart => true
  | _ => false

def Action.isRequestStop : Action Chan → Bool
  | .requestStop => true
  | _ => false

def Action.isAppend : Action Chan → Bool
  | .proxyArgsAppend _ => true
  | _ => false

/-- `persistentThread` has returned. -/
def Pc.isReturned : Pc → Bool
  | .returned _ => true
  | _ => false

/-- A signal ends the sleep of the worker. -/
theorem Worker.signal_not_sleeping (w : Worker) : w.signal.pc ≠ .sleeping := by
  unfold Worker.signal
  split
  · nofun
  · assumption

theorem Worker.signal_isReturned (w : Worker) : w.signal.pc.isReturned = w.pc.isReturned := by
  unfold Worker.signal
  split
  · next hpc => rw [hpc]; rfl
  · rfl

/-! ### Operations that were announced -/

/-- Every append is followed by a `ProxyStart`. -/
def Announced : List (System Chan × Action Chan) → Prop
  | [] => True
  | move :: back =>
      (move.2.isAppend = true → ∃ start ∈ back, start.2.isProxyStart = true) ∧ Announced back

instance : ∀ history : List (System Chan × Action Chan), Decidable (Announced history)
  | [] => inferInstanceAs (Decidable True)
  | move :: back =>
      have : Decidable (Announced back) := instDecidableAnnounced back
      inferInstanceAs (Decidable ((move.2.isAppend = true →
        ∃ start ∈ back, start.2.isProxyStart = true) ∧ Announced back))

/-- After a last step that is no `ProxyStart`, everything was announced before, and the
step is no append. -/
theorem Announced.of_snoc {history : List (System Chan × Action Chan)}
    {move : System Chan × Action Chan} (h : Announced (history ++ [move]))
    (hstart : move.2.isProxyStart = false) : move.2.isAppend = false ∧ Announced history := by
  induction history with
  | nil =>
      refine ⟨?_, trivial⟩
      by_contra happend
      obtain ⟨start, hmem, -⟩ := h.1 (by simpa using happend)
      cases hmem
  | cons first history ih =>
      obtain ⟨hlast, hback⟩ := ih h.2
      refine ⟨hlast, ?_, hback⟩
      intro happend
      obtain ⟨start, hmem, hisStart⟩ := h.1 happend
      rcases List.mem_append.mp hmem with hold | hnew
      · exact ⟨start, hold, hisStart⟩
      · rw [List.mem_singleton.mp hnew, hstart] at hisStart
        cases hisStart

variable [DecidableEq Chan]

/-- The worker sleeps with operations in the queue only when it did so before, or when
the step appended one. -/
theorem Move.sleeping {cfg cfg' : Config Chan} {action : Action Chan}
    (hmove : Move cfg action cfg') (hsleeping : cfg'.sys.worker.pc = .sleeping)
    (hops : cfg'.sys.store.ops ≠ none) :
    action.isProxyStart = false ∧ (action.isAppend = true ∨
      cfg.sys.worker.pc = .sleeping ∧ cfg.sys.store.ops ≠ none) := by
  cases hmove with
  | append hmem htail hws => exact ⟨rfl, .inl rfl⟩
  | start hstarted => exact absurd hsleeping (Worker.signal_not_sleeping _)
  | startEmpty hempty => exact absurd hempty hops
  | requestStop => exact absurd hsleeping (Worker.signal_not_sleeping _)
  | sleep hpc hempty hstop => exact absurd hempty hops
  | keep hpc hfollows hstate =>
      rw [Worker.endIteration_pc] at hsleeping
      cases hsleeping
  | remove hpc hfollows hstate hws =>
      rw [Worker.endIteration_pc] at hsleeping
      cases hsleeping
  | abort | topFetch | topVisit | stop | fetchVisit | wake | run | skip | progressReturn
  | spuriousWakeup => cases hsleeping
  | allocate | allocateBlock | allocateReturn | fill | crash | setAbortFlag =>
      exact ⟨rfl, .inr ⟨hsleeping, hops⟩⟩

/-- **No wake-up for work is lost.**  When every append of a run has been followed by a
`ProxyStart`, the worker sleeps without a signal only when the queue is empty. -/
theorem no_lost_wakeup {guard : System Chan → Action Chan → Prop}
    {history : List (System Chan × Action Chan)} {s : System Chan}
    (hrun : (machine Chan).Run guard history s) (hannounced : Announced history)
    (hsleeping : s.worker.pc = .sleeping) : s.store.ops = none := by
  revert hannounced hsleeping
  refine hrun.induction (fun history s => Announced history → s.worker.pc = .sleeping →
    s.store.ops = none) ?_ ?_
  · rintro s rfl - -
    rfl
  · intro history s action t hbefore ih _ hstep hannounced hsleeping
    by_contra hops
    obtain ⟨ring, free, hinv⟩ := reachable_inv hbefore.reachable
    obtain ⟨ring', free', hmove⟩ := hinv.step_move hstep
    obtain ⟨hstart, hcases⟩ := hmove.sleeping hsleeping hops
    obtain ⟨happend, hearlier⟩ := hannounced.of_snoc hstart
    rcases hcases with hnew | ⟨hslept, hfilled⟩
    · rw [hnew] at happend
      cases happend
    · exact hfilled (ih hearlier hslept)

/-- A schedule that puts the worker to sleep, appends an operation and announces it. -/
def announcingSchedule : List (Action Unit) :=
  [.worker, .worker, .allocateArgs, .allocateArgsReturn ⟨0, 0⟩, .fill ⟨0, 0⟩ .proxyOpReady (),
    .proxyArgsAppend ⟨0, 0⟩, .proxyStart, .worker, .worker, .worker, .worker,
    .progressReturn .proxyOpNone false, .worker, .worker, .worker]

/-- After it the worker sleeps again, on an empty queue. -/
theorem no_lost_wakeup_drained :
    ∃ s : System Unit, s.worker.pc = .sleeping ∧ s.store.ops = none := by
  have hrun := Machine.run_of_exec (machine Unit) Machine.anyMove (.initial Unit)
    announcingSchedule rfl rfl
  exact ⟨_, rfl, no_lost_wakeup hrun (by decide) rfl⟩

/-! ### The stop request -/

/-- A `ProxyStart` finds the queue empty while a stop request is pending, unless the
worker is gone. -/
def StopKept (s : System Chan) (action : Action Chan) : Prop :=
  action.isProxyStart = true → s.store.stop = true → s.store.ops = none ∨
    s.worker.pc.isReturned = true

instance (s : System Chan) (action : Action Chan) : Decidable (StopKept s action) :=
  inferInstanceAs (Decidable (action.isProxyStart = true → s.store.stop = true →
    s.store.ops = none ∨ s.worker.pc.isReturned = true))

/-- The worker is gone, or the request is pending and the worker is awake. -/
def Stopping (s : System Chan) : Prop :=
  s.worker.pc.isReturned = true ∨ s.store.stop = true ∧ s.worker.pc ≠ .sleeping

theorem Move.stopping {cfg cfg' : Config Chan} {action : Action Chan}
    (hmove : Move cfg action cfg') (hguard : StopKept cfg.sys action)
    (h : Stopping cfg.sys) : Stopping cfg'.sys := by
  cases hmove with
  | requestStop => exact .inr ⟨rfl, Worker.signal_not_sleeping _⟩
  | start hops =>
      left
      rw [Worker.signal_isReturned]
      rcases h with hreturned | ⟨hstop, -⟩
      · exact hreturned
      · exact (hguard rfl hstop).resolve_left hops
  | append hmem htail hws =>
      rcases h with hreturned | ⟨hstop, hawake⟩
      · exact .inl hreturned
      · exact .inr ⟨(writes_stop _ _).trans hstop, hawake⟩
  | remove hpc hfollows hstate hws =>
      rcases h with hreturned | ⟨hstop, -⟩
      · rw [hpc] at hreturned
        cases hreturned
      · refine .inr ⟨(writes_stop _ _).trans hstop, ?_⟩
        rw [Worker.endIteration_pc]
        nofun
  | keep hpc hfollows hstate =>
      rcases h with hreturned | ⟨hstop, -⟩
      · rw [hpc] at hreturned
        cases hreturned
      · refine .inr ⟨hstop, ?_⟩
        rw [Worker.endIteration_pc]
        nofun
  | sleep hpc hops hstop =>
      rcases h with hreturned | ⟨hpending, -⟩
      · rw [hpc] at hreturned
        cases hreturned
      · rw [hstop] at hpending
        cases hpending
  | abort hpc hflag | stop hpc hops hstop => exact .inl rfl
  | topFetch hpc | topVisit hpc | fetchVisit hpc | wake hpc | run hpc | skip hpc
  | progressReturn hpc | spuriousWakeup hpc =>
      rcases h with hreturned | ⟨hstop, -⟩
      · rw [hpc] at hreturned
        cases hreturned
      · exact .inr ⟨hstop, nofun⟩
  | allocate | allocateBlock | allocateReturn | fill | crash | setAbortFlag | startEmpty => exact h

/-- A worker that neither sleeps nor has returned takes its next step, or waits for the
progress callback. -/
theorem worker_enabled {s : System Chan} (hlive : s.crashed = false)
    (hawake : s.worker.pc ≠ .sleeping) (hreturned : s.worker.pc.isReturned = false) :
    (∃ op, s.worker.pc = .running op) ∨ (step s .worker).isSome = true := by
  simp only [step, hlive, Bool.false_eq_true, if_false, liveStep, workerStep]
  cases hpc : s.worker.pc with
  | top op =>
      right
      cases s.store.abortFlag <;> cases op <;> rfl
  | fetch =>
      right
      cases s.store.ops <;> cases s.store.stop <;> rfl
  | sleeping => exact absurd hpc hawake
  | waking => exact .inr rfl
  | visit op =>
      right
      dsimp only
      split <;> rfl
  | running op => exact .inl ⟨op, rfl⟩
  | advance op =>
      right
      dsimp only
      split <;> rfl
  | returned stopped =>
      rw [hpc] at hreturned
      cases hreturned

/-- **The stop request is not lost** in a run in which every `ProxyStart` finds the queue
empty while the request is pending, or comes after the end of the worker: the worker does
not sleep again, so that the one who joins it waits for its next step or for a callback. -/
theorem stop_not_lost {history : List (System Chan × Action Chan)} {s : System Chan}
    (hrun : (machine Chan).Run StopKept history s)
    (hstop : ∃ move ∈ history, move.2.isRequestStop = true) :
    s.worker.pc ≠ .sleeping ∧ (s.crashed = false → s.worker.pc.isReturned = false →
      (∃ op, s.worker.pc = .running op) ∨ (step s .worker).isSome = true) := by
  have hstopping : Stopping s := by
    revert hstop
    refine hrun.induction (fun history s => (∃ move ∈ history, move.2.isRequestStop = true) →
      Stopping s) ?_ ?_
    · rintro s - ⟨move, hmem, -⟩
      cases hmem
    · rintro history s action t hbefore ih hguard hstep ⟨move, hmem, hrequest⟩
      obtain ⟨ring, free, hinv⟩ := reachable_inv hbefore.reachable
      obtain ⟨ring', free', hmove⟩ := hinv.step_move hstep
      rcases List.mem_append.mp hmem with hold | hnew
      · exact hmove.stopping hguard (ih ⟨move, hold, hrequest⟩)
      · rw [List.mem_singleton.mp hnew] at hrequest
        cases hmove with
        | requestStop => exact .inr ⟨rfl, Worker.signal_not_sleeping _⟩
        | _ => cases hrequest
  have hawake : s.worker.pc ≠ .sleeping := by
    rcases hstopping with hreturned | ⟨-, hawake⟩
    · intro hsleeping
      rw [hsleeping] at hreturned
      cases hreturned
    · exact hawake
  exact ⟨hawake, fun hlive hrunning => worker_enabled hlive hawake hrunning⟩

/-- The stop request comes while the worker is at its operation. -/
theorem stop_not_lost_running :
    ∃ s : System Unit, s.worker.pc = .running ⟨0, 0⟩ ∧ s.store.stop = true ∧
      s.worker.pc ≠ .sleeping := by
  have hrun := Machine.run_of_exec (machine Unit) StopKept (.initial Unit)
    [.allocateArgs, .allocateArgsReturn ⟨0, 0⟩, .fill ⟨0, 0⟩ .proxyOpReady (),
      .proxyArgsAppend ⟨0, 0⟩, .proxyStart, .worker, .worker, .worker, .requestStop] rfl rfl
  have hawake := stop_not_lost hrun (by decide)
  exact ⟨_, rfl, rfl, hawake.1⟩

/-- Without the condition the request is lost: an append and a `ProxyStart` of another
thread come between the request of `ProxyDestroy` and the moment the worker looks at it.
The `ProxyStart` clears `stop`, and the worker sleeps when the operation is done. -/
theorem stop_lost :
    ¬ ∀ (history : List (System Unit × Action Unit)) (s : System Unit),
      (machine Unit).Run Machine.anyMove history s →
      (∃ move ∈ history, move.2.isRequestStop = true) → s.worker.pc ≠ .sleeping := by
  intro hall
  have hrun := Machine.run_of_exec (machine Unit) Machine.anyMove (.initial Unit)
    [.allocateArgs, .allocateArgsReturn ⟨0, 0⟩, .fill ⟨0, 0⟩ .proxyOpReady (), .requestStop,
      .proxyArgsAppend ⟨0, 0⟩, .proxyStart, .worker, .worker, .worker,
      .progressReturn .proxyOpNone false, .worker, .worker, .worker] rfl rfl
  exact hall _ _ hrun (by decide) rfl

/-! ### What the worker leaves behind -/

/-- Nobody appends after the worker has returned. -/
def AppendsServed (s : System Chan) (action : Action Chan) : Prop :=
  action.isAppend = true → s.worker.pc.isReturned = false

instance (s : System Chan) (action : Action Chan) : Decidable (AppendsServed s action) :=
  inferInstanceAs (Decidable (action.isAppend = true → s.worker.pc.isReturned = false))

def Pc.isTop : Pc → Bool
  | .top _ => true
  | _ => false

def Action.isWorker : Action Chan → Bool
  | .worker => true
  | _ => false

/-- The worker tests `*abortFlag` and finds it set. -/
def SeesAbort (move : System Chan × Action Chan) : Prop :=
  move.2.isWorker = true ∧ move.1.worker.pc.isTop = true ∧ move.1.store.abortFlag = true

instance (move : System Chan × Action Chan) : Decidable (SeesAbort move) :=
  inferInstanceAs (Decidable (move.2.isWorker = true ∧ move.1.worker.pc.isTop = true ∧
    move.1.store.abortFlag = true))

/-- No slot of a block that `ProxyDestroy` frees can be reached from `handler->ops` or
from a channel cell. -/
def Unreferenced (st : Store Chan) : Prop :=
  ∀ slot, (st.ops = some slot ∨ ∃ c, st.cell c = some slot) → slot.block ∉ st.pools

/-- A step of a worker that has not returned: it returns because it sees the abort flag or
because the queue is empty, or it goes on and has not seen the abort flag. -/
theorem Move.returns {cfg cfg' : Config Chan} {action : Action Chan}
    (hmove : Move cfg action cfg') (hrunning : cfg.sys.worker.pc.isReturned = false) :
    (cfg'.sys.worker.pc.isReturned = true ∧ cfg'.sys.store.ops = cfg.sys.store.ops ∧
        (cfg.sys.store.ops = none ∨ SeesAbort (cfg.sys, action))) ∨
      cfg'.sys.worker.pc.isReturned = false ∧ ¬ SeesAbort (cfg.sys, action) := by
  have hbelow {pc : Pc} (hpc : cfg.sys.worker.pc = pc) (hnot : pc.isTop = false) :
      ¬ SeesAbort (cfg.sys, action) := by
    rintro ⟨-, htop, -⟩
    rw [hpc, hnot] at htop
    cases htop
  cases hmove with
  | abort hpc hflag => exact .inl ⟨rfl, rfl, .inr ⟨rfl, by rw [hpc]; rfl, hflag⟩⟩
  | stop hpc hops hstop => exact .inl ⟨rfl, rfl, .inl hops⟩
  | topFetch hpc hflag | topVisit hpc hflag =>
      refine .inr ⟨rfl, ?_⟩
      rintro ⟨-, -, hset⟩
      rw [hflag] at hset
      cases hset
  | sleep hpc | fetchVisit hpc | wake hpc | run hpc | skip hpc => exact .inr ⟨rfl, hbelow hpc rfl⟩
  | keep hpc | remove hpc =>
      refine .inr ⟨?_, hbelow hpc rfl⟩
      rw [Worker.endIteration_pc]
      rfl
  | start | requestStop =>
      refine .inr ⟨?_, nofun⟩
      rw [Worker.signal_isReturned]
      exact hrunning
  | progressReturn | spuriousWakeup => exact .inr ⟨rfl, nofun⟩
  | allocate | allocateBlock | allocateReturn | fill | append | crash | startEmpty
  | setAbortFlag => exact .inr ⟨hrunning, nofun⟩

/-- Once the worker has returned, only an append changes `handler->ops`. -/
theorem Move.gone {cfg cfg' : Config Chan} {action : Action Chan} (hmove : Move cfg action cfg')
    (hreturned : cfg.sys.worker.pc.isReturned = true) (happend : action.isAppend = false) :
    cfg'.sys.worker.pc.isReturned = true ∧ cfg'.sys.store.ops = cfg.sys.store.ops ∧
      ¬ SeesAbort (cfg.sys, action) := by
  have hno {pc : Pc} (hpc : cfg.sys.worker.pc = pc) (hnot : pc.isReturned = false) : False := by
    rw [hpc, hnot] at hreturned
    cases hreturned
  cases hmove with
  | append => cases happend
  | abort hpc | topFetch hpc | topVisit hpc | stop hpc | sleep hpc | fetchVisit hpc | wake hpc
  | run hpc | skip hpc | keep hpc | remove hpc | progressReturn hpc | spuriousWakeup hpc =>
      exact (hno hpc rfl).elim
  | start | requestStop =>
      refine ⟨?_, rfl, nofun⟩
      rw [Worker.signal_isReturned]
      exact hreturned
  | allocate | allocateBlock | allocateReturn | fill | crash | startEmpty | setAbortFlag =>
      exact ⟨hreturned, rfl, nofun⟩

/-- The abort flag was seen only on an empty queue. -/
def AbortsEmpty (history : List (System Chan × Action Chan)) : Prop :=
  ∀ move ∈ history, SeesAbort move → move.1.store.ops = none

instance (history : List (System Chan × Action Chan)) : Decidable (AbortsEmpty history) :=
  inferInstanceAs (Decidable (∀ move ∈ history, SeesAbort move → move.1.store.ops = none))

/-- While the worker runs it has not seen the abort flag; when it has returned, the queue
tells whether it saw the flag on an empty queue. -/
theorem returned_history {history : List (System Chan × Action Chan)} {s : System Chan}
    (hrun : (machine Chan).Run AppendsServed history s) :
    (s.worker.pc.isReturned = false → ∀ move ∈ history, ¬ SeesAbort move) ∧
      (s.worker.pc.isReturned = true → (s.store.ops = none ↔ AbortsEmpty history)) := by
  refine hrun.induction (fun history s =>
    (s.worker.pc.isReturned = false → ∀ move ∈ history, ¬ SeesAbort move) ∧
      (s.worker.pc.isReturned = true → (s.store.ops = none ↔ AbortsEmpty history))) ?_ ?_
  · rintro s rfl
    constructor
    · intro _ move hmem
      cases hmem
    · intro hreturned
      cases hreturned
  · rintro history s action t hbefore ⟨ihrunning, ihreturned⟩ hguard hstep
    obtain ⟨ring, free, hinv⟩ := reachable_inv hbefore.reachable
    obtain ⟨ring', free', hmove⟩ := hinv.step_move hstep
    have hsnoc : AbortsEmpty (history ++ [(s, action)]) ↔
        AbortsEmpty history ∧ (SeesAbort (s, action) → s.store.ops = none) := by
      simp [AbortsEmpty, or_imp, forall_and]
    cases hgone : s.worker.pc.isReturned with
    | false =>
        -- the worker returns in this step, or runs on without having seen the flag
        have hearlier := ihrunning hgone
        have hempty : AbortsEmpty history := fun move hmem hsees => absurd hsees (hearlier move hmem)
        rcases hmove.returns hgone with ⟨hreturned, hops, hcases⟩ | ⟨hrunning, hnot⟩
        · refine ⟨fun h => ?_, fun _ => ?_⟩
          · rw [hreturned] at h
            cases h
          · rw [hsnoc, and_iff_right hempty]
            constructor
            · intro hnone _
              exact hops.symm.trans hnone
            · intro himp
              refine hops.trans ?_
              rcases hcases with hnone | hsees
              · exact hnone
              · exact himp hsees
        · refine ⟨fun _ => ?_, fun h => ?_⟩
          · exact forall_mem_snoc hearlier hnot
          · rw [hrunning] at h
            cases h
    | true =>
        -- nothing is appended any more, so the queue stays as the worker left it
        have happend : action.isAppend = false := by
          by_contra h
          have hserved := hguard (by simpa using h)
          rw [hgone] at hserved
          cases hserved
        obtain ⟨hreturned, hops, hnot⟩ := hmove.gone hgone happend
        refine ⟨fun h => ?_, fun _ => ?_⟩
        · rw [hreturned] at h
          cases h
        · have hsame : t.store.ops = s.store.ops := hops
          rw [hsnoc, hsame, ihreturned hgone]
          constructor
          · intro h
            exact ⟨h, fun hsees => absurd hsees hnot⟩
          · exact And.left

/-- **Nobody waits for a worker that is gone.**  When `persistentThread` has returned and
nobody appended after that, `handler->ops` is `NULL` and no slot of a pool block is
referenced any more exactly when every look at a set `*abortFlag` found the queue empty. -/
theorem returned_empty_iff {history : List (System Chan × Action Chan)} {s : System Chan}
    (hrun : (machine Chan).Run AppendsServed history s)
    (hreturned : s.worker.pc.isReturned = true) :
    (s.store.ops = none ∧ Unreferenced s.store) ↔ AbortsEmpty history := by
  rw [← (returned_history hrun).2 hreturned]
  constructor
  · exact And.left
  · intro hops
    refine ⟨hops, ?_⟩
    obtain ⟨ring, free, hinv⟩ := reachable_inv hrun.reachable
    obtain rfl : ring = [] := hinv.ring_nil hops
    rintro slot (hqueue | ⟨c, hcell⟩)
    · rw [hops] at hqueue
      cases hqueue
    · have hnull : s.store.cell c = none := hinv.represents.chains.idle_cells c List.not_mem_nil
      rw [hnull] at hcell
      cases hcell

/-- The worker finishes its operation, sleeps, and is woken by the stop request. -/
theorem returned_empty_by_stop :
    ∃ s : System Unit, s.worker.pc = .returned true ∧ s.store.ops = none ∧
      Unreferenced s.store := by
  have hrun := Machine.run_of_exec (machine Unit) AppendsServed (.initial Unit)
    (announcingSchedule ++ [.requestStop, .worker, .worker, .worker]) rfl rfl
  have hempty := (returned_empty_iff hrun rfl).mpr (by decide)
  exact ⟨_, rfl, hempty⟩

/-- Without the condition the worker leaves an operation behind: the abort flag is set
while an operation is queued. -/
theorem returned_not_empty :
    ¬ ∀ (history : List (System Unit × Action Unit)) (s : System Unit),
      (machine Unit).Run AppendsServed history s → s.worker.pc.isReturned = true →
        s.store.ops = none := by
  intro hall
  have hrun := Machine.run_of_exec (machine Unit) AppendsServed (.initial Unit)
    [.allocateArgs, .allocateArgsReturn ⟨0, 0⟩, .fill ⟨0, 0⟩ .proxyOpReady (),
      .proxyArgsAppend ⟨0, 0⟩, .proxyStart, .setAbortFlag true, .worker] rfl rfl
  have hnone := hall _ _ hrun rfl
  cases hnone

end Proxy
end FlashReduce
