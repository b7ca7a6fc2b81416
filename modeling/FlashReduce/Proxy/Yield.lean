import FlashReduce.Proxy.Fairness
import FlashReduce.Proxy.FineSystem

/-!
# When the worker yields

The worker counts in `idleSpin` the rounds in which every operation was idle, and calls
`sched_yield` when there have been ten of them.  Its flag `idle` says whether the visits of
the round so far were idle, and a round is over when an iteration ends with the cursor at
`handler->ops`.

* `endsRound` are the steps that end a round, and `rounds` the rounds of a history.  What
  the worker does before it first gets back to `handler->ops` is a round as well.
* `Spins` ties `idle` and `idleSpin` to the rounds; `Spins.step` shows that it is kept.
* `endsRound_iff`: the rounds are the laps of the ring of turns, wherever
  `handler->ops` moves, so each operation that stays is visited once (`round_visits`).
* `worker_yields` is the result about all runs.
-/

namespace FlashReduce
namespace Proxy

open Library Library.Machine

variable {Chan : Type}

/-! ### Rounds -/

/-- The idle flag that a visit leaves in the operation: it is 0 when there is no callback. -/
def leftIdle : System Chan × Action Chan → Option Bool
  | (_, .progressReturn _ idle) => some idle
  | (s, .worker) =>
      match s.worker.pc with
      | .visit op => if s.store.state op = .proxyOpNone then some false else none
      | _ => none
  | _ => none

/-- Every operation that was visited left `idle` set. -/
def allIdle (round : List (System Chan × Action Chan)) : Bool :=
  round.all fun move => (leftIdle move).getD true

variable [DecidableEq Chan]

/-- The step ends an iteration, and the cursor is `handler->ops` after it. -/
def endsRound (move : System Chan × Action Chan) : Bool :=
  advances move.1 move.2 &&
    match step move.1 move.2 with
    | some t => decide (t.worker.pc = .top t.store.ops)
    | none => false

/-- The step calls `sched_yield`. -/
def yields (move : System Chan × Action Chan) : Bool :=
  match step move.1 move.2 with
  | some t => decide (t.worker.yields ≠ move.1.worker.yields)
  | none => false

/-- `sched_yield` is called at the end of the round. -/
def yieldsAtEnd (round : List (System Chan × Action Chan)) : Bool := round.getLast?.any yields

/-- The rounds of a history. -/
def rounds (history : List (System Chan × Action Chan)) : List (List (System Chan × Action Chan)) :=
  (RoundRobin.laps endsRound history).1

/-- The rounds since the last one that yielded or had a visit that was not idle. -/
def streak (earlier : List (List (System Chan × Action Chan))) : Nat :=
  (earlier.reverse.takeWhile fun round => allIdle round && !yieldsAtEnd round).length

/-- The idle rounds up to and including this one, since the last yield or the last visit that
was not idle. -/
def idleRounds (earlier : List (List (System Chan × Action Chan)))
    (round : List (System Chan × Action Chan)) : Nat :=
  if allIdle round then streak earlier + 1 else 0

/-- The worker yields at the end of a round exactly when it is the tenth idle one. -/
def YieldsOnTenth (rounds : List (List (System Chan × Action Chan))) : Prop :=
  ∀ earlier round later, rounds = earlier ++ round :: later →
    (yieldsAtEnd round = true ↔ idleRounds earlier round = 10)

theorem streak_concat (earlier : List (List (System Chan × Action Chan)))
    (round : List (System Chan × Action Chan)) : streak (earlier ++ [round]) =
      if allIdle round && !yieldsAtEnd round then streak earlier + 1 else 0 := by
  simp only [streak, List.reverse_append, List.reverse_singleton, List.singleton_append,
    List.takeWhile_cons]
  split <;> simp

omit [DecidableEq Chan] in
theorem allIdle_concat (round : List (System Chan × Action Chan))
    (move : System Chan × Action Chan) :
    allIdle (round ++ [move]) = (allIdle round && (leftIdle move).getD true) := by
  simp [allIdle]

theorem yieldsAtEnd_concat (round : List (System Chan × Action Chan))
    (move : System Chan × Action Chan) : yieldsAtEnd (round ++ [move]) = yields move := by
  simp [yieldsAtEnd]

theorem YieldsOnTenth.concat {earlier : List (List (System Chan × Action Chan))}
    {round : List (System Chan × Action Chan)} (h : YieldsOnTenth earlier)
    (hround : yieldsAtEnd round = true ↔ idleRounds earlier round = 10) :
    YieldsOnTenth (earlier ++ [round]) := by
  intro earlier' round' later hsplit
  rcases List.eq_nil_or_concat later with rfl | ⟨later, last, rfl⟩
  · obtain ⟨rfl, hlast⟩ := List.append_inj' hsplit rfl
    obtain rfl : round = round' := by simpa using hlast
    exact hround
  · have hsplit' : earlier ++ [round] = (earlier' ++ round' :: later) ++ [last] := by
      rw [hsplit, List.concat_eq_append]
      simp
    exact h earlier' round' later (List.append_inj' hsplit' rfl).1

/-! ### What a step does to the worker -/

theorem Worker.signal_flags (w : Worker) : w.signal.idle = w.idle ∧
    w.signal.idleSpin = w.idleSpin ∧ w.signal.yields = w.yields := by
  unfold Worker.signal
  split <;> exact ⟨rfl, rfl, rfl⟩

/-- In the middle of a round. -/
theorem Worker.endIteration_goes (w : Worker) {next ops : Option Slot} (h : next ≠ ops) :
    w.endIteration next ops = ⟨.top next, w.idle, if w.idle then w.idleSpin else 0, w.yields⟩ := by
  simp [Worker.endIteration, h]

/-- How the worker leaves a round: it was not idle, it was the tenth idle one, or an earlier
idle one. -/
inductive Worker.EndsRound (w w' : Worker) : Prop
  | busy (hidle : w.idle = false) (hspin : w'.idleSpin = 0) (hyields : w'.yields = w.yields)
  | tenth (hidle : w.idle = true) (hten : w.idleSpin + 1 = 10) (hspin : w'.idleSpin = 0)
      (hyields : w'.yields = w.yields + 1)
  | earlier (hidle : w.idle = true) (hten : w.idleSpin + 1 ≠ 10)
      (hspin : w'.idleSpin = w.idleSpin + 1) (hyields : w'.yields = w.yields)

/-- At the end of a round. -/
theorem Worker.endIteration_ends (w : Worker) (ops : Option Slot) :
    (w.endIteration ops ops).idle = true ∧ w.EndsRound (w.endIteration ops ops) := by
  cases hidle : w.idle with
  | false =>
      have hend : w.endIteration ops ops = ⟨.top ops, true, 0, w.yields⟩ := by
        simp [Worker.endIteration, hidle]
      rw [hend]
      exact ⟨rfl, .busy hidle rfl rfl⟩
  | true =>
      by_cases hten : w.idleSpin + 1 = 10
      · have hend : w.endIteration ops ops = ⟨.top ops, true, 0, w.yields + 1⟩ := by
          simp [Worker.endIteration, hidle, hten]
        rw [hend]
        exact ⟨rfl, .tenth hidle hten rfl rfl⟩
      · have hend : w.endIteration ops ops = ⟨.top ops, true, w.idleSpin + 1, w.yields⟩ := by
          simp [Worker.endIteration, hidle, hten]
        rw [hend]
        exact ⟨rfl, .earlier hidle hten rfl rfl⟩

section Steps

variable {s t : System Chan} {ring : List (Entry Chan)} {free : List Slot} {action : Action Chan}

/-- A step is the end of an iteration, or it leaves `idleSpin` alone and adds what a visit
left to `idle`. -/
theorem Inv.worker_step (hinv : Inv ⟨s, ring, free⟩) (hstep : step s action = some t) :
    advances s action = true ∧ leftIdle (s, action) = none ∧
        (∃ next, t.worker = s.worker.endIteration next t.store.ops ∧
          (next = none → t.store.ops = none)) ∨
      advances s action = false ∧ t.worker.idleSpin = s.worker.idleSpin ∧
        t.worker.yields = s.worker.yields ∧
          t.worker.idle = (s.worker.idle && (leftIdle (s, action)).getD true) := by
  obtain ⟨ring', free', hmove⟩ := hinv.step_move hstep
  have hinv' := hinv.move hmove
  cases hmove with
  | @keep _ front e back _ op hpc hfollows hstate =>
      refine .inl ⟨by simp [advances, hpc, Pc.isAdvance], by simp [leftIdle, hpc],
        some e.head, rfl, nofun⟩
  | @remove _ front e back _ op ws hpc hfollows hstate hws =>
      refine .inl ⟨by simp [advances, hpc, Pc.isAdvance], by simp [leftIdle, hpc], _, rfl, ?_⟩
      intro hnone
      have hops : (s.store.writes ws).ops = (heads (front ++ e.pop.toList ++ back)).head? :=
        hinv'.represents.ops
      rw [List.head?_eq_none_iff] at hnone
      rw [hops, List.head?_eq_none_iff]
      simp only [heads_append, List.append_eq_nil_iff] at hnone ⊢
      tauto
  | start | requestStop =>
      obtain ⟨hidle, hspin, hyields⟩ := s.worker.signal_flags
      exact .inr ⟨rfl, hspin, hyields, by simp [leftIdle, hidle]⟩
  | abort hpc | topFetch hpc | topVisit hpc | stop hpc | sleep hpc | fetchVisit hpc | wake hpc =>
      refine .inr ⟨by simp [advances, hpc, Pc.isAdvance], rfl, rfl, by simp [leftIdle, hpc]⟩
  | run hpc hstate =>
      refine .inr ⟨by simp [advances, hpc, Pc.isAdvance], rfl, rfl, by simp [leftIdle, hpc, hstate]⟩
  | skip hpc hstate =>
      refine .inr ⟨by simp [advances, hpc, Pc.isAdvance], rfl, rfl, by simp [leftIdle, hpc, hstate]⟩
  | progressReturn hpc => exact .inr ⟨rfl, rfl, rfl, by simp [leftIdle]⟩
  | _ => exact .inr ⟨rfl, rfl, rfl, by simp [leftIdle]⟩

/-! ### The flag and the counter -/

/-- What the worker knows of the rounds so far: `idle` is about the round that has not ended,
and as long as it is set, `idleSpin` counts the rounds before. -/
structure Spins (history : List (System Chan × Action Chan)) (t : System Chan) : Prop where
  idle : t.worker.idle = allIdle (RoundRobin.laps endsRound history).2
  idleSpin : t.worker.idle = true → t.worker.idleSpin = streak (rounds history)
  tenth : YieldsOnTenth (rounds history)
  only : ∀ move ∈ history, yields move = true → endsRound move = true

theorem Spins.initial : Spins [] (.initial Chan) where
  idle := rfl
  idleSpin := fun _ => rfl
  tenth := by
    intro earlier round later hsplit
    simp [rounds, RoundRobin.laps] at hsplit
  only := by
    intro move hmove
    cases hmove

variable {history : List (System Chan × Action Chan)}

/-- A step that does not end a round. -/
theorem Spins.goes (h : Spins history s) (hstep : step s action = some t)
    (hends : endsRound (s, action) = false) (hyields : t.worker.yields = s.worker.yields)
    (hidle : t.worker.idle = (s.worker.idle && (leftIdle (s, action)).getD true))
    (hspin : s.worker.idle = true → t.worker.idleSpin = s.worker.idleSpin) :
    Spins (history ++ [(s, action)]) t := by
  have hrounds : rounds (history ++ [(s, action)]) = rounds history := by
    simp only [rounds, RoundRobin.laps_snoc_goes hends]
  refine ⟨?_, ?_, ?_, ?_⟩
  · rw [RoundRobin.laps_snoc_goes hends, allIdle_concat, hidle, h.idle]
  · intro hset
    have hbefore : s.worker.idle = true := by
      rw [hidle, Bool.and_eq_true] at hset
      exact hset.1
    rw [hrounds, hspin hbefore, h.idleSpin hbefore]
  · rw [hrounds]
    exact h.tenth
  · intro move hmove hyield
    rcases List.mem_append.mp hmove with hold | hnew
    · exact h.only move hold hyield
    · rw [List.mem_singleton.mp hnew] at hyield
      simp [yields, hstep, hyields] at hyield

/-- The end of a round. -/
theorem Spins.ends (h : Spins history s) (hstep : step s action = some t)
    (hends : endsRound (s, action) = true) (hleft : leftIdle (s, action) = none)
    (hworker : t.worker = s.worker.endIteration t.store.ops t.store.ops) :
    Spins (history ++ [(s, action)]) t := by
  have hrounds : rounds (history ++ [(s, action)]) =
      rounds history ++ [(RoundRobin.laps endsRound history).2 ++ [(s, action)]] := by
    simp only [rounds, RoundRobin.laps_snoc_ends hends]
  generalize hround : (RoundRobin.laps endsRound history).2 ++ [(s, action)] = round at hrounds
  have hall : allIdle round = s.worker.idle := by
    rw [← hround, allIdle_concat, hleft, h.idle, Option.getD_none, Bool.and_true]
  have hyield : yieldsAtEnd round = true ↔ t.worker.yields ≠ s.worker.yields := by
    rw [← hround, yieldsAtEnd_concat]
    simp [yields, hstep]
  obtain ⟨hset, hleaves⟩ := s.worker.endIteration_ends t.store.ops
  rw [← hworker] at hset hleaves
  have hbefore := h.idleSpin
  have hcount : yieldsAtEnd round = true ↔ idleRounds (rounds history) round = 10 := by
    rw [hyield, idleRounds, hall]
    cases hleaves with
    | busy hidle hspin hyields => simp [hidle, hyields]
    | tenth hidle hten hspin hyields | earlier hidle hten hspin hyields =>
        rw [if_pos hidle, ← hbefore hidle]
        omega
  refine ⟨?_, ?_, ?_, ?_⟩
  · rw [RoundRobin.laps_snoc_ends hends, hset]
    rfl
  · intro _
    rw [hrounds, streak_concat, hall]
    cases hleaves with
    | busy hidle hspin hyields => simp [hidle, hspin]
    | tenth hidle hten hspin hyields =>
        have hyielded : yieldsAtEnd round = true := hyield.mpr (by omega)
        simp [hyielded, hspin]
    | earlier hidle hten hspin hyields =>
        have hstill : yieldsAtEnd round = false := by
          rw [Bool.eq_false_iff, Ne, hyield]
          omega
        rw [hidle, hstill, hspin, hbefore hidle]
        rfl
  · rw [hrounds]
    exact h.tenth.concat hcount
  · intro move hmove hyield
    rcases List.mem_append.mp hmove with hold | hnew
    · exact h.only move hold hyield
    · rw [List.mem_singleton.mp hnew]
      exact hends

/-- **Step lemma.** -/
theorem Spins.step (h : Spins history s) (hinv : Inv ⟨s, ring, free⟩)
    (hstep : Proxy.step s action = some t) : Spins (history ++ [(s, action)]) t := by
  rcases hinv.worker_step hstep with
    ⟨hadvances, hleft, next, hworker, -⟩ | ⟨hadvances, hspin, hyields, hidle⟩
  · have hpc : t.worker.pc = .top next := by rw [hworker, Worker.endIteration_pc]
    have hends : endsRound (s, action) = decide (next = t.store.ops) := by
      simp [endsRound, hadvances, hstep, hpc]
    by_cases hops : next = t.store.ops
    · subst hops
      exact h.ends hstep (by simp [hends]) hleft hworker
    · refine h.goes hstep (by simp [hends, hops]) ?_ ?_ ?_
      · rw [hworker, Worker.endIteration_goes _ hops]
      · rw [hworker, Worker.endIteration_goes _ hops, hleft]
        simp
      · intro hidle
        rw [hworker, Worker.endIteration_goes _ hops, hidle]
        rfl
  · have hends : endsRound (s, action) = false := by simp [endsRound, hadvances]
    exact h.goes hstep hends hyields hidle (fun _ => hspin)

/-- **Run lemma.** -/
theorem run_spins (hrun : (machine Chan).Run anyMove history t) : Spins history t := by
  refine hrun.induction Spins ?_ ?_
  · rintro s rfl
    exact Spins.initial
  · intro history s action t hbefore h _ hstep
    obtain ⟨ring, free, hinv⟩ := reachable_inv hbefore.reachable
    exact h.step hinv hstep

end Steps

/-! ### Rounds are laps -/

section Laps

variable {s t : System Chan} {ring : List (Entry Chan)} {free : List Slot} {action : Action Chan}
  {c : RoundRobin Slot} {a b : System Chan × RoundRobin Slot} {move : System Chan × Action Chan}
  {history round : List (System Chan × Action Chan)} {op : Slot}

/-- A turn ends only at the end of an iteration. -/
theorem Inv.served_step (hinv : Inv ⟨s, ring, free⟩) (hstep : step s action = some t)
    (hserved : s.worker.pc.served.isSome = true) :
    advances s action = true ∨ t.worker.pc.served.isSome = true := by
  obtain ⟨ring', free', hmove⟩ := hinv.step_move hstep
  cases hmove with
  | keep hpc | remove hpc => exact .inl (by simp [advances, hpc, Pc.isAdvance])
  | start | requestStop => exact .inr (by rw [Worker.signal_served]; exact hserved)
  | abort hpc | topFetch hpc | topVisit hpc | stop hpc | sleep hpc | fetchVisit hpc | wake hpc
  | run hpc | skip hpc | spuriousWakeup hpc =>
      rw [hpc] at hserved
      cases hserved
  | progressReturn hpc => exact .inr rfl
  | _ => exact .inr hserved

omit [DecidableEq Chan] in
/-- With the cursor at `handler->ops` the turn of the anchor is next. -/
theorem Serves.fresh (h : Serves s c) (hpc : s.worker.pc = .top s.store.ops) :
    c.upcoming.head? = c.anchor ∧ c.busy = false := by
  obtain ⟨ring, free, hturns⟩ := h
  have hcursor := hturns.cursor
  have hbusy := hturns.busy
  rw [hpc] at hcursor hbusy
  refine ⟨?_, hbusy⟩
  rw [hturns.anchor]
  cases hops : s.store.ops with
  | none =>
      rw [hops] at hcursor
      exact hcursor
  | some first =>
      rw [hops] at hcursor
      exact hcursor

/-- **A round ends when a lap of the ring of turns ends.** -/
theorem endsRound_iff (h : Served a move b) :
    endsRound move = true ↔ RoundRobin.EndsLap a.2 b.2 := by
  obtain ⟨before, action⟩ := move
  obtain rfl : before = a.1 := h.allowed.before
  have hstep : step a.1 action = some b.1 := h.allowed.step
  obtain ⟨ring, free, hturns⟩ := h.serves
  have hbusy : a.2.busy = a.1.worker.pc.served.isSome := hturns.busy
  have hbusy' : b.2.busy = b.1.worker.pc.served.isSome := by
    obtain ⟨ring', free', hturns'⟩ := h.serves'
    exact hturns'.busy
  constructor
  · intro hends
    obtain ⟨hadvances, hpc⟩ : advances a.1 action = true ∧
        b.1.worker.pc = .top b.1.store.ops := by
      simpa [endsRound, hstep] using hends
    obtain ⟨hhead, hfree⟩ := h.serves'.fresh hpc
    refine ⟨?_, hfree, hhead⟩
    rw [hbusy]
    cases action with
    | worker => cases hworker : a.1.worker.pc <;> simp_all [advances, Pc.isAdvance, Pc.served]
    | _ => cases hadvances
  · rintro ⟨hserved, hfree, hhead⟩
    rw [hbusy] at hserved
    rw [hbusy'] at hfree
    rcases hturns.inv.served_step hstep hserved with hadvances | hstill
    · rcases hturns.inv.worker_step hstep with ⟨-, -, next, hworker, hempty⟩ | ⟨hnot, -⟩
      · have hpc : b.1.worker.pc = .top next := by rw [hworker, Worker.endIteration_pc]
        obtain ⟨ring', free', hturns'⟩ := h.serves'
        have hcursor := hturns'.cursor
        have hnext : next = b.1.store.ops := by
          cases next with
          | none => exact (hempty rfl).symm
          | some next =>
              rw [hpc] at hcursor
              exact hcursor.symm.trans (hhead.trans hturns'.anchor)
        simp [endsRound, hadvances, hstep, hpc, hnext]
      · rw [hadvances] at hnot
        cases hnot
    · rw [hstill] at hfree
      cases hfree

/-- The operation is in the ring from the start of the round to its end. -/
def StaysFor (op : Slot) (round : List (System Chan × Action Chan)) : Prop :=
  ∀ move ∈ round, InRing move.1 op ∧ ∀ t, step move.1 move.2 = some t → InRing t op

/-- Each round visits every operation that stays exactly once. -/
theorem round_visits (hrun : (machine Chan).Run anyMove history t) (hround : round ∈ rounds history)
    (hstays : StaysFor op round) : (visited round).count op = 1 := by
  obtain ⟨before, front, last, after, hsplit, rfl, hstart, hgoes, hlast⟩ :=
    RoundRobin.mem_laps hround
  obtain ⟨s, hinit, hpath⟩ := hrun
  rw [hsplit] at hpath
  obtain ⟨mid, hpath, -⟩ := hpath.split
  obtain ⟨first, hbefore, hpath⟩ := hpath.split
  have hreach : (machine Chan).Reachable anyMove first := ⟨before, s, hinit, hbefore⟩
  -- the round begins with the cursor at `handler->ops`
  have hpc : first.worker.pc = .top first.store.ops := by
    rcases hstart with rfl | ⟨front', last', rfl, hends⟩
    · rw [← Trace.nil_iff.mp hbefore, hinit]
      rfl
    · obtain ⟨u, -, hend⟩ := hbefore.split
      have hallowed := hend.single
      have hstep : step last'.1 last'.2 = some first := hallowed.before ▸ hallowed.step
      have hboth : advances last'.1 last'.2 = true ∧
          first.worker.pc = .top first.store.ops := by
        simpa [endsRound, hstep] using hends
      exact hboth.2
  obtain ⟨c, hserves⟩ := reachable_serves hreach
  obtain ⟨hhead, hfree⟩ := hserves.fresh hpc
  obtain ⟨d, -, htrace⟩ := hserves.path hpath
  have hkeeping : Trace (fun a move b => Served a move b ∧ op ∈ a.2.upcoming ∧ op ∈ b.2.upcoming)
      (first, c) (front ++ [last]) (mid, d) := by
    refine htrace.mono (fun move hmove a b hserved => ⟨hserved, ?_, ?_⟩)
    · rw [hserved.serves.mem_iff, ← hserved.allowed.before]
      exact (hstays move hmove).1
    · rw [hserved.serves'.mem_iff]
      refine (hstays move hmove).2 _ ?_
      rw [hserved.allowed.before]
      exact hserved.allowed.step
  exact RoundRobin.turns_lap (fun _ _ _ h => h.1.step) (fun _ _ _ h => endsRound_iff h.1)
    (fun _ _ _ h => h.2) hkeeping hhead hfree hgoes hlast

end Laps

/-! ### All runs -/

/-- **When the worker yields**, in every run.  Each round visits every operation that is in
the ring from its start to its end exactly once.  The worker calls `sched_yield` at the end of
a round exactly when that is the tenth idle round since the last yield or the last visit that
was not idle, and never elsewhere. -/
theorem worker_yields {history : List (System Chan × Action Chan)} {t : System Chan}
    (hrun : (machine Chan).Run anyMove history t) :
    (∀ round ∈ rounds history, ∀ op, StaysFor op round → (visited round).count op = 1) ∧
      YieldsOnTenth (rounds history) ∧
        ∀ move ∈ history, yields move = true → endsRound move = true := by
  have hspins := run_spins hrun
  exact ⟨fun round hround op hstays => round_visits hrun hround hstays, hspins.tenth, hspins.only⟩

/-- An operation that reports `idle` whenever the worker comes to it, for ten iterations. -/
def tenPasses : List (Action Bool) :=
  [.allocateArgs, .allocateArgsReturn ⟨0, 0⟩, .fill ⟨0, 0⟩ .proxyOpReady true,
      .proxyArgsAppend ⟨0, 0⟩, .worker] ++
    (List.replicate 10
      [.worker, .worker, .progressReturn .proxyOpProgress true, .worker]).flatten

/-- The run of these actions. -/
theorem tenPasses_run : ∃ t, (machine Bool).Run anyMove
    ((machine Bool).moves (.initial Bool) tenPasses) t := by
  have hexec : ((machine Bool).exec anyMove (.initial Bool) tenPasses).isSome = true := by
    decide +kernel
  obtain ⟨t, ht⟩ := Option.isSome_iff_exists.mp hexec
  exact ⟨t, run_of_exec (machine Bool) anyMove _ _ rfl ht⟩

/-- The worker yields at the end of the tenth of these passes. -/
theorem worker_yields_tenPasses : ∃ (history : List (System Bool × Action Bool))
    (t : System Bool), (machine Bool).Run anyMove history t ∧ (rounds history).length = 10 ∧
      YieldsOnTenth (rounds history) := by
  obtain ⟨t, hrun⟩ := tenPasses_run
  exact ⟨_, t, hrun, by decide +kernel, (worker_yields hrun).2.1⟩

/-- The step takes the last operation out of the ring. -/
def empties (move : System Chan × Action Chan) : Bool :=
  move.1.store.ops.isSome &&
    match step move.1 move.2 with
    | some t => t.store.ops.isNone
    | none => false

theorem streak_le_length (earlier : List (List (System Chan × Action Chan))) :
    streak earlier ≤ earlier.length := by
  have hle := (List.takeWhile_prefix (l := earlier.reverse)
    (fun round => allIdle round && !yieldsAtEnd round)).length_le
  rwa [List.length_reverse] at hle

/-- Counted from the first time on that the cursor is back at `handler->ops`, the worker yields
after the ninth idle round: it has counted the pass before. -/
theorem first_pass_counts : ¬ ∀ (history : List (System Bool × Action Bool)) (t : System Bool),
    (machine Bool).Run anyMove history t → (∀ move ∈ history, empties move = false) →
      YieldsOnTenth (rounds history).tail := by
  intro hall
  obtain ⟨t, hrun⟩ := tenPasses_run
  have hring : ∀ move ∈ (machine Bool).moves (.initial Bool) tenPasses, empties move = false := by
    have hcheck : ((machine Bool).moves (.initial Bool) tenPasses).all
        (fun move => !empties move) = true := by decide +kernel
    simpa using hcheck
  have htenth := hall _ t hrun hring
  have hlength : (rounds ((machine Bool).moves (.initial Bool) tenPasses)).tail.length = 9 := by
    decide +kernel
  have hlast : (rounds ((machine Bool).moves (.initial Bool) tenPasses)).tail.getLast?.any
      yieldsAtEnd = true := by decide +kernel
  generalize (rounds ((machine Bool).moves (.initial Bool) tenPasses)).tail = later at *
  rcases List.eq_nil_or_concat later with rfl | ⟨earlier, round, rfl⟩
  · cases hlength
  · rw [List.concat_eq_append] at htenth hlength hlast
    have hyield : yieldsAtEnd round = true := by simpa using hlast
    have hten := (htenth earlier round [] rfl).mp hyield
    have hle := streak_le_length earlier
    rw [List.length_append, List.length_singleton] at hlength
    unfold idleRounds at hten
    split at hten
    · omega
    · cases hten

end Proxy
end FlashReduce
