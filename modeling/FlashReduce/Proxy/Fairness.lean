import FlashReduce.Library.RoundRobin
import FlashReduce.Proxy.Invariant
import Mathlib.Data.List.Rotate

/-!
# Fairness of the proxy

`persistentThread` gives the operations of the ring their turns: a turn begins when the
worker calls the progress callback of its current operation, or passes over an operation
without one.

* `Turns` relates a configuration to the ring of `Library.RoundRobin`: the upcoming turns
  are the operations of the ring from the cursor on, and newcomers come behind
  `handler->ops`.
* `Turns.move`: every step of the proxy is a step of that ring, although operations leave
  in front of the cursor, later operations of a channel take their places, and
  `handler->ops` moves.
* `visits_round_robin`: between two visits of an operation every other one that stays is
  visited exactly once; while an operation waits for its first visit, every other one is
  visited at most once, and it does not wait forever.
-/

namespace FlashReduce
namespace Proxy

open Library

variable {Chan : Type}

/-- The operation that a step of the worker visits. -/
def visitOf : System Chan × Action Chan → Option Slot
  | (s, .worker) =>
      match s.worker.pc with
      | .visit op => some op
      | _ => none
  | _ => none

/-- The operations that the worker visits, one after the other. -/
def visited (history : List (System Chan × Action Chan)) : List Slot := history.filterMap visitOf

/-- The operation that was visited last, until the worker moves on. -/
def Pc.served : Pc → Option Slot
  | .running op => some op
  | .advance op => some op
  | _ => none

/-- Following `next` from `handler->ops` on visits the operations `xs` and comes back. -/
structure RingOf (s : System Chan) (xs : List Slot) : Prop where
  ops : xs.head? = s.store.ops
  links : Ring s.store.next xs
  nodup : xs.Nodup

instance (s : System Chan) (xs : List Slot) : Decidable (RingOf s xs) :=
  decidable_of_iff (xs.head? = s.store.ops ∧ Ring s.store.next xs ∧ xs.Nodup)
    ⟨fun h => ⟨h.1, h.2.1, h.2.2⟩, fun h => ⟨h.ops, h.links, h.nodup⟩⟩

/-- The operation is an element of the ring. -/
def InRing (s : System Chan) (op : Slot) : Prop := Reaches s.store.next s.store.ops op

section Ring

variable {s : System Chan} {ring : List (Entry Chan)} {free : List Slot} {op : Slot}

theorem Inv.heads_nodup (hinv : Inv ⟨s, ring, free⟩) : (heads ring).Nodup :=
  (heads_sublist_queued ring).nodup (List.nodup_append.mp hinv.represents.nodup).2.1

theorem Inv.ringOf (hinv : Inv ⟨s, ring, free⟩) : RingOf s (heads ring) :=
  ⟨hinv.represents.ops.symm, hinv.represents.links, hinv.heads_nodup⟩

theorem RingOf.inRing {xs : List Slot} (h : RingOf s xs) (hop : op ∈ xs) : InRing s op := by
  have hlinks : Segment s.store.next s.store.ops xs s.store.ops := h.ops ▸ h.links
  exact hlinks.reaches hop

theorem Inv.inRing_iff (hinv : Inv ⟨s, ring, free⟩) : InRing s op ↔ op ∈ heads ring :=
  hinv.reaches_ops_iff

end Ring

/-! ### The ring from the cursor on -/

/-- Where the worker is in the list of the upcoming turns. -/
def AtCursor (pc : Pc) (ops : Option Slot) (upcoming : List Slot) : Prop :=
  match pc with
  | .top (some op) => upcoming.head? = some op
  | .visit op => upcoming.head? = some op
  | .running op => upcoming.getLast? = some op
  | .advance op => upcoming.getLast? = some op
  | .returned _ => True
  | _ => upcoming.head? = ops

/-- The ring of turns that a configuration stands for. -/
structure Turns (cfg : Config Chan) (c : RoundRobin Slot) : Prop where
  inv : Inv cfg
  rotated : c.upcoming ~r heads cfg.ring
  anchor : c.anchor = cfg.sys.store.ops
  busy : c.busy = cfg.sys.worker.pc.served.isSome
  cursor : AtCursor cfg.sys.worker.pc cfg.sys.store.ops c.upcoming

/-- Two rotations of a list without duplicates that have the same last element. -/
theorem rotated_eq_of_getLast? {α : Type*} {xs ys : List α} (h : xs ~r ys) (hnodup : xs.Nodup)
    (hlast : xs.getLast? = ys.getLast?) : xs = ys := by
  obtain ⟨n, rfl⟩ := h
  rw [List.rotate_eq_drop_append_take_mod] at hlast ⊢
  generalize hfront : xs.take (n % xs.length) = front at hlast ⊢
  generalize hback : xs.drop (n % xs.length) = back at hlast ⊢
  have hxs : xs = front ++ back := by
    rw [← hfront, ← hback, List.take_append_drop]
  rw [hxs] at hlast hnodup ⊢
  rcases List.eq_nil_or_concat front with rfl | ⟨front, x, rfl⟩
  · simp
  rcases List.eq_nil_or_concat back with rfl | ⟨back, y, rfl⟩
  · simp
  -- otherwise the last elements of both parts are the same
  have heq : y = x := by simpa [List.concat_eq_append, ← List.append_assoc] using hlast
  have hapart := (List.nodup_append.mp hnodup).2.2 x (by simp) y (by simp)
  exact absurd heq.symm hapart

/-- Two rotations of a list without duplicates that have the same first element. -/
theorem rotated_eq_of_head? {α : Type*} {xs ys : List α} (h : xs ~r ys) (hnodup : xs.Nodup)
    (hhead : xs.head? = ys.head?) : xs = ys := by
  have hlast : xs.reverse.getLast? = ys.reverse.getLast? := by simpa using hhead
  have hreverse := rotated_eq_of_getLast? h.reverse (List.nodup_reverse.mpr hnodup) hlast
  exact List.reverse_injective hreverse

section Moves

variable {cfg cfg' : Config Chan} {s : System Chan} {ring front back : List (Entry Chan)}
  {free : List Slot} {c : RoundRobin Slot} {e : Entry Chan} {op slot : Slot}

/-- The list of the upcoming turns determines the ring of turns. -/
theorem Inv.exists_turns {upcoming : List Slot} (hinv : Inv cfg)
    (hrotated : upcoming ~r heads cfg.ring)
    (hcursor : AtCursor cfg.sys.worker.pc cfg.sys.store.ops upcoming) :
    ∃ c, c.upcoming = upcoming ∧ Turns cfg c :=
  have hnodup : upcoming.Nodup := hrotated.nodup_iff.mpr hinv.heads_nodup
  ⟨⟨upcoming, cfg.sys.store.ops, cfg.sys.worker.pc.served.isSome, hnodup⟩, rfl,
    ⟨hinv, hrotated, rfl, rfl, hcursor⟩⟩

theorem Turns.mem_iff (h : Turns ⟨s, ring, free⟩ c) : op ∈ c.upcoming ↔ InRing s op :=
  h.rotated.mem_iff.trans h.inv.inRing_iff.symm

/-- A step that leaves the ring, its first operation and the cursor where they are. -/
theorem Turns.stay (h : Turns cfg c) (hinv : Inv cfg')
    (hheads : heads cfg'.ring = heads cfg.ring)
    (hops : cfg'.sys.store.ops = cfg.sys.store.ops)
    (hserved : cfg'.sys.worker.pc.served.isSome = cfg.sys.worker.pc.served.isSome)
    (hcursor : AtCursor cfg'.sys.worker.pc cfg.sys.store.ops c.upcoming) :
    ∃ c', RoundRobin.Step c c' none ∧ Turns cfg' c' := by
  obtain ⟨c', hupcoming, h'⟩ := hinv.exists_turns (hheads ▸ h.rotated) (hops ▸ hcursor)
  refine ⟨c', .stay hupcoming ?_ ?_, h'⟩
  · rw [h'.anchor, h.anchor, hops]
  · rw [h'.busy, h.busy, hserved]

/-- The operation at the cursor has its turn, and comes behind all others. -/
theorem Turns.visit (h : Turns cfg c) (hinv : Inv cfg')
    (hpc : cfg.sys.worker.pc = .visit op) (hring : cfg'.ring = cfg.ring)
    (hops : cfg'.sys.store.ops = cfg.sys.store.ops)
    (hserved : cfg'.sys.worker.pc = .running op ∨ cfg'.sys.worker.pc = .advance op) :
    ∃ c', RoundRobin.Step c c' (some op) ∧ Turns cfg' c' := by
  have hcursor := h.cursor
  have hfree := h.busy
  rw [hpc] at hcursor hfree
  obtain ⟨rest, hsplit⟩ : ∃ rest, c.upcoming = op :: rest := List.head?_eq_some_iff.mp hcursor
  have hrotated : rest ++ [op] ~r heads cfg'.ring := by
    have hrest : rest ++ [op] ~r [op] ++ rest := List.isRotated_append
    have hold := h.rotated
    rw [hsplit] at hold
    rw [hring]
    exact hrest.trans hold
  have hcursor' : AtCursor cfg'.sys.worker.pc cfg'.sys.store.ops (rest ++ [op]) := by
    rcases hserved with heq | heq <;> simp [AtCursor, heq]
  obtain ⟨c', hupcoming, h'⟩ := hinv.exists_turns hrotated hcursor'
  refine ⟨c', .turn hfree hsplit hupcoming ?_ ?_, h'⟩
  · rw [h'.anchor, h.anchor, hops]
  · rw [h'.busy]
    rcases hserved with heq | heq <;> rw [heq] <;> rfl

/-- At the end of an iteration the next turn is that of the entry after the current
operation. -/
theorem Turns.upcoming_eq (h : Turns ⟨s, front ++ e :: back, free⟩ c)
    (hpc : s.worker.pc = .advance op) (hfollows : Follows op e (back ++ front)) :
    c.upcoming = e.head :: heads (back ++ front) := by
  have hlast : c.upcoming.getLast? = some op := by
    have hcursor := h.cursor
    rw [hpc] at hcursor
    exact hcursor
  have hrotated : c.upcoming ~r heads (e :: (back ++ front)) := by
    have hsplit : heads (front ++ e :: back) ~r heads (e :: (back ++ front)) := by
      have happend : heads front ++ heads (e :: back) ~r heads (e :: back) ++ heads front :=
        List.isRotated_append
      simpa using happend
    exact h.rotated.trans hsplit
  exact rotated_eq_of_getLast? hrotated c.nodup (hlast.trans hfollows.symm)

/-- The next operation keeps its place in the ring. -/
theorem Turns.keep (h : Turns ⟨s, front ++ e :: back, free⟩ c)
    (hpc : s.worker.pc = .advance op) (hfollows : Follows op e (back ++ front)) (worker : Worker)
    (hworker : worker.pc = .top (some e.head))
    (hinv : Inv ⟨{ s with worker := worker }, front ++ e :: back, free⟩) :
    ∃ c', RoundRobin.Step c c' none ∧
      Turns ⟨{ s with worker := worker }, front ++ e :: back, free⟩ c' := by
  have hbusy := h.busy
  rw [hpc] at hbusy
  have hcursor : AtCursor worker.pc s.store.ops c.upcoming := by
    rw [hworker, h.upcoming_eq hpc hfollows]
    rfl
  obtain ⟨c', hupcoming, h'⟩ := hinv.exists_turns h.rotated hcursor
  refine ⟨c', .pass hbusy hupcoming ?_ ?_, h'⟩
  · rw [h'.anchor, h.anchor]
  · rw [h'.busy]
    show worker.pc.served.isSome = false
    rw [hworker]
    rfl

/-- At the top of an iteration with the first of the upcoming turns. -/
theorem Inv.atCursor_top {upcoming : List Slot} (hinv : Inv cfg)
    (hrotated : upcoming ~r heads cfg.ring)
    (hpc : cfg.sys.worker.pc = .top upcoming.head?) :
    AtCursor cfg.sys.worker.pc cfg.sys.store.ops upcoming := by
  rw [hpc]
  cases upcoming with
  | cons op rest => rfl
  | nil =>
      have hheads : heads cfg.ring = [] := (List.isRotated_nil_iff'.mp hrotated).symm
      show none = cfg.sys.store.ops
      rw [hinv.represents.ops, hheads]
      rfl

/-- The operation after the current one leaves, and the next one of its channel takes its
place if there is one. -/
theorem Turns.remove {s' : System Chan} (h : Turns ⟨s, front ++ e :: back, free⟩ c)
    (hpc : s.worker.pc = .advance op) (hfollows : Follows op e (back ++ front))
    (hinv : Inv ⟨s', front ++ e.pop.toList ++ back, e.head :: free⟩)
    (hpc' : s'.worker.pc = .top (heads (e.pop.toList ++ (back ++ front))).head?) :
    ∃ c', RoundRobin.Step c c' none ∧
      Turns ⟨s', front ++ e.pop.toList ++ back, e.head :: free⟩ c' := by
  have hbefore := h.upcoming_eq hpc hfollows
  have hbusy := h.busy
  rw [hpc] at hbusy
  have hrotated : heads (e.pop.toList ++ (back ++ front)) ~r
      heads (front ++ e.pop.toList ++ back) := by
    have happend : heads (e.pop.toList ++ back) ++ heads front ~r
        heads front ++ heads (e.pop.toList ++ back) := List.isRotated_append
    simpa using happend
  obtain ⟨c', hafter, h'⟩ := hinv.exists_turns hrotated (hinv.atCursor_top hrotated hpc')
  have hfree : c'.busy = false := by
    rw [h'.busy]
    show s'.worker.pc.served.isSome = false
    rw [hpc']
    rfl
  -- `handler->ops` moves exactly when it points to the operation that leaves
  have hanchor : c.anchor = some e.head ∧ c'.anchor = c'.upcoming.head? ∨
      c.anchor ≠ some e.head ∧ c'.anchor = c.anchor := by
    have hold : c.anchor = (heads (front ++ e :: back)).head? :=
      h.anchor.trans h.inv.represents.ops
    have hnew : c'.anchor = (heads (front ++ e.pop.toList ++ back)).head? :=
      h'.anchor.trans hinv.represents.ops
    rw [hold, hnew, hafter]
    cases front with
    | nil => exact .inl ⟨rfl, by simp⟩
    | cons f front =>
        refine .inr ⟨fun heq => ?_, rfl⟩
        have hnodup : (heads (f :: front ++ e :: back)).Nodup := h.inv.heads_nodup
        have hhead : f.head = e.head := Option.some.inj heq
        rw [List.cons_append, heads_cons, hhead] at hnodup
        exact (List.nodup_cons.mp hnodup).1 (by simp)
  refine ⟨c', ?_, h'⟩
  cases hpop : e.pop with
  | none =>
      rw [hpop] at hafter
      have hrest : c'.upcoming = heads (back ++ front) := hafter
      exact .leave hbusy hbefore hrest (hrest ▸ hanchor) hfree
  | some e' =>
      rw [hpop] at hafter
      have hrest : c'.upcoming = e'.head :: heads (back ++ front) := hafter
      have hne : e'.head ≠ e.head := by
        intro heq
        have hnodup : (queued (e :: (back ++ front))).Nodup := by
          have hperm : (queued (front ++ e :: back)).Perm (queued (e :: (back ++ front))) :=
            (perm_rotate front back e).flatMap_right _
          exact hperm.nodup_iff.mp (List.nodup_append.mp h.inv.represents.nodup).2.1
        rw [queued_cons, (Entry.slots_of_pop_some hpop).2.1, ← heq] at hnodup
        exact (List.nodup_cons.mp hnodup).1 (by simp [e'.head_mem_slots])
      rw [hrest] at hanchor
      exact .replace hbusy hbefore hrest hne hanchor hfree

/-! ### Newcomers -/

/-- The cursor depends on the last member during a turn and on the first one otherwise. -/
theorem AtCursor.congr {pc : Pc} {ops : Option Slot} {upcoming upcoming' : List Slot}
    (h : AtCursor pc ops upcoming)
    (hlast : pc.served.isSome = true → upcoming'.getLast? = upcoming.getLast?)
    (hhead : pc.served.isSome = false → upcoming'.head? = upcoming.head?) :
    AtCursor pc ops upcoming' := by
  cases pc with
  | running op => exact (hlast rfl).trans h
  | advance op => exact (hlast rfl).trans h
  | returned stopped => trivial
  | top op =>
      cases op with
      | none => exact (hhead rfl).trans h
      | some op => exact (hhead rfl).trans h
  | _ => exact (hhead rfl).trans h

/-- The first operation of an empty queue. -/
theorem AtCursor.first {pc : Pc} {op : Slot} (h : AtCursor pc none []) :
    AtCursor pc (some op) [op] := by
  cases pc with
  | running | advance | visit => cases h
  | top op =>
      cases op with
      | none => rfl
      | some op => cases h
  | returned => trivial
  | _ => rfl

/-- An operation of a new channel comes behind `handler->ops`. -/
theorem Turns.append_behind {s' : System Chan} {chan : Chan} (h : Turns ⟨s, e :: ring, free⟩ c)
    (hinv : Inv ⟨s', e :: ⟨chan, slot, []⟩ :: ring, free⟩) (hworker : s'.worker = s.worker) :
    ∃ c', RoundRobin.Step c c' none ∧ Turns ⟨s', e :: ⟨chan, slot, []⟩ :: ring, free⟩ c' := by
  have hops : s.store.ops = some e.head := h.inv.represents.ops
  have hops' : s'.store.ops = some e.head := hinv.represents.ops
  have hold : c.anchor = some e.head := h.anchor.trans hops
  have hmem : e.head ∈ c.upcoming := h.rotated.mem_iff.mpr List.mem_cons_self
  obtain ⟨front, back, hbefore⟩ := List.append_of_mem hmem
  -- behind the anchor comes the rest of the ring
  have hrest : back ++ front = heads ring := by
    have hrotated : e.head :: (back ++ front) ~r heads (e :: ring) := by
      have happend : (e.head :: back) ++ front ~r front ++ e.head :: back :=
        List.isRotated_append
      have hring := h.rotated
      rw [hbefore] at hring
      exact happend.trans hring
    have hnodup := hrotated.nodup_iff.mpr h.inv.heads_nodup
    exact (List.cons.inj (rotated_eq_of_head? hrotated hnodup rfl)).2
  by_cases hlast : c.busy = true ∧ back = []
  · obtain ⟨hbusy, rfl⟩ := hlast
    have hrotated : slot :: (front ++ [e.head]) ~r heads (e :: ⟨chan, slot, []⟩ :: ring) := by
      have happend : (slot :: front) ++ [e.head] ~r [e.head] ++ slot :: front :=
        List.isRotated_append
      rw [List.nil_append] at hrest
      rw [heads_cons, heads_cons, ← hrest]
      exact happend
    have hcursor : AtCursor s'.worker.pc (some e.head) (slot :: (front ++ [e.head])) := by
      have hcursor := h.cursor
      rw [hops, hbefore] at hcursor
      rw [hworker]
      refine hcursor.congr (fun _ => by simp [List.getLast?_cons]) (fun hfree => ?_)
      rw [h.busy, hfree] at hbusy
      cases hbusy
    rw [← hops'] at hcursor
    obtain ⟨c', hafter, h'⟩ := hinv.exists_turns hrotated hcursor
    refine ⟨c', .next hbusy hbefore hafter hold ?_ ?_, h'⟩
    · rw [h'.anchor, hops', hold]
    · rw [h'.busy, h.busy, hworker]
  · have hplace : back ≠ [] ∨ c.busy = false := by
      by_cases hback : back = []
      · exact .inr (by simpa [hback] using hlast)
      · exact .inl hback
    have hrotated : front ++ e.head :: slot :: back ~r
        heads (e :: ⟨chan, slot, []⟩ :: ring) := by
      have happend : front ++ (e.head :: slot :: back) ~r (e.head :: slot :: back) ++ front :=
        List.isRotated_append
      rw [heads_cons, heads_cons, ← hrest]
      exact happend
    have hcursor : AtCursor s'.worker.pc (some e.head) (front ++ e.head :: slot :: back) := by
      have hcursor := h.cursor
      rw [hops, hbefore] at hcursor
      rw [hworker]
      refine hcursor.congr (fun hserved => ?_) (fun _ => ?_)
      · have hbusy : c.busy = true := h.busy.trans hserved
        rcases hplace with hne | hfree
        · obtain ⟨x, rest, rfl⟩ := List.exists_cons_of_ne_nil hne
          simp [List.getLast?_cons]
        · rw [hbusy] at hfree
          cases hfree
      · cases front <;> rfl
    rw [← hops'] at hcursor
    obtain ⟨c', hafter, h'⟩ := hinv.exists_turns hrotated hcursor
    refine ⟨c', .behind hplace hbefore hafter hold ?_ ?_, h'⟩
    · rw [h'.anchor, hops', hold]
    · rw [h'.busy, h.busy, hworker]

variable [DecidableEq Chan]

/-- `ProxyArgsAppend` links the operation in behind `handler->ops`, or leaves the ring as it
is. -/
theorem Turns.append {s' : System Chan} {chan : Chan} (h : Turns ⟨s, ring, free⟩ c)
    (hinv : Inv ⟨s', enqueue chan slot ring, free⟩) (hworker : s'.worker = s.worker) :
    ∃ c', RoundRobin.Step c c' none ∧ Turns ⟨s', enqueue chan slot ring, free⟩ c' := by
  by_cases hchan : chan ∈ ring.map Entry.chan
  · have hheads := heads_enqueue_of_mem (s := slot) hchan
    have hops : s'.store.ops = s.store.ops := by
      rw [hinv.represents.ops, h.inv.represents.ops, hheads]
    refine h.stay hinv hheads hops (by rw [hworker]) ?_
    show AtCursor s'.worker.pc s.store.ops c.upcoming
    rw [hworker]
    exact h.cursor
  · cases ring with
    | cons e ring =>
        rw [enqueue_cons hchan] at hinv ⊢
        exact h.append_behind hinv hworker
    | nil =>
        have hbefore : c.upcoming = [] := List.isRotated_nil_iff.mp h.rotated
        have hops : s.store.ops = none := h.inv.represents.ops
        have hops' : s'.store.ops = some slot := hinv.represents.ops
        have hcursor : AtCursor s'.worker.pc s'.store.ops [slot] := by
          have hcursor := h.cursor
          rw [hops, hbefore] at hcursor
          rw [hworker, hops']
          exact hcursor.first
        obtain ⟨c', hafter, h'⟩ := hinv.exists_turns (.refl [slot]) hcursor
        refine ⟨c', .first hbefore hafter (h'.anchor.trans hops') ?_, h'⟩
        rw [h'.busy, h.busy, hworker]

theorem Worker.signal_served (w : Worker) : w.signal.pc.served = w.pc.served := by
  unfold Worker.signal
  split
  · next hpc => rw [hpc]; rfl
  · rfl

theorem AtCursor.signal {w : Worker} {ops : Option Slot} {upcoming : List Slot}
    (h : AtCursor w.pc ops upcoming) : AtCursor w.signal.pc ops upcoming := by
  unfold Worker.signal
  split
  · next hpc =>
    rw [hpc] at h
    exact h
  · exact h

/-- **Every step of the proxy is a step of the ring of turns.** -/
theorem Turns.move {action : Action Chan} (h : Turns cfg c) (hmove : Move cfg action cfg') :
    ∃ c', RoundRobin.Step c c' (visitOf (cfg.sys, action)) ∧ Turns cfg' c' := by
  have hinv := h.inv.move hmove
  have hcursor := h.cursor
  cases hmove with
  | allocate | allocateBlock | allocateReturn | fill | crash | startEmpty | setAbortFlag =>
      exact h.stay hinv rfl rfl rfl hcursor
  | start | requestStop =>
      exact h.stay hinv rfl rfl (congrArg _ (Worker.signal_served _)) hcursor.signal
  | append hmem htail hws => exact h.append hinv rfl
  | abort hpc | stop hpc =>
      rw [visitOf, hpc]
      exact h.stay hinv rfl rfl (by rw [hpc]; rfl) trivial
  | topFetch hpc | topVisit hpc | sleep hpc | wake hpc =>
      rw [hpc] at hcursor
      rw [visitOf, hpc]
      exact h.stay hinv rfl rfl (by rw [hpc]; rfl) hcursor
  | fetchVisit hpc hops =>
      rw [hpc, hops] at hcursor
      rw [visitOf, hpc]
      exact h.stay hinv rfl rfl (by rw [hpc]; rfl) hcursor
  | run hpc hstate =>
      rw [visitOf, hpc]
      exact h.visit hinv hpc rfl rfl (.inl rfl)
  | skip hpc hstate =>
      rw [visitOf, hpc]
      exact h.visit hinv hpc rfl rfl (.inr rfl)
  | keep hpc hfollows hstate =>
      rw [visitOf, hpc]
      exact h.keep hpc hfollows _ (Worker.endIteration_pc _ _ _) hinv
  | remove hpc hfollows hstate hws =>
      rw [visitOf, hpc]
      exact h.remove hpc hfollows hinv (Worker.endIteration_pc _ _ _)
  | progressReturn hpc =>
      rw [hpc] at hcursor
      exact h.stay hinv rfl rfl (by rw [hpc]; rfl) hcursor
  | spuriousWakeup hpc =>
      rw [hpc] at hcursor
      exact h.stay hinv rfl rfl (by rw [hpc]; rfl) hcursor

end Moves

/-! ### Operations that stay -/

section Stay

variable [DecidableEq Chan] {cfg cfg' : Config Chan} {s t : System Chan} {op : Slot}
  {action : Action Chan} {history : List (System Chan × Action Chan)}

/-- An operation in the ring leaves it only when it leaves the queue. -/
theorem Inv.stays_or_leaves (hinv : Inv cfg) (hmove : Move cfg action cfg')
    (hop : op ∈ heads cfg.ring) : op ∈ heads cfg'.ring ∨ op ∉ queued cfg'.ring := by
  have hinv' := hinv.move hmove
  cases hmove with
  | append hmem htail hws => exact .inl (mem_heads_enqueue hop)
  | @remove s front e back free op' ws hpc hfollows hstate hws =>
      by_cases heq : op = e.head
      · -- it is on the free list now
        right
        rw [heq]
        intro hqueued
        have hapart := (List.nodup_append.mp hinv'.represents.nodup).2.2
        exact hapart e.head List.mem_cons_self e.head hqueued rfl
      · left
        simp only [heads_append, heads_cons, List.mem_append, List.mem_cons, heq, false_or] at hop ⊢
        tauto
  | _ => exact .inl hop

/-- What is not queued is queued only by an append. -/
theorem Inv.stays_out (hinv : Inv cfg) (hmove : Move cfg action cfg')
    (hother : action ≠ .proxyArgsAppend op) (hout : op ∉ queued cfg.ring) :
    op ∉ queued cfg'.ring := by
  cases hmove with
  | @append s ring free slot c ws hmem htail hws =>
      have hperm := queued_enqueue (s := slot) (c := c) hinv.represents.chains.chans
      intro hqueued
      rcases List.mem_cons.mp (hperm.mem_iff.mp hqueued) with rfl | hold
      · exact hother rfl
      · exact hout hold
  | @remove s front e back free op' ws hpc hfollows hstate hws =>
      simp only [queued_append, queued_cons, queued_pop e, List.mem_append, List.mem_cons] at hout ⊢
      tauto
  | _ => exact hout

/-- An operation that is in the ring at the end and was not appended again was in the ring
all the time. -/
theorem inRing_throughout (hreach : (machine Chan).Reachable Machine.anyMove s)
    (hpath : (machine Chan).Path Machine.anyMove s history t) (hs : InRing s op)
    (ht : InRing t op) (hsame : ∀ move ∈ history, move.2 ≠ .proxyArgsAppend op) :
    ∀ move ∈ history, InRing move.1 op := by
  have hguarded : (machine Chan).Path (fun _ action => action ≠ .proxyArgsAppend op) s history t :=
    Machine.Path.reguard hpath fun move hmove _ => hsame move hmove
  intro move hmove
  obtain ⟨first, second, rfl⟩ := List.append_of_mem hmove
  obtain ⟨mid, hfirst, hsecond⟩ := Trace.split hguarded
  have hmid : ∃ ring free, Inv ⟨mid, ring, free⟩ ∧ (op ∈ heads ring ∨ op ∉ queued ring) := by
    refine Machine.Path.invariant
      (fun s => ∃ ring free, Inv ⟨s, ring, free⟩ ∧ (op ∈ heads ring ∨ op ∉ queued ring))
      ?_ hfirst ?_
    · rintro s action t ⟨ring, free, hinv, hplace⟩ hother hstep
      obtain ⟨ring', free', hmove⟩ := hinv.step_move hstep
      refine ⟨ring', free', hinv.move hmove, ?_⟩
      rcases hplace with hin | hout
      · exact hinv.stays_or_leaves hmove hin
      · exact .inr (hinv.stays_out hmove hother hout)
    · obtain ⟨ring, free, hinv⟩ := reachable_inv hreach
      exact ⟨ring, free, hinv, .inl (hinv.inRing_iff.mp hs)⟩
  obtain ⟨next, hallowed, -⟩ := hsecond.head
  rw [hallowed.before]
  obtain ⟨ring, free, hinv, hin | hout⟩ := hmid
  · exact hinv.inRing_iff.mpr hin
  · -- it would never come back
    have hlast : ∃ ring free, Inv ⟨t, ring, free⟩ ∧ op ∉ queued ring := by
      refine Machine.Path.invariant (fun s => ∃ ring free, Inv ⟨s, ring, free⟩ ∧ op ∉ queued ring)
        ?_ hsecond ⟨ring, free, hinv, hout⟩
      rintro s action t ⟨ring, free, hinv, hout⟩ hother hstep
      obtain ⟨ring', free', hmove⟩ := hinv.step_move hstep
      exact ⟨ring', free', hinv.move hmove, hinv.stays_out hmove hother hout⟩
    obtain ⟨ring', free', hinv', hout'⟩ := hlast
    exact absurd ((heads_sublist_queued ring').subset (hinv'.inRing_iff.mp ht)) hout'

end Stay

/-! ### Runs -/

variable [DecidableEq Chan]

/-- A state and the ring of turns that it stands for. -/
def Serves (s : System Chan) (c : RoundRobin Slot) : Prop := ∃ ring free, Turns ⟨s, ring, free⟩ c

/-- A step of the proxy and of its ring of turns. -/
structure Served (a : System Chan × RoundRobin Slot) (move : System Chan × Action Chan)
    (b : System Chan × RoundRobin Slot) : Prop where
  allowed : (machine Chan).Allowed Machine.anyMove a.1 move b.1
  serves : Serves a.1 a.2
  serves' : Serves b.1 b.2
  step : RoundRobin.Step a.2 b.2 (visitOf move)

section Runs

variable {s t : System Chan} {c : RoundRobin Slot} {op : Slot}
  {history : List (System Chan × Action Chan)}

omit [DecidableEq Chan] in
theorem Serves.mem_iff (h : Serves s c) : op ∈ c.upcoming ↔ InRing s op := by
  obtain ⟨ring, free, hturns⟩ := h
  exact hturns.mem_iff

theorem reachable_serves (hreach : (machine Chan).Reachable Machine.anyMove s) :
    ∃ c, Serves s c := by
  refine hreach.invariant (fun s => ∃ c, Serves s c) ?_ ?_
  · rintro s rfl
    have hinv : Inv ⟨.initial Chan, [], []⟩ := Inv.initial
    obtain ⟨c, -, hturns⟩ := hinv.exists_turns (.refl []) rfl
    exact ⟨c, [], [], hturns⟩
  · rintro s action t ⟨c, ring, free, hturns⟩ - hstep
    obtain ⟨ring', free', hmove⟩ := hturns.inv.step_move hstep
    obtain ⟨c', -, hturns'⟩ := hturns.move hmove
    exact ⟨c', ring', free', hturns'⟩

/-- Every path of the proxy is a run of its ring of turns. -/
theorem Serves.path (h : Serves s c) (hpath : (machine Chan).Path Machine.anyMove s history t) :
    ∃ d, Serves t d ∧ Trace Served (s, c) history (t, d) := by
  induction hpath with
  | refl => exact ⟨c, h, .refl _⟩
  | @tail u t history move _ hallowed ih =>
      obtain ⟨d, hserves, htrace⟩ := ih
      have hserves' := hserves
      obtain ⟨ring, free, hturns⟩ := hserves
      obtain ⟨ring', free', hmove⟩ := hturns.inv.step_move hallowed.step
      obtain ⟨d', hstep, hturns'⟩ := hturns.move hmove
      obtain ⟨before, action⟩ := move
      obtain rfl : before = u := hallowed.before
      exact ⟨d', ⟨ring', free', hturns'⟩,
        htrace.tail ⟨hallowed, hserves', ⟨ring', free', hturns'⟩, hstep⟩⟩

omit [DecidableEq Chan] in
/-- During a turn the operation that is served comes last. -/
theorem Serves.getLast (h : Serves s c) (hbusy : c.busy = true) :
    c.upcoming.getLast? = s.worker.pc.served := by
  obtain ⟨ring, free, hturns⟩ := h
  have hserved := hturns.busy.symm.trans hbusy
  have hcursor := hturns.cursor
  cases hpc : s.worker.pc with
  | running op | advance op =>
      rw [hpc] at hcursor
      exact hcursor
  | _ =>
      rw [hpc] at hserved
      cases hserved

omit [DecidableEq Chan] in
/-- When the ring is not empty, `handler->ops` points into it. -/
theorem Serves.anchor_mem (h : Serves s c) (hop : op ∈ c.upcoming) :
    ∃ a ∈ c.upcoming, c.anchor = some a := by
  obtain ⟨ring, free, hturns⟩ := h
  have hmem : op ∈ heads ring := hturns.rotated.mem_iff.mp hop
  obtain ⟨first, rest, hheads⟩ := List.exists_cons_of_ne_nil (List.ne_nil_of_mem hmem)
  refine ⟨first, hturns.rotated.mem_iff.mpr (by simp [hheads]), ?_⟩
  rw [hturns.anchor, hturns.inv.represents.ops, hheads]
  rfl

omit [DecidableEq Chan] in
theorem Serves.length_eq (h : Serves s c) : ∃ xs, RingOf s xs ∧ c.upcoming.length = xs.length := by
  obtain ⟨ring, free, hturns⟩ := h
  exact ⟨heads ring, hturns.inv.ringOf, hturns.rotated.perm.length_eq⟩

/-- A step before which the operations `kept` are in the ring. -/
def Keeping (kept : List Slot) (a : System Chan × RoundRobin Slot)
    (move : System Chan × Action Chan) (b : System Chan × RoundRobin Slot) : Prop :=
  Served a move b ∧ ∀ op ∈ kept, op ∈ a.2.upcoming

theorem Serves.path_keeping {kept : List Slot} (h : Serves s c)
    (hpath : (machine Chan).Path Machine.anyMove s history t)
    (hkept : ∀ op ∈ kept, ∀ move ∈ history, InRing move.1 op) :
    ∃ d, Serves t d ∧ Trace (Keeping kept) (s, c) history (t, d) := by
  obtain ⟨d, hserves, htrace⟩ := h.path hpath
  refine ⟨d, hserves, htrace.mono (fun move hmove a b hserved => ⟨hserved, ?_⟩)⟩
  intro op hop
  rw [hserved.serves.mem_iff, ← hserved.allowed.before]
  exact hkept op hop move hmove

theorem Keeping.path {kept : List Slot} {a b : System Chan × RoundRobin Slot}
    (htrace : Trace (Keeping kept) a history b) (h : Serves a.1 a.2) :
    (machine Chan).Path Machine.anyMove a.1 history b.1 ∧ Serves b.1 b.2 := by
  induction htrace with
  | refl => exact ⟨.refl _, h⟩
  | tail _ hkeeping ih => exact ⟨ih.1.tail hkeeping.1.allowed, hkeeping.1.serves'⟩

/-! ### Visits -/

/-- The moves between two visits of an operation: the worker visits it in the state `s`, is
about to visit it in the state `t` and does not visit it in between, and its slot is not
appended again as another operation. -/
structure BetweenVisits (op : Slot) (s : System Chan) (between : List (System Chan × Action Chan))
    (t : System Chan) : Prop where
  reachable : (machine Chan).Reachable Machine.anyMove s
  path : (machine Chan).Path Machine.anyMove s ((s, .worker) :: between) t
  first : s.worker.pc = .visit op
  last : t.worker.pc = .visit op
  unvisited : op ∉ visited between
  same : ∀ move ∈ between, move.2 ≠ .proxyArgsAppend op

/-- The operation is in the ring and waits for its first visit. -/
structure Waits (op : Slot) (s : System Chan) (history : List (System Chan × Action Chan))
    (t : System Chan) : Prop where
  reachable : (machine Chan).Reachable Machine.anyMove s
  path : (machine Chan).Path Machine.anyMove s history t
  start : InRing s op
  unserved : s.worker.pc.served ≠ some op
  stays : InRing t op
  unvisited : op ∉ visited history
  same : ∀ move ∈ history, move.2 ≠ .proxyArgsAppend op

omit [DecidableEq Chan] in
theorem Serves.visit_head (h : Serves s c) (hpc : s.worker.pc = .visit op) :
    c.upcoming.head? = some op := by
  obtain ⟨ring, free, hturns⟩ := h
  have hcursor := hturns.cursor
  rw [hpc] at hcursor
  exact hcursor

/-- Between two visits of an operation every other one that stays is visited exactly once. -/
theorem BetweenVisits.count_eq {other : Slot} (h : BetweenVisits op s history t)
    (hne : other ≠ op) (hother : ∀ move ∈ (s, .worker) :: history, InRing move.1 other)
    (hlast : InRing t other) : (visited history).count other = 1 := by
  obtain ⟨c, hserves⟩ := reachable_serves h.reachable
  have hs : InRing s op := hserves.mem_iff.mp (List.mem_of_head? (hserves.visit_head h.first))
  have ht : InRing t op := by
    obtain ⟨d, hserves', -⟩ := hserves.path h.path
    exact hserves'.mem_iff.mp (List.mem_of_head? (hserves'.visit_head h.last))
  have hop := inRing_throughout h.reachable h.path hs ht
    (List.forall_mem_cons.mpr ⟨nofun, h.same⟩)
  have hkept : ∀ x ∈ [op, other], ∀ move ∈ (s, .worker) :: history, InRing move.1 x :=
    List.forall_mem_cons.mpr ⟨hop, List.forall_mem_singleton.mpr hother⟩
  obtain ⟨d, hserves', htrace⟩ := hserves.path_keeping h.path hkept
  refine RoundRobin.turns_between (fun _ _ _ hstep => hstep.1.step)
    (fun _ _ _ hstep => hstep.2 op (by simp)) (fun _ _ _ hstep => hstep.2 other (by simp)) hne
    htrace ?_ h.unvisited (hserves'.visit_head h.last) (hserves'.mem_iff.mpr hlast)
  rw [visitOf, h.first]

/-- While an operation waits, every other one is visited at most once. -/
theorem Waits.count_le_one (h : Waits op s history t) (other : Slot) :
    (visited history).count other ≤ 1 := by
  obtain rfl | hne := eq_or_ne op other
  · rw [List.count_eq_zero_of_not_mem h.unvisited]
    exact Nat.zero_le 1
  obtain ⟨c, hserves⟩ := reachable_serves h.reachable
  have hop := inRing_throughout h.reachable h.path h.start h.stays h.same
  obtain ⟨d, hserves', htrace⟩ :=
    hserves.path_keeping h.path (List.forall_mem_singleton.mpr hop)
  exact RoundRobin.turns_le_one (fun _ _ _ hstep => hstep.1.step)
    (fun _ _ _ hstep => hstep.2 op (by simp)) hne htrace (hserves'.mem_iff.mpr h.stays) h.unvisited

/-- An operation waits for at most as many visits as there are operations in the ring, and
then for at most as many as there are in it at one later moment. -/
theorem Waits.visits_le (h : Waits op s history t) :
    ∃ first mid second, history = first ++ second ∧
      (machine Chan).Path Machine.anyMove s first mid ∧
      (machine Chan).Path Machine.anyMove mid second t ∧
      (∃ xs, RingOf s xs ∧ (visited first).length ≤ xs.length) ∧
      ∃ xs, RingOf mid xs ∧ (visited second).length ≤ xs.length := by
  obtain ⟨c, hserves⟩ := reachable_serves h.reachable
  have hop := inRing_throughout h.reachable h.path h.start h.stays h.same
  obtain ⟨d, hserves', htrace⟩ :=
    hserves.path_keeping h.path (List.forall_mem_singleton.mpr hop)
  have hmem := hserves.mem_iff.mpr h.start
  have hidle : c.busy = true → c.upcoming.getLast? ≠ some op := by
    intro hbusy
    rw [hserves.getLast hbusy]
    exact h.unserved
  obtain ⟨first, mid, second, hsplit, hfirst, hsecond, hle, hle'⟩ :=
    RoundRobin.wait_le (fun _ _ _ hstep => hstep.1.step)
      (fun _ _ _ hstep => hstep.2 op (by simp)) htrace (hserves.anchor_mem hmem) hidle hmem
      (hserves'.mem_iff.mpr h.stays) h.unvisited
  obtain ⟨hpath, hmid⟩ := Keeping.path hfirst hserves
  obtain ⟨hpath', -⟩ := Keeping.path hsecond hmid
  obtain ⟨xs, hxs, hlength⟩ := hserves.length_eq
  obtain ⟨ys, hys, hlength'⟩ := hmid.length_eq
  exact ⟨first, mid.1, second, hsplit, hpath, hpath', ⟨xs, hxs, hlength ▸ hle⟩,
    ⟨ys, hys, hlength' ▸ hle'⟩⟩

/-- **The worker is fair.**  Between two visits of an operation, every other one that is in
the ring all the time is visited exactly once.  While an operation of the ring waits for its
first visit, every other one is visited at most once, and there are no more visits than
operations in the ring at the beginning and at one later moment. -/
theorem visits_round_robin :
    (∀ op, BetweenVisits op s history t → ∀ other, other ≠ op →
      (∀ move ∈ (s, .worker) :: history, InRing move.1 other) → InRing t other →
        (visited history).count other = 1) ∧
    (∀ op, Waits op s history t →
      (∀ other, (visited history).count other ≤ 1) ∧
      ∃ first mid second, history = first ++ second ∧
        (machine Chan).Path Machine.anyMove s first mid ∧
        (machine Chan).Path Machine.anyMove mid second t ∧
        (∃ xs, RingOf s xs ∧ (visited first).length ≤ xs.length) ∧
        ∃ xs, RingOf mid xs ∧ (visited second).length ≤ xs.length) :=
  ⟨fun _ h _ hne hother hlast => h.count_eq hne hother hlast,
    fun _ h => ⟨h.count_le_one, h.visits_le⟩⟩

end Runs

/-- Two operations of different channels are appended, and the worker takes the first. -/
def twoChannelsSchedule : List (Action Bool) :=
  [.allocateArgs, .allocateArgsReturn ⟨0, 0⟩, .fill ⟨0, 0⟩ .proxyOpReady false,
    .proxyArgsAppend ⟨0, 0⟩, .allocateArgs, .allocateArgsReturn ⟨0, 1⟩,
    .fill ⟨0, 1⟩ .proxyOpReady true, .proxyArgsAppend ⟨0, 1⟩, .worker, .worker]

/-- The visit of one operation that does not finish. -/
def visitSchedule : List (Action Bool) :=
  [.worker, .progressReturn .proxyOpProgress false, .worker, .worker]

/-- The state after a schedule. -/
def after (s : System Bool) (schedule : List (Action Bool)) : System Bool :=
  ((machine Bool).exec Machine.anyMove s schedule).getD s

/-- Between two visits of the first operation the second one is visited once, and while the
second one waits for that, the first one is visited once. -/
theorem visits_round_robin_two_channels :
    ∃ (s t u : System Bool) (waiting between : List (System Bool × Action Bool)),
      (Waits ⟨0, 1⟩ s waiting t ∧ (visited waiting).count ⟨0, 0⟩ ≤ 1) ∧
        BetweenVisits ⟨0, 0⟩ s between u ∧ (visited between).count ⟨0, 1⟩ = 1 := by
  let s := after (.initial Bool) twoChannelsSchedule
  let t := after s visitSchedule
  let u := after s (visitSchedule ++ visitSchedule)
  let waiting := (machine Bool).moves s visitSchedule
  let history := (machine Bool).moves s (visitSchedule ++ visitSchedule)
  have hrun : (machine Bool).Run Machine.anyMove _ s :=
    Machine.run_of_exec (machine Bool) Machine.anyMove (.initial Bool) twoChannelsSchedule rfl rfl
  have hwaiting : (machine Bool).Path Machine.anyMove s waiting t :=
    Machine.path_of_exec (machine Bool) Machine.anyMove s visitSchedule rfl
  have hpath : (machine Bool).Path Machine.anyMove s history u :=
    Machine.path_of_exec (machine Bool) Machine.anyMove s (visitSchedule ++ visitSchedule) rfl
  have hring : ∀ move ∈ history, RingOf move.1 [⟨0, 0⟩, ⟨0, 1⟩] := by decide
  have ht : RingOf t [⟨0, 0⟩, ⟨0, 1⟩] := by decide
  have hu : RingOf u [⟨0, 0⟩, ⟨0, 1⟩] := by decide
  have hs : RingOf s [⟨0, 0⟩, ⟨0, 1⟩] := by decide
  have happend (op : Slot) (schedule : List (Action Bool))
      (hschedule : schedule ⊆ visitSchedule ++ visitSchedule) :
      ∀ move ∈ (machine Bool).moves s schedule, move.2 ≠ .proxyArgsAppend op := by
    intro move hmove heq
    have haction := hschedule (Machine.action_mem_of_mem_moves hmove)
    rw [heq] at haction
    simp [visitSchedule] at haction
  have hwaits : Waits ⟨0, 1⟩ s waiting t :=
    ⟨hrun.reachable, hwaiting, hs.inRing (by simp), nofun, ht.inRing (by simp), by decide,
      happend _ _ (List.subset_append_left _ _)⟩
  have hbetween : BetweenVisits ⟨0, 0⟩ s history.tail u :=
    ⟨hrun.reachable, hpath, rfl, rfl, by decide,
      fun move hmove => happend _ _ (List.Subset.refl _) move (List.mem_of_mem_tail hmove)⟩
  refine ⟨s, t, u, waiting, history.tail, ⟨hwaits, ?_⟩, hbetween, ?_⟩
  · exact (visits_round_robin.2 ⟨0, 1⟩ hwaits).1 ⟨0, 0⟩
  · exact visits_round_robin.1 ⟨0, 0⟩ hbetween ⟨0, 1⟩ (by decide)
      (fun move hmove => (hring move hmove).inRing (by simp)) (hu.inRing (by simp))

end Proxy
end FlashReduce
