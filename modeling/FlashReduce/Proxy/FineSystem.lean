import FlashReduce.Proxy.Invariant

/-!
# The worker's writes one by one

`ProxyWaitAllOpFinished` reads `handler->ops` without the mutex, so it can see the
memory between any two writes of the worker's locked section.  In the fine-grained
system this section is split: it begins (the mutex is taken), its writes happen
one by one, and it ends (the mutex is released).  While it lasts, other threads can
only do what needs no mutex.

* `FineSystem.settle` lets the section that is under way run to its end;
  `FineInv.step` shows that every fine step, seen through `settle`, is a step of
  the coarse system or none.
* `FineInv.settle_ops` shows that a reader who sees an empty queue in the middle
  of the section sees it at its end, too.
-/

namespace FlashReduce
namespace Proxy

open Library

variable {Chan : Type}

/-- The proxy with the writes that the worker's locked section still has to make
and its next operation, while the section is under way. -/
structure FineSystem (Chan : Type) where
  sys : System Chan
  pending : Option (List (Write Chan) × Option Slot)

inductive FineAction (Chan : Type)
  | coarse (action : Action Chan)
  | beginAdvance
  | write
  | endAdvance

/-- The steps of other threads that do not take the mutex. -/
def Action.unlocked : Action Chan → Bool
  | .allocateArgsReturn _ => true
  | .fill _ _ _ => true
  | .setAbortFlag _ => true
  | _ => false

/-- The worker is at its locked section. -/
def Pc.isAdvance : Pc → Bool
  | .advance _ => true
  | _ => false

/-- The action is the worker's locked section. -/
def advances (s : System Chan) : Action Chan → Bool
  | .worker => s.worker.pc.isAdvance
  | _ => false

variable [DecidableEq Chan]

def fineStep (u : FineSystem Chan) : FineAction Chan → Option (FineSystem Chan)
  | .coarse action =>
      match u.pending with
      | none =>
          if advances u.sys action then none
          else (step u.sys action).map fun s => ⟨s, none⟩
      | some rest =>
          if action.unlocked then (step u.sys action).map fun s => ⟨s, some rest⟩ else none
  | .beginAdvance =>
      match u.pending, u.sys.worker.pc with
      | none, .advance op =>
          if u.sys.crashed then none
          else
            match u.sys.store.advanceWrites op with
            | none => some ⟨{ u.sys with crashed := true }, none⟩
            | some rest => some ⟨u.sys, some rest⟩
      | _, _ => none
  | .write =>
      match u.pending with
      | some (w :: ws, next) =>
          some ⟨{ u.sys with store := u.sys.store.write w }, some (ws, next)⟩
      | _ => none
  | .endAdvance =>
      match u.pending with
      | some ([], next) =>
          some ⟨{ u.sys with worker := u.sys.worker.endIteration next u.sys.store.ops }, none⟩
      | _ => none

variable (Chan) in
/-- The proxy after `ProxyCreate`, with the worker's locked section split into its
writes. -/
def fineMachine : Machine (FineSystem Chan) (FineAction Chan) where
  init u := u = ⟨.initial Chan, none⟩
  step := fineStep

/-- The state after the section that is under way. -/
def FineSystem.settle (u : FineSystem Chan) : System Chan :=
  match u.pending with
  | none => u.sys
  | some (ws, next) =>
      { u.sys with
        store := u.sys.store.writes ws
        worker := u.sys.worker.endIteration next (u.sys.store.writes ws).ops }

/-- What a fine step does. -/
inductive FineStep : FineSystem Chan → FineAction Chan → FineSystem Chan → Prop
  | coarse {s s' action} (hadv : advances s action = false) (hstep : step s action = some s') :
      FineStep ⟨s, none⟩ (.coarse action) ⟨s', none⟩
  | unlocked {s s' ws next action} (hunlocked : action.unlocked = true)
      (hstep : step s action = some s') :
      FineStep ⟨s, some (ws, next)⟩ (.coarse action) ⟨s', some (ws, next)⟩
  | crash {s op} (hpc : s.worker.pc = .advance op) (hlive : s.crashed = false)
      (hws : s.store.advanceWrites op = none) :
      FineStep ⟨s, none⟩ .beginAdvance ⟨{ s with crashed := true }, none⟩
  | enter {s op ws next} (hpc : s.worker.pc = .advance op) (hlive : s.crashed = false)
      (hws : s.store.advanceWrites op = some (ws, next)) :
      FineStep ⟨s, none⟩ .beginAdvance ⟨s, some (ws, next)⟩
  | write {s w ws next} :
      FineStep ⟨s, some (w :: ws, next)⟩ .write
        ⟨{ s with store := s.store.write w }, some (ws, next)⟩
  | leave {s next} :
      FineStep ⟨s, some ([], next)⟩ .endAdvance
        ⟨{ s with worker := s.worker.endIteration next s.store.ops }, none⟩

theorem fineStep_cases {u u' : FineSystem Chan} {action : FineAction Chan}
    (hstep : fineStep u action = some u') : FineStep u action u' := by
  obtain ⟨s, pending⟩ := u
  cases action with
  | coarse a =>
      cases pending with
      | none =>
          cases hadv : advances s a with
          | true => simp [fineStep, hadv] at hstep
          | false =>
              simp only [fineStep, hadv, Bool.false_eq_true, if_false,
                Option.map_eq_some_iff] at hstep
              obtain ⟨s', hs', rfl⟩ := hstep
              exact .coarse hadv hs'
      | some rest =>
          cases hunlocked : a.unlocked with
          | false => simp [fineStep, hunlocked] at hstep
          | true =>
              simp only [fineStep, hunlocked, if_true, Option.map_eq_some_iff] at hstep
              obtain ⟨s', hs', rfl⟩ := hstep
              exact .unlocked hunlocked hs'
  | beginAdvance =>
      cases pending with
      | some rest => simp [fineStep] at hstep
      | none =>
          cases hpc : s.worker.pc with
          | advance op =>
              cases hlive : s.crashed with
              | true => simp [fineStep, hpc, hlive] at hstep
              | false =>
                  cases hws : s.store.advanceWrites op with
                  | none =>
                      simp only [fineStep, hpc, hlive, Bool.false_eq_true, if_false, hws,
                        Option.some.injEq] at hstep
                      subst hstep
                      exact .crash hpc hlive hws
                  | some rest =>
                      simp only [fineStep, hpc, hlive, Bool.false_eq_true, if_false, hws,
                        Option.some.injEq] at hstep
                      subst hstep
                      exact .enter hpc hlive hws
          | _ => simp [fineStep, hpc] at hstep
  | write =>
      match pending, hstep with
      | some (w :: ws, next), hstep =>
          simp only [fineStep, Option.some.injEq] at hstep
          subst hstep
          exact .write
      | some ([], next), hstep => simp [fineStep] at hstep
      | none, hstep => simp [fineStep] at hstep
  | endAdvance =>
      match pending, hstep with
      | some ([], next), hstep =>
          simp only [fineStep, Option.some.injEq] at hstep
          subst hstep
          exact .leave
      | some (w :: ws, next), hstep => simp [fineStep] at hstep
      | none, hstep => simp [fineStep] at hstep

/-! ### The writes of the section -/

/-- The slot that a write changes. -/
def Write.target : Write Chan → Option Slot
  | .next s _ => some s
  | .nextPeer s _ => some s
  | _ => none

/-- The write changes only links between slots and the free list. -/
def Write.isLink : Write Chan → Bool
  | .next _ _ => true
  | .nextPeer _ _ => true
  | .pool _ => true
  | _ => false

/-- The write changes `handler->ops`. -/
def Write.isOps : Write Chan → Bool
  | .ops _ => true
  | _ => false

/-- After a write to `handler->ops` only links are written. -/
def OpsLast : List (Write Chan) → Prop
  | [] => True
  | w :: ws => (w.isOps = true → ∀ w' ∈ ws, w'.isLink = true) ∧ OpsLast ws

section Writes

variable {st : Store Chan} {op freeOp : Slot} {ws ws' : List (Write Chan)} {w : Write Chan}
  {next : Option Slot}

omit [DecidableEq Chan] in
theorem OpsLast.append (hfirst : ∀ w ∈ ws, w.isOps = false) (h : OpsLast ws') :
    OpsLast (ws ++ ws') := by
  induction ws with
  | nil => exact h
  | cons w ws ih =>
      refine ⟨fun hops => ?_, ih (fun w' hw' => hfirst w' (List.mem_cons_of_mem w hw'))⟩
      rw [hfirst w List.mem_cons_self] at hops
      cases hops

omit [DecidableEq Chan] in
/-- The locked section writes nothing or unlinks an operation and frees it. -/
theorem advanceWrites_eq (h : st.advanceWrites op = some (ws, next)) :
    ws = [] ∨ ∃ freeOp unlink, st.next op = some freeOp ∧
      st.unlinkWrites op freeOp = some (unlink, next) ∧
      ws = unlink ++ st.freeWrites freeOp next := by
  cases hnext : st.next op with
  | none => simp [Store.advanceWrites, hnext] at h
  | some freeOp =>
      by_cases hstate : st.state freeOp = .proxyOpNone
      · cases hunlink : st.unlinkWrites op freeOp with
        | none => simp [Store.advanceWrites, hnext, hstate, hunlink] at h
        | some result =>
            obtain ⟨unlink, next'⟩ := result
            simp only [Store.advanceWrites, hnext, hstate, hunlink, Option.bind_eq_bind,
              Option.bind_some, if_true, Option.pure_def, Option.some.injEq, Prod.mk.injEq] at h
            obtain ⟨rfl, rfl⟩ := h
            exact .inr ⟨freeOp, unlink, rfl, hunlink, rfl⟩
      · simp only [Store.advanceWrites, hnext, hstate, Option.bind_eq_bind, Option.bind_some,
          if_false, Option.pure_def, Option.some.injEq, Prod.mk.injEq] at h
        exact .inl h.1.symm

omit [DecidableEq Chan] in
/-- Unlinking writes the links of the operation before and of the next one of the
channel, and the channel cell. -/
theorem unlinkWrites_mem (h : st.unlinkWrites op freeOp = some (ws, next)) (hw : w ∈ ws) :
    (∃ x v, w = .next x v ∧ (x = op ∨ st.nextPeer freeOp = some x)) ∨
      ∃ c, w = .cell c none ∧ st.proxyTail freeOp = some c := by
  unfold Store.unlinkWrites at h
  cases hpeer : st.nextPeer freeOp with
  | some peer =>
      by_cases hsame : op = freeOp
      · simp only [hpeer, hsame, ne_eq, not_true_eq_false, if_false, Option.pure_def,
          Option.some.injEq, Prod.mk.injEq] at h
        obtain ⟨rfl, -⟩ := h
        rw [List.mem_singleton.mp hw]
        exact .inl ⟨peer, _, rfl, .inr rfl⟩
      · simp only [hpeer, hsame, ne_eq, not_false_eq_true, if_true, Option.pure_def,
          Option.some.injEq, Prod.mk.injEq] at h
        obtain ⟨rfl, -⟩ := h
        rcases List.mem_pair.mp hw with rfl | rfl
        · exact .inl ⟨peer, _, rfl, .inr rfl⟩
        · exact .inl ⟨op, _, rfl, .inl rfl⟩
  | none =>
      cases htail : st.proxyTail freeOp with
      | none => simp [hpeer, htail] at h
      | some c =>
          by_cases hsame : op = freeOp
          · simp only [hpeer, htail, hsame, ne_eq, not_true_eq_false, if_false, Option.pure_def,
              Option.bind_eq_bind, Option.bind_some, Option.some.injEq, Prod.mk.injEq] at h
            obtain ⟨rfl, -⟩ := h
            rw [List.mem_singleton.mp hw]
            exact .inr ⟨c, rfl, rfl⟩
          · simp only [hpeer, htail, hsame, ne_eq, not_false_eq_true, if_true, Option.pure_def,
              Option.bind_eq_bind, Option.bind_some, Option.some.injEq, Prod.mk.injEq] at h
            obtain ⟨rfl, -⟩ := h
            rcases List.mem_pair.mp hw with rfl | rfl
            · exact .inr ⟨c, rfl, rfl⟩
            · exact .inl ⟨op, _, rfl, .inl rfl⟩

omit [DecidableEq Chan] in
theorem freeWrites_mem (hw : w ∈ st.freeWrites freeOp next) :
    w = .ops next ∨ w = .next freeOp st.pool ∨ w = .pool (some freeOp) := by
  unfold Store.freeWrites at hw
  split at hw
  · simpa using hw
  · exact .inr (by simpa using hw)

omit [DecidableEq Chan] in
theorem freeWrites_opsLast : OpsLast (st.freeWrites freeOp next) := by
  unfold Store.freeWrites
  split <;> simp [OpsLast, Write.isOps, Write.isLink]

omit [DecidableEq Chan] in
/-- In the locked section `handler->ops` is written after the channel cell, and
only links are written after it. -/
theorem advanceWrites_opsLast (h : st.advanceWrites op = some (ws, next)) : OpsLast ws := by
  rcases advanceWrites_eq h with rfl | ⟨freeOp, unlink, -, hunlink, rfl⟩
  · trivial
  · refine OpsLast.append (fun w hw => ?_) freeWrites_opsLast
    rcases unlinkWrites_mem hunlink hw with ⟨x, v, rfl, -⟩ | ⟨c, rfl, -⟩ <;> rfl

variable {front back : List (Entry Chan)} {free : List Slot} {e : Entry Chan}

omit [DecidableEq Chan] in
/-- The locked section changes links of queued operations and the cell of a
channel with queued operations. -/
theorem Represents.advanceWrites_mem (h : Represents st (front ++ e :: back) free)
    (hfollows : Follows op e (back ++ front)) (hws : st.advanceWrites op = some (ws, next))
    (hw : w ∈ ws) :
    (∀ x, w.target = some x → x ∈ queued (front ++ e :: back)) ∧
      ∀ c v, w = .cell c v → c = e.chan := by
  have hhead : e.head ∈ queued (front ++ e :: back) := by simp [e.head_mem_slots]
  have hop : op ∈ queued (front ++ e :: back) := by
    rcases hfollows.cases with ⟨-, rfl⟩ | ⟨init, o, hsplit, rfl⟩
    · exact hhead
    · have ho : o ∈ back ++ front := by simp [hsplit]
      refine mem_queued.mpr ⟨o, ?_, o.head_mem_slots⟩
      rcases List.mem_append.mp ho with ho | ho <;> simp [ho]
  have htail := h.chains.tails e (by simp) _ e.head_mem_slots
  have hpeer := (h.chains.perm (perm_rotate front back e)).nextPeer_head
  rcases advanceWrites_eq hws with rfl | ⟨freeOp, unlink, hnext, hunlink, rfl⟩
  · cases hw
  · cases (h.next_eq hfollows).symm.trans hnext
    rcases List.mem_append.mp hw with hw | hw
    · rcases unlinkWrites_mem hunlink hw with ⟨x, v, rfl, hx⟩ | ⟨c, rfl, hc⟩
      · refine ⟨fun y hy => ?_, nofun⟩
        cases hy
        rcases hx with rfl | hx
        · exact hop
        · rw [hpeer] at hx
          obtain ⟨e', hpop, rfl⟩ := Option.map_eq_some_iff.mp hx
          have hslot : e'.head ∈ e.slots := by
            rw [(Entry.slots_of_pop_some hpop).2.1]
            exact List.mem_cons_of_mem _ e'.head_mem_slots
          exact mem_queued.mpr ⟨e, by simp, hslot⟩
      · refine ⟨nofun, fun d v hd => ?_⟩
        cases hd
        exact Option.some.inj (hc.symm.trans htail)
    · rcases freeWrites_mem hw with rfl | rfl | rfl
      · exact ⟨nofun, nofun⟩
      · refine ⟨fun y hy => ?_, nofun⟩
        cases hy
        exact hhead
      · exact ⟨nofun, nofun⟩

end Writes

/-! ### The invariant -/

/-- The section under way leaves the slots inside `allocateArgs` alone, writes
`handler->ops` at most once and only links after it, and has written it if the
queue is seen to be empty. -/
structure SectionOk (u : FineSystem Chan) (ws : List (Write Chan)) : Prop where
  at_advance : ∃ op, u.sys.worker.pc = .advance op
  running : u.sys.crashed = false
  targets : ∀ w ∈ ws, ∀ x, w.target = some x → x ∉ u.sys.returning
  ops_last : OpsLast ws
  links : u.sys.store.ops = none → ∀ w ∈ ws, w.isLink = true

/-- The invariant of the fine-grained system. -/
structure FineInv (u : FineSystem Chan) : Prop where
  settled : ∃ ring free, Inv ⟨u.settle, ring, free⟩
  pending : ∀ ws next, u.pending = some (ws, next) → SectionOk u ws

section Commute

variable (st : Store Chan) (ws : List (Write Chan))

theorem writes_fill (slot : Slot) (state : ProxyOpState) (proxyTail : Chan) :
    (st.fill slot state proxyTail).writes ws = (st.writes ws).fill slot state proxyTail := by
  induction ws generalizing st with
  | nil => rfl
  | cons w ws ih =>
      rw [Store.writes_cons, Store.writes_cons, ← ih]
      cases w <;> rfl

theorem writes_setAbortFlag (value : Bool) :
    Store.writes { st with abortFlag := value } ws =
      { st.writes ws with abortFlag := value } := by
  induction ws generalizing st with
  | nil => rfl
  | cons w ws ih =>
      rw [Store.writes_cons, Store.writes_cons, ← ih]
      cases w <;> rfl

theorem writes_allocateArgsReturn {elem : Slot}
    (htargets : ∀ w ∈ ws, w.target ≠ some elem) :
    (st.allocateArgsReturn elem).writes ws = (st.writes ws).allocateArgsReturn elem := by
  induction ws generalizing st with
  | nil => rfl
  | cons w ws ih =>
      have hne := htargets w List.mem_cons_self
      rw [Store.writes_cons, Store.writes_cons,
        ← ih (st.write w) (fun w' hw' => htargets w' (List.mem_cons_of_mem w hw'))]
      congr 1
      cases w with
      | next s v =>
          have hs : s ≠ elem := fun heq => hne (congrArg some heq)
          simp [Store.allocateArgsReturn, Store.write, Function.update_comm hs]
      | nextPeer s v =>
          have hs : s ≠ elem := fun heq => hne (congrArg some heq)
          simp [Store.allocateArgsReturn, Store.write, Function.update_comm hs]
      | cell c v => rfl
      | ops v => rfl
      | pool v => rfl

theorem writes_ops_of_links (hlinks : ∀ w ∈ ws, w.isLink = true) :
    (st.writes ws).ops = st.ops := by
  induction ws generalizing st with
  | nil => rfl
  | cons w ws ih =>
      rw [Store.writes_cons, ih (st.write w) (fun w' hw' => hlinks w' (List.mem_cons_of_mem w hw'))]
      have hlink := hlinks w List.mem_cons_self
      cases w with
      | next s v => rfl
      | nextPeer s v => rfl
      | cell c v => cases hlink
      | ops v => cases hlink
      | pool v => rfl

end Commute

/-- A reader who sees an empty queue in the middle of the section sees it at the
end of the section, too. -/
theorem FineInv.settle_ops {u : FineSystem Chan} (hinv : FineInv u)
    (hread : u.sys.store.ops = none) : u.settle.store.ops = none := by
  unfold FineSystem.settle
  cases hpending : u.pending with
  | none => exact hread
  | some rest =>
      obtain ⟨ws, next⟩ := rest
      have hlinks := (hinv.pending ws next hpending).links hread
      exact (writes_ops_of_links u.sys.store ws hlinks).trans hread

/-- What a fine step is, seen after the section under way. -/
def FineAction.seen : FineAction Chan → Option (Action Chan)
  | .coarse action => some action
  | .beginAdvance => some .worker
  | .write => none
  | .endAdvance => none

/-- The fine step is a coarse step or none, seen after the section under way. -/
def Settles (u : FineSystem Chan) (action : FineAction Chan) (u' : FineSystem Chan) : Prop :=
  match action.seen with
  | some a => step u.settle a = some u'.settle
  | none => u'.settle = u.settle

variable {u u' : FineSystem Chan}

/-- A step of another thread during the section. -/
theorem FineInv.unlocked_step {s s' : System Chan} {ws : List (Write Chan)} {next : Option Slot}
    {action : Action Chan} (hsection : SectionOk ⟨s, some (ws, next)⟩ ws)
    (hunlocked : action.unlocked = true) (hstep : step s action = some s') :
    step (FineSystem.settle ⟨s, some (ws, next)⟩) action =
        some (FineSystem.settle ⟨s', some (ws, next)⟩) ∧
      SectionOk ⟨s', some (ws, next)⟩ ws := by
  have hlive : s.crashed = false := hsection.running
  simp only [step, hlive, Bool.false_eq_true, if_false] at hstep
  cases action with
  | allocateArgsReturn elem =>
      by_cases hmem : elem ∈ s.returning
      · simp only [liveStep, hmem, if_true, Option.some.injEq] at hstep
        subst hstep
        -- the section does not write to a slot inside `allocateArgs`
        have htargets : ∀ w ∈ ws, w.target ≠ some elem :=
          fun w hw htarget => hsection.targets w hw elem htarget hmem
        refine ⟨?_, hsection.at_advance, hlive, ?_, hsection.ops_last, hsection.links⟩
        · simp only [step, FineSystem.settle, hlive, Bool.false_eq_true, if_false, liveStep, hmem,
            if_true, writes_allocateArgsReturn _ _ htargets]
          rfl
        · exact fun w hw x hx hin => hsection.targets w hw x hx (List.mem_of_mem_erase hin)
      · simp [liveStep, hmem] at hstep
  | fill slot state proxyTail =>
      by_cases hmem : slot ∈ s.held
      · simp only [liveStep, hmem, if_true, Option.some.injEq] at hstep
        subst hstep
        refine ⟨?_, hsection.at_advance, hlive, hsection.targets, hsection.ops_last,
          hsection.links⟩
        simp only [step, FineSystem.settle, hlive, Bool.false_eq_true, if_false, liveStep, hmem,
          if_true, writes_fill]
        rfl
      · simp [liveStep, hmem] at hstep
  | setAbortFlag value =>
      simp only [liveStep, Option.some.injEq] at hstep
      subst hstep
      refine ⟨?_, hsection.at_advance, hlive, hsection.targets, hsection.ops_last,
        hsection.links⟩
      simp only [step, FineSystem.settle, hlive, Bool.false_eq_true, if_false, liveStep,
        writes_setAbortFlag]
  | _ => cases hunlocked

omit [DecidableEq Chan] in
/-- The section does not touch the slots in the hands of the callers, and is entered
only while the ring is not empty. -/
theorem Inv.sectionOk {s : System Chan} {ring : List (Entry Chan)} {free : List Slot} {op : Slot}
    {ws : List (Write Chan)} {next : Option Slot} (hinv : Inv ⟨s, ring, free⟩)
    (hpc : s.worker.pc = .advance op) (hlive : s.crashed = false)
    (hws : s.store.advanceWrites op = some (ws, next)) :
    SectionOk ⟨s, some (ws, next)⟩ ws := by
  have hop : op ∈ heads ring := hinv.cursor op (by simp [hpc, Pc.op])
  refine ⟨⟨op, hpc⟩, hlive, fun w hw x hx hin => ?_, advanceWrites_opsLast hws, fun hread => ?_⟩
  · obtain ⟨front, e, back, rfl, hfollows⟩ := exists_follows hop
    have hqueued := (hinv.represents.advanceWrites_mem hfollows hws hw).1 x hx
    exact (hinv.returning_apart hin).2.2 hqueued
  · have hops := hinv.represents.ops.symm.trans hread
    rw [List.head?_eq_none_iff] at hops
    rw [hops] at hop
    cases hop

/-- The rest of the section after a write. -/
theorem SectionOk.write {s : System Chan} {w : Write Chan} {ws : List (Write Chan)}
    {next : Option Slot} (hsection : SectionOk ⟨s, some (w :: ws, next)⟩ (w :: ws)) :
    SectionOk ⟨{ s with store := s.store.write w }, some (ws, next)⟩ ws := by
  refine ⟨hsection.at_advance, hsection.running,
    fun w' hw' => hsection.targets w' (List.mem_cons_of_mem w hw'), hsection.ops_last.2,
    fun hread => ?_⟩
  -- the reader sees `NULL` because of this write, or saw it before
  by_cases hops : w.isOps = true
  · exact hsection.ops_last.1 hops
  · have hsame : (s.store.write w).ops = s.store.ops := by
      cases w with
      | ops v => exact absurd rfl hops
      | _ => rfl
    have hlinks := hsection.links (hsame.symm.trans hread)
    exact fun w' hw' => hlinks w' (List.mem_cons_of_mem w hw')

/-- **Every fine step is a coarse step or none**, seen after the section under
way, and keeps the invariant. -/
theorem FineInv.step {action : FineAction Chan} (hinv : FineInv u)
    (hstep : fineStep u action = some u') : FineInv u' ∧ Settles u action u' := by
  obtain ⟨ring, free, hsettled⟩ := hinv.settled
  have hcoarse {a : Action Chan} {t : System Chan} (h : Proxy.step u.settle a = some t) :
      ∃ ring' free', Inv ⟨t, ring', free'⟩ := by
    obtain ⟨ring', free', hmove⟩ := hsettled.step_move h
    exact ⟨ring', free', hsettled.move hmove⟩
  cases fineStep_cases hstep with
  | coarse hadv hs' => exact ⟨⟨hcoarse hs', fun ws next h => by cases h⟩, hs'⟩
  | unlocked hunlocked hs' =>
      obtain ⟨hsettles, hsection⟩ :=
        FineInv.unlocked_step (hinv.pending _ _ rfl) hunlocked hs'
      refine ⟨⟨hcoarse hsettles, fun ws' next' hpending => ?_⟩, hsettles⟩
      cases hpending
      exact hsection
  | @crash s op hpc hlive hws =>
      have hsettles : Proxy.step s .worker = some { s with crashed := true } := by
        simp [Proxy.step, hlive, liveStep, workerStep, hpc, hws]
      exact ⟨⟨hcoarse hsettles, fun ws next h => by cases h⟩, hsettles⟩
  | @enter s op ws next hpc hlive hws =>
      have hsettles : Proxy.step s .worker = some (FineSystem.settle ⟨s, some (ws, next)⟩) := by
        simp [Proxy.step, hlive, liveStep, workerStep, hpc, hws, FineSystem.settle]
      refine ⟨⟨hcoarse hsettles, fun ws' next' hpending => ?_⟩, hsettles⟩
      cases hpending
      exact Inv.sectionOk hsettled hpc hlive hws
  | write =>
      refine ⟨⟨⟨ring, free, hsettled⟩, fun ws' next' hpending => ?_⟩, rfl⟩
      cases hpending
      exact (hinv.pending _ _ rfl).write
  | leave => exact ⟨⟨⟨ring, free, hsettled⟩, fun ws next h => by cases h⟩, rfl⟩

theorem FineInv.initial : FineInv (⟨.initial Chan, none⟩ : FineSystem Chan) :=
  ⟨⟨[], [], Inv.initial⟩, nofun⟩

theorem fine_reachable_inv {guard : FineSystem Chan → FineAction Chan → Prop}
    (hreach : (fineMachine Chan).Reachable guard u) : FineInv u := by
  refine hreach.invariant FineInv ?_ ?_
  · rintro u rfl
    exact FineInv.initial
  · intro u action u' hinv _ hstep
    exact (hinv.step hstep).1

end Proxy
end FlashReduce
