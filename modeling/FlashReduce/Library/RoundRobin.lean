import FlashReduce.Library.Transition
import Mathlib.Data.List.Induction
import Mathlib.Data.List.Nodup
import Mathlib.Data.List.Sublists

/-!
# Taking turns

The members of a ring take turns.  While a member has its turn, and between two
turns, newcomers are linked in behind an anchor; when a turn is over, the member
whose turn is next may leave, or another one may take its place.

* `RoundRobin` is the ring as the list of the upcoming turns; while somebody has a
  turn (`busy`), it is the last member of that list.
* `Step` lists the changes; a turn that begins is labelled with the member.
* `turns_between`: between two turns of one member every member that stays has
  exactly one turn, whoever comes and goes.
* `turns_le_one`: while a member waits, every other one has at most one turn.
* `wait_le`: a member waits for as many turns as the ring has members, and then for
  as many as it has members at one later moment, whoever comes after that.
* A lap is over when a turn ends and the turn of the anchor is next.  `laps` cuts a run
  into its laps, and `turns_lap` says that every member that stays during a lap has exactly
  one turn in it, although the anchor moves.
-/

namespace FlashReduce
namespace Library

variable {α : Type*}

/-- The members of a ring in the order of their next turns, the member behind which
newcomers come, and whether the last one is having its turn. -/
structure RoundRobin (α : Type*) where
  upcoming : List α
  anchor : Option α
  busy : Bool
  nodup : upcoming.Nodup

namespace RoundRobin

/-- The changes of a ring. -/
inductive Step (c c' : RoundRobin α) : Option α → Prop
  | stay (hupcoming : c'.upcoming = c.upcoming) (hanchor : c'.anchor = c.anchor)
      (hbusy : c'.busy = c.busy) : Step c c' none
  | turn {x rest} (hbusy : c.busy = false) (hbefore : c.upcoming = x :: rest)
      (hafter : c'.upcoming = rest ++ [x]) (hanchor : c'.anchor = c.anchor)
      (hbusy' : c'.busy = true) : Step c c' (some x)
  | pass (hbusy : c.busy = true) (hupcoming : c'.upcoming = c.upcoming)
      (hanchor : c'.anchor = c.anchor) (hbusy' : c'.busy = false) : Step c c' none
  | leave {x rest} (hbusy : c.busy = true) (hbefore : c.upcoming = x :: rest)
      (hafter : c'.upcoming = rest)
      (hanchor : c.anchor = some x ∧ c'.anchor = rest.head? ∨
        c.anchor ≠ some x ∧ c'.anchor = c.anchor)
      (hbusy' : c'.busy = false) : Step c c' none
  | replace {x y rest} (hbusy : c.busy = true) (hbefore : c.upcoming = x :: rest)
      (hafter : c'.upcoming = y :: rest) (hne : y ≠ x)
      (hanchor : c.anchor = some x ∧ c'.anchor = some y ∨
        c.anchor ≠ some x ∧ c'.anchor = c.anchor)
      (hbusy' : c'.busy = false) : Step c c' none
  | first {y} (hbefore : c.upcoming = []) (hafter : c'.upcoming = [y])
      (hanchor : c'.anchor = some y) (hbusy : c'.busy = c.busy) : Step c c' none
  -- behind an anchor that is having its turn comes the next turn
  | next {y front a} (hbusy : c.busy = true) (hbefore : c.upcoming = front ++ [a])
      (hafter : c'.upcoming = y :: (front ++ [a])) (hanchor : c.anchor = some a)
      (hanchor' : c'.anchor = c.anchor) (hbusy' : c'.busy = c.busy) : Step c c' none
  | behind {y front a back} (hplace : back ≠ [] ∨ c.busy = false)
      (hbefore : c.upcoming = front ++ a :: back)
      (hafter : c'.upcoming = front ++ a :: y :: back) (hanchor : c.anchor = some a)
      (hanchor' : c'.anchor = c.anchor) (hbusy : c'.busy = c.busy) : Step c c' none

/-! ### The order of two members -/

/-- The turn of `x` comes before the turn of `y`. -/
def Ahead (l : List α) (x y : α) : Prop := [x, y].Sublist l

variable {l rest : List α} {x y z : α}

theorem Ahead.of_cons (h : Ahead (z :: rest) x y) (hne : z ≠ x) : Ahead rest x y := by
  cases h with
  | cons _ h => exact h
  | cons_cons _ h => exact absurd rfl hne

/-- Who comes after somebody else is not the first. -/
theorem Ahead.head_ne (h : Ahead l x y) (hnodup : l.Nodup) : l.head? ≠ some y := by
  intro hhead
  cases l with
  | nil => cases hhead
  | cons z rest =>
      obtain rfl := Option.some.inj hhead
      have hne : x ≠ z := by
        have hpair := hnodup.sublist h
        simpa using hpair
      have hrest := h.of_cons hne.symm
      have hmem : z ∈ rest := hrest.subset (by simp)
      exact (List.nodup_cons.mp hnodup).1 hmem

/-- A turn of somebody else does not change the order; after its turn a member comes
behind all others. -/
theorem Ahead.rotate (h : Ahead (z :: rest) x y) (hne : z ≠ x) : Ahead (rest ++ [z]) x y :=
  (h.of_cons hne).trans (List.sublist_append_left rest [z])

theorem ahead_rotate (hy : y ∈ rest) : Ahead (rest ++ [x]) y x :=
  (List.singleton_sublist.mpr hy).append (List.Sublist.refl [x])

variable {c c' d : RoundRobin α} {label : Option α} {labels : List (Option α)}

/-- A member that stays is not the one that leaves. -/
theorem mem_of_leave (hnodup : (z :: rest).Nodup) (hx : x ∈ rest) : x ≠ z := by
  rintro rfl
  exact (List.nodup_cons.mp hnodup).1 hx

/-- A member that stays is not the one that is replaced. -/
theorem mem_of_replace (hnodup : (z :: rest).Nodup) (hother : y ≠ z) (hx : x ∈ y :: rest) :
    x ≠ z := by
  rcases List.mem_cons.mp hx with rfl | hrest
  · exact hother
  · exact mem_of_leave hnodup hrest

/-- The anchor stays when another member goes. -/
theorem anchor_stays {a : α} {p : Prop} (hanchor : c.anchor = some a) (hne : a ≠ z)
    (h : c.anchor = some z ∧ p ∨ c.anchor ≠ some z ∧ c'.anchor = c.anchor) :
    c'.anchor = some a := by
  rcases h with ⟨hsame, -⟩ | ⟨-, hkeep⟩
  · exact absurd (Option.some.inj (hanchor.symm.trans hsame)) hne
  · exact hkeep.trans hanchor

/-- The anchor moves when it goes itself. -/
theorem anchor_moves {next : Option α} (hanchor : c.anchor = some z)
    (h : c.anchor = some z ∧ c'.anchor = next ∨ c.anchor ≠ some z ∧ c'.anchor = c.anchor) :
    c'.anchor = next := by
  rcases h with ⟨-, hmoved⟩ | ⟨hother, -⟩
  · exact hmoved
  · exact absurd hanchor hother

/-- A step of the ring keeps the order of two members that stay, unless the first of them
has its turn. -/
theorem Step.ahead (h : Step c c' label) (hahead : Ahead c.upcoming x y)
    (hx : x ∈ c'.upcoming) :
    label = some x ∧ Ahead c'.upcoming y x ∨
      label ≠ some x ∧ label ≠ some y ∧ Ahead c'.upcoming x y := by
  cases h with
  | stay hupcoming | pass _ hupcoming =>
      rw [hupcoming]
      exact .inr ⟨nofun, nofun, hahead⟩
  | @turn z rest _ hbefore hafter =>
      have hnodup := c.nodup
      have hhead := hahead.head_ne hnodup
      rw [hbefore] at hahead hhead
      rw [hafter]
      by_cases hz : z = x
      · subst hz
        have hmem : y ∈ z :: rest := hahead.subset (by simp)
        have hne : y ≠ z := fun heq => hhead (by rw [heq]; rfl)
        exact .inl ⟨rfl, ahead_rotate (List.mem_of_ne_of_mem hne hmem)⟩
      · refine .inr ⟨fun heq => hz (Option.some.inj heq), fun heq => hhead ?_, hahead.rotate hz⟩
        exact heq
  | @leave z rest _ hbefore hafter =>
      have hne : x ≠ z := mem_of_leave (hbefore ▸ c.nodup) (hafter ▸ hx)
      rw [hbefore] at hahead
      rw [hafter]
      exact .inr ⟨nofun, nofun, hahead.of_cons hne.symm⟩
  | @replace z w rest _ hbefore hafter hother =>
      have hne : x ≠ z := mem_of_replace (hbefore ▸ c.nodup) hother (hafter ▸ hx)
      rw [hbefore] at hahead
      rw [hafter]
      exact .inr ⟨nofun, nofun, (hahead.of_cons hne.symm).cons w⟩
  | first hbefore =>
      rw [hbefore] at hahead
      cases hahead
  | @next w front a _ hbefore hafter =>
      rw [hbefore] at hahead
      rw [hafter]
      exact .inr ⟨nofun, nofun, hahead.cons w⟩
  | @behind w front a back _ hbefore hafter =>
      rw [hbefore] at hahead
      rw [hafter]
      have hsub : (front ++ a :: back).Sublist (front ++ a :: w :: back) :=
        (List.Sublist.refl front).append (((List.Sublist.refl back).cons w).cons_cons a)
      exact .inr ⟨nofun, nofun, hahead.trans hsub⟩

/-- The beginning of a turn brings a member behind all others. -/
theorem Step.ahead_of_turn (h : Step c c' (some x)) (hne : y ≠ x) (hy : y ∈ c.upcoming) :
    Ahead c'.upcoming y x := by
  cases h with
  | turn _ hbefore hafter =>
      rw [hbefore] at hy
      rw [hafter]
      exact ahead_rotate (List.mem_of_ne_of_mem hne hy)

/-! ### Turns in a run -/

section Runs

variable {State Label : Type*} {step : State → Label → State → Prop} {ring : State → RoundRobin α}
  {turn : Label → Option α} {s t : State} {first : Label} {labels : List Label}

theorem filterMap_snoc (turn : Label → Option α) (labels : List Label) (label : Label) :
    (labels ++ [label]).filterMap turn = labels.filterMap turn ++ (turn label).toList := by
  rw [List.filterMap_append]
  cases hturn : turn label <;> simp [hturn]

variable [DecidableEq α]

theorem count_toList (label : Option α) (y : α) :
    label.toList.count y = if label = some y then 1 else 0 := by
  cases label <;> simp [List.count_singleton]

/-- While `x` has no turn, `y` has had no turn and comes first, or it has had one turn and
comes second. -/
theorem turns_ahead (hring : ∀ s l t, step s l t → Step (ring s) (ring t) (turn l))
    (hx : ∀ s l t, step s l t → x ∈ (ring s).upcoming)
    (hy : ∀ s l t, step s l t → y ∈ (ring s).upcoming)
    (htrace : Trace step s labels t) (hahead : Ahead (ring s).upcoming y x)
    (hxt : x ∈ (ring t).upcoming) (hyt : y ∈ (ring t).upcoming)
    (hnone : x ∉ labels.filterMap turn) :
    (labels.filterMap turn).count y = 0 ∧ Ahead (ring t).upcoming y x ∨
      (labels.filterMap turn).count y = 1 ∧ Ahead (ring t).upcoming x y := by
  induction htrace with
  | refl => exact .inl ⟨rfl, hahead⟩
  | @tail b t labels label _ hstep ih =>
      have hnext := hring _ _ _ hstep
      rw [filterMap_snoc, List.mem_append, not_or] at hnone
      rw [filterMap_snoc, List.count_append, count_toList]
      rcases ih (hx _ _ _ hstep) (hy _ _ _ hstep) hnone.1 with ⟨hcount, hbefore⟩ | ⟨hcount, hbefore⟩
      · rcases hnext.ahead hbefore hyt with ⟨hlabel, hafter⟩ | ⟨hlabel, -, hafter⟩
        · right
          rw [hcount, if_pos hlabel]
          exact ⟨rfl, hafter⟩
        · left
          rw [hcount, if_neg hlabel]
          exact ⟨rfl, hafter⟩
      · rcases hnext.ahead hbefore hxt with ⟨hlabel, -⟩ | ⟨-, hlabel, hafter⟩
        · exact absurd (by simp [hlabel]) hnone.2
        · right
          rw [hcount, if_neg hlabel]
          exact ⟨rfl, hafter⟩

/-- **Between two turns** of a member, every other member that stays has exactly one
turn. -/
theorem turns_between (hring : ∀ s l t, step s l t → Step (ring s) (ring t) (turn l))
    (hx : ∀ s l t, step s l t → x ∈ (ring s).upcoming)
    (hy : ∀ s l t, step s l t → y ∈ (ring s).upcoming) (hne : y ≠ x)
    (htrace : Trace step s (first :: labels) t) (hfirst : turn first = some x)
    (hnone : x ∉ labels.filterMap turn) (hlast : (ring t).upcoming.head? = some x)
    (hyt : y ∈ (ring t).upcoming) : (labels.filterMap turn).count y = 1 := by
  obtain ⟨u, hstep, hrest⟩ := htrace.head
  have hturn : Step (ring s) (ring u) (some x) := hfirst ▸ hring _ _ _ hstep
  have hahead := hturn.ahead_of_turn hne (hy _ _ _ hstep)
  have hxt := List.mem_of_head? hlast
  rcases turns_ahead hring hx hy hrest hahead hxt hyt hnone with ⟨-, hbefore⟩ | ⟨hone, -⟩
  · exact absurd hlast (hbefore.head_ne (ring t).nodup)
  · exact hone

/-- **While a member waits** for its turn, every other one has at most one turn. -/
theorem turns_le_one (hring : ∀ s l t, step s l t → Step (ring s) (ring t) (turn l))
    (hx : ∀ s l t, step s l t → x ∈ (ring s).upcoming) (hne : x ≠ y)
    (htrace : Trace step s labels t) (hxt : x ∈ (ring t).upcoming)
    (hnone : x ∉ labels.filterMap turn) : (labels.filterMap turn).count y ≤ 1 := by
  have hrun : (labels.filterMap turn).count y = 0 ∨
      (labels.filterMap turn).count y = 1 ∧ Ahead (ring t).upcoming x y := by
    induction htrace with
    | refl => exact .inl rfl
    | @tail b t labels label _ hstep ih =>
        have hnext := hring _ _ _ hstep
        have hxb := hx _ _ _ hstep
        rw [filterMap_snoc, List.mem_append, not_or] at hnone
        rw [filterMap_snoc, List.count_append, count_toList]
        rcases ih hxb hnone.1 with hcount | ⟨hcount, hbefore⟩
        · rw [hcount]
          by_cases hlabel : turn label = some y
          · -- the turn of `y` brings it behind `x`
            rw [if_pos hlabel]
            exact .inr ⟨rfl, (hlabel ▸ hnext).ahead_of_turn hne hxb⟩
          · rw [if_neg hlabel]
            exact .inl rfl
        · rcases hnext.ahead hbefore hxt with ⟨hlabel, -⟩ | ⟨-, hlabel, hafter⟩
          · exact absurd (by simp [hlabel]) hnone.2
          · rw [hcount, if_neg hlabel]
            exact .inr ⟨rfl, hafter⟩
  rcases hrun with hzero | ⟨hone, -⟩
  · rw [hzero]
    exact Nat.zero_le 1
  · exact hone.le

end Runs

/-! ### How long a member waits -/

/-- Two ways to split a list without duplicates at the same member. -/
theorem split_unique {front front' back back' : List α} (hnodup : (front ++ x :: back).Nodup)
    (h : front ++ x :: back = front' ++ x :: back') : front = front' ∧ back = back' := by
  obtain ⟨-, hback, hfront⟩ := List.nodup_append.mp hnodup
  have hf : x ∉ front := fun hmem => hfront x hmem x List.mem_cons_self rfl
  obtain ⟨hfronts, -, hbacks⟩ :=
    (List.append_cons_inj_of_notMem hf (List.nodup_cons.mp hback).1).mp h
  exact ⟨hfronts, hbacks⟩

/-- The member `x` waits for the turn of the anchor, after `count` turns of others.
`before`: the turn of the anchor comes first, and newcomers come behind the anchor;
`during`: the anchor has its turn, and newcomers are next. -/
inductive Early (x : α) (bound count : Nat) (c : RoundRobin α) : Prop
  | before {front a back} (hsplit : c.upcoming = front ++ a :: back) (hanchor : c.anchor = some a)
      (hx : x ∈ a :: back) (hcount : count + front.length + 1 ≤ bound)
  | during {front a} (hsplit : c.upcoming = front ++ [a]) (hanchor : c.anchor = some a)
      (hbusy : c.busy = true) (hx : x ∈ front) (hcount : count ≤ bound)

/-- The turn of the anchor comes after `x`, and so do newcomers. -/
inductive Late (x : α) (bound count : Nat) (c : RoundRobin α) : Prop
  | after {front middle a back} (hsplit : c.upcoming = front ++ x :: (middle ++ a :: back))
      (hanchor : c.anchor = some a) (hnext : c.busy = true → back ≠ [])
      (hcount : count + front.length + 1 ≤ bound)

variable {bound count : Nat}

/-- The wait begins behind the anchor or in front of it. -/
theorem early_or_late (hx : x ∈ c.upcoming) (hanchor : ∃ a ∈ c.upcoming, c.anchor = some a) :
    Early x c.upcoming.length 0 c ∨ Late x c.upcoming.length 0 c := by
  obtain ⟨a, ha, hanchor⟩ := hanchor
  obtain ⟨front, back, hsplit⟩ := List.append_of_mem ha
  have hlength := congrArg List.length hsplit
  simp only [List.length_append, List.length_cons] at hlength
  rw [hsplit] at hx
  rcases List.mem_append.mp hx with hfront | hback
  · by_cases hlast : c.busy = true ∧ back = []
    · obtain ⟨hbusy, rfl⟩ := hlast
      exact .inl (.during hsplit hanchor hbusy hfront (Nat.zero_le _))
    · obtain ⟨front', middle, rfl⟩ := List.append_of_mem hfront
      simp only [List.length_append, List.length_cons] at hlength
      refine .inr (.after (by simpa using hsplit) hanchor ?_ (by omega))
      intro hbusy hnil
      exact hlast ⟨hbusy, hnil⟩
  · exact .inl (.before hsplit hanchor hback (by omega))

/-- The turn of the anchor has still to come. -/
theorem Step.before {front back : List α} {a : α} (h : Step c c' label)
    (hsplit : c.upcoming = front ++ a :: back) (hanchor : c.anchor = some a)
    (hx : x ∈ a :: back) (hcount : count + front.length + 1 ≤ bound) (hx' : x ∈ c'.upcoming)
    (hnot : label ≠ some x) (hidle : c.busy = true → c.upcoming.getLast? ≠ some x) :
    Early x bound (count + label.toList.length) c' := by
  have hnodup := c.nodup
  rw [hsplit] at hnodup
  cases h with
  | stay hupcoming hanchor' | pass _ hupcoming hanchor' =>
      exact .before (hupcoming.trans hsplit) (hanchor'.trans hanchor) hx hcount
  | @turn z rest _ hbefore hafter hanchor' hbusy' =>
      rw [hsplit] at hbefore
      rcases List.append_eq_cons_iff.mp hbefore with ⟨rfl, hcons⟩ | ⟨front', rfl, rfl⟩
      · -- it is the turn of the anchor
        obtain ⟨rfl, rfl⟩ := List.cons.inj hcons
        have hback : x ∈ back := List.mem_of_ne_of_mem (fun heq => hnot (congrArg some heq.symm)) hx
        exact .during hafter (hanchor'.trans hanchor) hbusy' hback hcount
      · have hsplit' : c'.upcoming = front' ++ a :: (back ++ [z]) := by
          rw [hafter]
          simp
        have hmem : x ∈ a :: (back ++ [z]) := List.mem_append_left [z] hx
        apply Early.before hsplit' (hanchor'.trans hanchor) hmem
        show count + 1 + front'.length + 1 ≤ bound
        rw [List.length_cons] at hcount
        omega
  | @leave z rest _ hbefore hafter hanchor' =>
      rw [hsplit] at hbefore
      rcases List.append_eq_cons_iff.mp hbefore with ⟨rfl, hcons⟩ | ⟨front', rfl, rfl⟩
      · -- the anchor leaves, and the next member is the anchor
        obtain ⟨rfl, rfl⟩ := List.cons.inj hcons
        rw [hafter] at hx'
        obtain ⟨b, back', rfl⟩ := List.exists_cons_of_ne_nil (List.ne_nil_of_mem hx')
        have hsplit' : c'.upcoming = [] ++ b :: back' := hafter
        exact .before hsplit' (anchor_moves hanchor hanchor') hx' hcount
      · have hne : a ≠ z := mem_of_leave hnodup (List.mem_append_right _ List.mem_cons_self)
        rw [List.length_cons] at hcount
        exact .before hafter (anchor_stays hanchor hne hanchor') hx
          (show count + front'.length + 1 ≤ bound by omega)
  | @replace z y rest _ hbefore hafter _ hanchor' =>
      rw [hsplit] at hbefore
      rcases List.append_eq_cons_iff.mp hbefore with ⟨rfl, hcons⟩ | ⟨front', rfl, rfl⟩
      · -- the newcomer takes the place of the anchor
        obtain ⟨rfl, rfl⟩ := List.cons.inj hcons
        rw [hafter] at hx'
        have hsplit' : c'.upcoming = [] ++ y :: back := hafter
        exact .before hsplit' (anchor_moves hanchor hanchor') hx' hcount
      · have hne : a ≠ z := mem_of_leave hnodup (List.mem_append_right _ List.mem_cons_self)
        have hsplit' : c'.upcoming = (y :: front') ++ a :: back := hafter
        exact .before hsplit' (anchor_stays hanchor hne hanchor') hx hcount
  | first hbefore =>
      rw [hsplit] at hbefore
      simp at hbefore
  | @next y front' a' hbusy hbefore hafter hanchor' =>
      -- the anchor is having its turn, so it would be `x`
      rw [hanchor] at hanchor'
      obtain rfl := Option.some.inj hanchor'
      obtain ⟨-, rfl⟩ := split_unique hnodup (hsplit.symm.trans hbefore)
      obtain rfl := List.mem_singleton.mp hx
      exact absurd (by simp [hbefore]) (hidle hbusy)
  | @behind y front' a' back' hplace hbefore hafter hanchor' hanchor'' =>
      rw [hanchor] at hanchor'
      obtain rfl := Option.some.inj hanchor'
      obtain ⟨rfl, rfl⟩ := split_unique hnodup (hsplit.symm.trans hbefore)
      have hmem : x ∈ a :: y :: back := by
        rcases List.mem_cons.mp hx with rfl | hback
        · exact List.mem_cons_self
        · exact List.mem_cons_of_mem _ (List.mem_cons_of_mem _ hback)
      exact .before hafter (hanchor''.trans hanchor) hmem hcount

/-- At the end of a turn nothing changes from a member on that stays. -/
theorem Step.end_turn {front middle back : List α} {a : α} (h : Step c c' label)
    (hbusy : c.busy = true) (hbusy' : c'.busy = false)
    (hsplit : c.upcoming = front ++ x :: (middle ++ a :: back)) (hanchor : c.anchor = some a)
    (hx' : x ∈ c'.upcoming) :
    label = none ∧ ∃ front', c'.upcoming = front' ++ x :: (middle ++ a :: back) ∧
      c'.anchor = some a ∧ front'.length ≤ front.length := by
  have hnodup := c.nodup
  have hkept (hsame : c'.busy = c.busy) : False := by
    rw [hsame, hbusy] at hbusy'
    cases hbusy'
  cases h with
  | stay _ _ hsame | first _ _ _ hsame | next _ _ _ _ _ hsame | behind _ _ _ _ _ hsame =>
      exact (hkept hsame).elim
  | turn hfree =>
      rw [hbusy] at hfree
      cases hfree
  | pass _ hupcoming hanchor' =>
      exact ⟨rfl, front, hupcoming.trans hsplit, hanchor'.trans hanchor, Nat.le_refl _⟩
  | @leave z rest _ hbefore hafter hanchor' =>
      have hne : x ≠ z := mem_of_leave (hbefore ▸ hnodup) (hafter ▸ hx')
      rw [hsplit] at hbefore hnodup
      rcases List.append_eq_cons_iff.mp hbefore with ⟨rfl, hcons⟩ | ⟨front', rfl, rfl⟩
      · exact absurd (List.cons.inj hcons).1 hne
      · have hstays : a ≠ z := mem_of_leave hnodup (by simp)
        exact ⟨rfl, front', hafter, anchor_stays hanchor hstays hanchor', by simp⟩
  | @replace z y rest _ hbefore hafter hother hanchor' =>
      have hne : x ≠ z := mem_of_replace (hbefore ▸ hnodup) hother (hafter ▸ hx')
      rw [hsplit] at hbefore hnodup
      rcases List.append_eq_cons_iff.mp hbefore with ⟨rfl, hcons⟩ | ⟨front', rfl, rfl⟩
      · exact absurd (List.cons.inj hcons).1 hne
      · have hstays : a ≠ z := mem_of_leave hnodup (by simp)
        exact ⟨rfl, y :: front', hafter, anchor_stays hanchor hstays hanchor', by simp⟩

/-- The anchor is having its turn. -/
theorem Step.during {front : List α} {a : α} (h : Step c c' label)
    (hsplit : c.upcoming = front ++ [a]) (hanchor : c.anchor = some a) (hbusy : c.busy = true)
    (hx : x ∈ front) (hcount : count ≤ bound) (hx' : x ∈ c'.upcoming) :
    Early x bound (count + label.toList.length) c' ∨
      label = none ∧ Late x c'.upcoming.length 0 c' := by
  have hnodup := c.nodup
  cases hbusy' : c'.busy with
  | false =>
      -- the turn of the anchor ends, and from now on newcomers come behind `x`
      obtain ⟨front', middle, rfl⟩ := List.append_of_mem hx
      have hsplit' : c.upcoming = front' ++ x :: (middle ++ a :: []) := by
        rw [hsplit]
        simp
      obtain ⟨rfl, front'', hafter, hanchor', -⟩ := h.end_turn hbusy hbusy' hsplit' hanchor hx'
      have hlength := congrArg List.length hafter
      simp only [List.length_append, List.length_cons] at hlength
      refine .inr ⟨rfl, .after hafter hanchor' ?_ (by omega)⟩
      rw [hbusy']
      nofun
  | true =>
      rw [hsplit] at hnodup
      cases h with
      | stay hupcoming hanchor' =>
          exact .inl (.during (hupcoming.trans hsplit) (hanchor'.trans hanchor) hbusy' hx hcount)
      | turn hfree =>
          rw [hbusy] at hfree
          cases hfree
      | pass _ _ _ hfree | leave _ _ _ _ hfree | replace _ _ _ _ _ hfree =>
          rw [hbusy'] at hfree
          cases hfree
      | first hbefore =>
          rw [hsplit] at hbefore
          simp at hbefore
      | @next y front' a' _ hbefore hafter hanchor' hanchor'' =>
          rw [hanchor] at hanchor'
          obtain rfl := Option.some.inj hanchor'
          obtain ⟨rfl, -⟩ := split_unique hnodup (hsplit.symm.trans hbefore)
          have hsplit' : c'.upcoming = (y :: front) ++ [a] := hafter
          exact .inl (.during hsplit' (hanchor''.trans hanchor) hbusy'
            (List.mem_cons_of_mem y hx) hcount)
      | @behind y front' a' back hplace hbefore hafter hanchor' =>
          rw [hanchor] at hanchor'
          obtain rfl := Option.some.inj hanchor'
          obtain ⟨-, rfl⟩ := split_unique hnodup (hsplit.symm.trans hbefore)
          rcases hplace with hne | hfree
          · exact absurd rfl hne
          · rw [hbusy] at hfree
            cases hfree

/-- The turn of the anchor is over. -/
theorem Step.after {front middle back : List α} {a : α} (h : Step c c' label)
    (hsplit : c.upcoming = front ++ x :: (middle ++ a :: back)) (hanchor : c.anchor = some a)
    (hnext : c.busy = true → back ≠ []) (hcount : count + front.length + 1 ≤ bound)
    (hx' : x ∈ c'.upcoming) (hnot : label ≠ some x) :
    Late x bound (count + label.toList.length) c' := by
  have hnodup := c.nodup
  rw [hsplit] at hnodup
  cases hturn : c.busy && !c'.busy with
  | true =>
      obtain ⟨hbusy, hbusy'⟩ : c.busy = true ∧ c'.busy = false := by simpa using hturn
      obtain ⟨rfl, front', hafter, hanchor', hle⟩ :=
        h.end_turn hbusy hbusy' hsplit hanchor hx'
      apply Late.after hafter hanchor'
      · rw [hbusy']
        nofun
      · show count + front'.length + 1 ≤ bound
        omega
  | false =>
      have hends (hbusy : c.busy = true) (hbusy' : c'.busy = false) : False := by
        simp [hbusy, hbusy'] at hturn
      have hassoc : c.upcoming = (front ++ x :: middle) ++ a :: back := by
        rw [hsplit]
        simp
      cases h with
      | stay hupcoming hanchor' hbusy' =>
          exact .after (hupcoming.trans hsplit) (hanchor'.trans hanchor) (hbusy' ▸ hnext) hcount
      | @turn z rest _ hbefore hafter hanchor' =>
          rw [hsplit] at hbefore
          rcases List.append_eq_cons_iff.mp hbefore with ⟨rfl, hcons⟩ | ⟨front', rfl, rfl⟩
          · exact absurd (congrArg some (List.cons.inj hcons).1.symm) hnot
          · have hsplit' : c'.upcoming = front' ++ x :: (middle ++ a :: (back ++ [z])) := by
              rw [hafter]
              simp
            apply Late.after hsplit' (hanchor'.trans hanchor)
            · intro _
              simp
            · rw [List.length_cons] at hcount
              show count + 1 + front'.length + 1 ≤ bound
              omega
      | pass hbusy _ _ hbusy' => exact (hends hbusy hbusy').elim
      | leave hbusy _ _ _ hbusy' => exact (hends hbusy hbusy').elim
      | replace hbusy _ _ _ _ hbusy' => exact (hends hbusy hbusy').elim
      | first hbefore =>
          rw [hsplit] at hbefore
          simp at hbefore
      | @next y front' a' hbusy hbefore hafter hanchor' =>
          rw [hanchor] at hanchor'
          obtain rfl := Option.some.inj hanchor'
          obtain ⟨-, rfl⟩ := split_unique (hassoc ▸ c.nodup) (hassoc.symm.trans hbefore)
          exact absurd rfl (hnext hbusy)
      | @behind y front' a' back' hplace hbefore hafter hanchor' hanchor'' =>
          rw [hanchor] at hanchor'
          obtain rfl := Option.some.inj hanchor'
          obtain ⟨rfl, rfl⟩ := split_unique (hassoc ▸ c.nodup) (hassoc.symm.trans hbefore)
          have hsplit' : c'.upcoming = front ++ x :: (middle ++ a :: y :: back) := by
            rw [hafter]
            simp
          exact .after hsplit' (hanchor''.trans hanchor) (fun _ => by simp) hcount

/-- A step while the turn of the anchor has to come. -/
theorem Early.step (hearly : Early x bound count c) (h : Step c c' label)
    (hx' : x ∈ c'.upcoming) (hnot : label ≠ some x)
    (hidle : c.busy = true → c.upcoming.getLast? ≠ some x) :
    Early x bound (count + label.toList.length) c' ∨
      label = none ∧ Late x c'.upcoming.length 0 c' := by
  cases hearly with
  | before hsplit hanchor hx hcount =>
      exact .inl (h.before hsplit hanchor hx hcount hx' hnot hidle)
  | during hsplit hanchor hbusy hx hcount => exact h.during hsplit hanchor hbusy hx hcount hx'

theorem Late.step (hlate : Late x bound count c) (h : Step c c' label)
    (hx' : x ∈ c'.upcoming) (hnot : label ≠ some x) :
    Late x bound (count + label.toList.length) c' := by
  obtain ⟨hsplit, hanchor, hnext, hcount⟩ := hlate
  exact h.after hsplit hanchor hnext hcount hx' hnot

theorem Early.count_le (hearly : Early x bound count c) : count ≤ bound := by
  cases hearly with
  | before _ _ _ hcount | during _ _ _ _ hcount => omega

theorem Late.count_le (hlate : Late x bound count c) : count ≤ bound := by
  obtain ⟨-, -, -, hcount⟩ := hlate
  omega

/-- A member that is not having its turn gets it only by the beginning of a turn. -/
theorem Step.not_served (h : Step c c' label) (hx : x ∈ c.upcoming) (hnot : label ≠ some x)
    (hidle : c.busy = true → c.upcoming.getLast? ≠ some x) (hbusy' : c'.busy = true) :
    c'.upcoming.getLast? ≠ some x := by
  cases h with
  | stay hupcoming _ hbusy =>
      rw [hupcoming]
      exact hidle (hbusy ▸ hbusy')
  | turn _ _ hafter =>
      rw [hafter, List.getLast?_concat]
      exact hnot
  | pass _ _ _ hfree | leave _ _ _ _ hfree | replace _ _ _ _ _ hfree =>
      rw [hfree] at hbusy'
      cases hbusy'
  | first hbefore =>
      rw [hbefore] at hx
      cases hx
  | next hbusy hbefore hafter =>
      have hlast := hidle hbusy
      rw [hbefore] at hlast
      rw [hafter]
      simpa [List.getLast?_cons] using hlast
  | behind hplace hbefore hafter _ _ hbusy =>
      have hlast := hidle (hbusy ▸ hbusy')
      obtain hne | hfree := hplace
      · rw [hbefore] at hlast
        rw [hafter]
        obtain ⟨z, back, rfl⟩ := List.exists_cons_of_ne_nil hne
        simpa [List.getLast?_cons] using hlast
      · rw [← hbusy, hbusy'] at hfree
        cases hfree

/-- **How long a member waits.**  A member that is not having its turn waits for at most as
many turns as the ring has members, and then for at most as many as it has members at one
later moment, whoever comes and goes before that moment and after it. -/
theorem wait_le {State Label : Type*} {step : State → Label → State → Prop}
    {ring : State → RoundRobin α} {turn : Label → Option α} {s t : State} {labels : List Label}
    (hring : ∀ s l t, step s l t → Step (ring s) (ring t) (turn l))
    (hx : ∀ s l t, step s l t → x ∈ (ring s).upcoming) (htrace : Trace step s labels t)
    (hanchor : ∃ a ∈ (ring s).upcoming, (ring s).anchor = some a)
    (hidle : (ring s).busy = true → (ring s).upcoming.getLast? ≠ some x)
    (hxs : x ∈ (ring s).upcoming) (hxt : x ∈ (ring t).upcoming)
    (hnone : x ∉ labels.filterMap turn) :
    ∃ first mid second, labels = first ++ second ∧ Trace step s first mid ∧
      Trace step mid second t ∧ (first.filterMap turn).length ≤ (ring s).upcoming.length ∧
      (second.filterMap turn).length ≤ (ring mid).upcoming.length := by
  have hrun : (Early x (ring s).upcoming.length (labels.filterMap turn).length (ring t) ∨
      ∃ first mid second, labels = first ++ second ∧ Trace step s first mid ∧
        Trace step mid second t ∧ (first.filterMap turn).length ≤ (ring s).upcoming.length ∧
        Late x (ring mid).upcoming.length (second.filterMap turn).length (ring t)) ∧
      ((ring t).busy = true → (ring t).upcoming.getLast? ≠ some x) := by
    induction htrace with
    | refl =>
        refine ⟨?_, hidle⟩
        rcases early_or_late hxs hanchor with hearly | hlate
        · exact .inl hearly
        · exact .inr ⟨[], s, [], rfl, .refl s, .refl s, Nat.zero_le _, hlate⟩
    | @tail b t labels label hbefore hstep ih =>
        have hnext := hring _ _ _ hstep
        have hxb := hx _ _ _ hstep
        rw [filterMap_snoc, List.mem_append, not_or] at hnone
        have hnot : turn label ≠ some x := fun heq => hnone.2 (by simp [heq])
        obtain ⟨hplace, hserved⟩ := ih hxb hnone.1
        refine ⟨?_, hnext.not_served hxb hnot hserved⟩
        rcases hplace with hearly | ⟨first, mid, second, rfl, hfirst, hsecond, hle, hlate⟩
        · rcases hearly.step hnext hxt hnot hserved with hearly' | ⟨hlabel, hlate⟩
          · left
            rw [filterMap_snoc, List.length_append]
            exact hearly'
          · refine .inr ⟨labels ++ [label], t, [], by simp, hbefore.tail hstep, .refl t, ?_, hlate⟩
            rw [filterMap_snoc, hlabel, Option.toList_none, List.append_nil]
            exact hearly.count_le
        · refine .inr ⟨first, mid, second ++ [label], by simp, hfirst, hsecond.tail hstep, hle, ?_⟩
          rw [filterMap_snoc, List.length_append]
          exact hlate.step hnext hxt hnot
  rcases hrun.1 with hearly | ⟨first, mid, second, hsplit, hfirst, hsecond, hle, hlate⟩
  · exact ⟨labels, t, [], by simp, htrace, .refl t, hearly.count_le, Nat.zero_le _⟩
  · exact ⟨first, mid, second, hsplit, hfirst, hsecond, hle, hlate.count_le⟩

/-! ### Laps -/

/-- A step that ends a turn, so that the turn of the anchor is next. -/
def EndsLap (c c' : RoundRobin α) : Prop :=
  c.busy = true ∧ c'.busy = false ∧ c'.upcoming.head? = c'.anchor

/-- The lap of `x`, which has had `count` turns in it.  `fresh`: no turn has begun since the
last lap; `going`: the turn of the anchor was first, who has still to come has had no turn,
and the others have had one. -/
inductive Lap (x : α) (count : Nat) (c : RoundRobin α) : Prop
  | fresh (hhead : c.upcoming.head? = c.anchor) (hfree : c.busy = false) (hcount : count = 0)
  | going {pending done : List α} {a : α} (hsplit : c.upcoming = pending ++ a :: done)
      (hanchor : c.anchor = some a) (hfree : c.busy = false → pending ≠ [])
      (hcount : x ∈ pending ∧ count = 0 ∨ x ∈ a :: done ∧ count = 1)

/-- A step that does not end a turn does not end a lap. -/
theorem not_endsLap (h : c.busy = true → c'.busy = true) : ¬ EndsLap c c' := by
  rintro ⟨hbusy, hbusy', -⟩
  rw [h hbusy] at hbusy'
  cases hbusy'

/-- When nobody has still to come, everybody has had a turn. -/
theorem count_eq_one {done : List α} {a : α}
    (h : x ∈ ([] : List α) ∧ count = 0 ∨ x ∈ a :: done ∧ count = 1) : count = 1 := by
  rcases h with ⟨hpending, -⟩ | ⟨-, hone⟩
  · cases hpending
  · exact hone

/-- A turn ends and the anchor stays: either its turn is next and the lap is over, or the lap
goes on. -/
theorem Lap.settle {pending done : List α} {a : α} (hbusy : c.busy = true)
    (hbusy' : c'.busy = false) (hsplit : c'.upcoming = pending ++ a :: done)
    (hanchor : c'.anchor = some a) (hcount : x ∈ pending ∧ count = 0 ∨ x ∈ a :: done ∧ count = 1) :
    EndsLap c c' ∧ count = 1 ∨ ¬ EndsLap c c' ∧ Lap x count c' := by
  cases pending with
  | nil =>
      refine .inl ⟨⟨hbusy, hbusy', ?_⟩, count_eq_one hcount⟩
      rw [hsplit, hanchor]
      rfl
  | cons p pending =>
      refine .inr ⟨?_, .going hsplit hanchor (fun _ => List.cons_ne_nil _ _) hcount⟩
      rintro ⟨-, -, hhead⟩
      have hnodup := c'.nodup
      rw [hsplit] at hhead hnodup
      obtain rfl : p = a := Option.some.inj (hhead.trans hanchor)
      exact (List.nodup_cons.mp hnodup).1 (by simp)

/-- A turn ends. -/
theorem Lap.end_turn (h : Lap x count c) (hstep : Step c c' label) (hx' : x ∈ c'.upcoming)
    (hbusy : c.busy = true) (hbusy' : c'.busy = false) :
    label = none ∧ (EndsLap c c' ∧ count = 1 ∨ ¬ EndsLap c c' ∧ Lap x count c') := by
  have hnodup := c.nodup
  have hkept (hsame : c'.busy = c.busy) : False := by
    rw [hsame, hbusy] at hbusy'
    cases hbusy'
  cases h with
  | fresh _ hfree _ =>
      rw [hbusy] at hfree
      cases hfree
  | @going pending done a hsplit hanchor _ hcount =>
  cases hstep with
  | stay _ _ hsame | first _ _ _ hsame | next _ _ _ _ _ hsame | behind _ _ _ _ _ hsame =>
      exact (hkept hsame).elim
  | turn hfree =>
      rw [hbusy] at hfree
      cases hfree
  | pass _ hupcoming hanchor' =>
      exact ⟨rfl, Lap.settle hbusy hbusy' (hupcoming.trans hsplit) (hanchor'.trans hanchor) hcount⟩
  | @leave z rest _ hbefore hafter hanchor' =>
      have hne : x ≠ z := mem_of_leave (hbefore ▸ hnodup) (hafter ▸ hx')
      rw [hsplit] at hbefore hnodup
      refine ⟨rfl, ?_⟩
      cases pending with
      | nil =>
          -- the anchor leaves, and its successor is next
          obtain ⟨rfl, rfl⟩ := List.cons.inj hbefore
          have hmoved := anchor_moves hanchor hanchor'
          exact .inl ⟨⟨hbusy, hbusy', by rw [hafter, hmoved]⟩, count_eq_one hcount⟩
      | cons p pending =>
          obtain ⟨rfl, rfl⟩ := List.cons.inj hbefore
          have hstays : a ≠ p := mem_of_leave hnodup (by simp)
          refine Lap.settle hbusy hbusy' hafter (anchor_stays hanchor hstays hanchor') ?_
          simpa [hne] using hcount
  | @replace z y rest _ hbefore hafter hother hanchor' =>
      have hne : x ≠ z := mem_of_replace (hbefore ▸ hnodup) hother (hafter ▸ hx')
      rw [hsplit] at hbefore hnodup
      refine ⟨rfl, ?_⟩
      cases pending with
      | nil =>
          -- the anchor is replaced, and who replaces it is next
          obtain ⟨rfl, rfl⟩ := List.cons.inj hbefore
          have hnext : c'.upcoming.head? = c'.anchor := by
            rw [hafter, anchor_moves hanchor hanchor']
            rfl
          exact .inl ⟨⟨hbusy, hbusy', hnext⟩, count_eq_one hcount⟩
      | cons p pending =>
          obtain ⟨rfl, rfl⟩ := List.cons.inj hbefore
          have hstays : a ≠ p := mem_of_leave hnodup (by simp)
          have hsplit' : c'.upcoming = (y :: pending) ++ a :: done := hafter
          refine Lap.settle hbusy hbusy' hsplit' (anchor_stays hanchor hstays hanchor') ?_
          rcases hcount with ⟨hpending, hzero⟩ | hdone
          · have hlater := List.mem_of_ne_of_mem hne hpending
            exact .inl ⟨List.mem_cons_of_mem _ hlater, hzero⟩
          · exact .inr hdone

variable [DecidableEq α]

/-- A turn begins. -/
theorem Lap.turn (h : Lap x count c) (hx : x ∈ c.upcoming) (hfree : c.busy = false)
    (hbefore : c.upcoming = z :: rest) (hafter : c'.upcoming = rest ++ [z])
    (hanchor' : c'.anchor = c.anchor) (hbusy' : c'.busy = true) :
    Lap x (count + (some z).toList.count x) c' := by
  have hnodup := c.nodup
  have hbusy : c'.busy = false → ∀ l : List α, l ≠ [] := fun hidle => by
    rw [hbusy'] at hidle
    cases hidle
  rw [count_toList]
  cases h with
  | fresh hhead _ hcount =>
      -- the turn of the anchor comes first
      have hanchor : c.anchor = some z := by rw [← hhead, hbefore]; rfl
      refine .going hafter (hanchor'.trans hanchor) (hbusy · rest) ?_
      rw [hbefore] at hx hnodup
      rcases List.mem_cons.mp hx with rfl | hrest
      · exact .inr (by simp [hcount])
      · exact .inl ⟨hrest, by simp [hcount, (mem_of_leave hnodup hrest).symm]⟩
  | @going pending done a hsplit hanchor hpending hcount =>
      rw [hsplit] at hbefore hnodup
      cases pending with
      | nil => exact absurd rfl (hpending hfree)
      | cons p pending =>
          obtain ⟨rfl, rfl⟩ := List.cons.inj hbefore
          have hsplit' : c'.upcoming = pending ++ a :: (done ++ [p]) := by
            rw [hafter]
            simp
          refine .going hsplit' (hanchor'.trans hanchor) (hbusy · pending) ?_
          rcases hcount with ⟨hmem, hzero⟩ | ⟨hmem, hone⟩
          · rcases List.mem_cons.mp hmem with rfl | hlater
            · exact .inr (by simp [hzero])
            · have hne := (mem_of_leave hnodup (List.mem_append_left _ hlater)).symm
              exact .inl ⟨hlater, by simp [hzero, hne]⟩
          · have hne := (mem_of_leave hnodup (List.mem_append_right _ hmem)).symm
            refine .inr ⟨?_, by simp [hone, hne]⟩
            exact List.mem_append_left [p] hmem

omit [DecidableEq α] in
/-- A newcomer comes behind the anchor. -/
theorem Lap.behind {front back : List α} {a : α} (h : Lap x count c)
    (hbefore : c.upcoming = front ++ a :: back) (hafter : c'.upcoming = front ++ a :: y :: back)
    (hanchor : c.anchor = some a) (hanchor' : c'.anchor = c.anchor) (hbusy : c'.busy = c.busy) :
    Lap x count c' := by
  have hnodup := c.nodup
  cases h with
  | fresh hhead hfree hcount =>
      cases front with
      | nil =>
          refine .fresh ?_ (hbusy.trans hfree) hcount
          rw [hafter, hanchor', hanchor]
          rfl
      | cons f front =>
          rw [hbefore] at hhead hnodup
          obtain rfl : f = a := Option.some.inj (hhead.trans hanchor)
          exact absurd rfl (mem_of_leave hnodup (x := f) (by simp))
  | @going pending done b hsplit hanchor'' hpending hcount =>
      obtain rfl : b = a := Option.some.inj (hanchor''.symm.trans hanchor)
      rw [hsplit] at hnodup
      obtain ⟨rfl, rfl⟩ := split_unique hnodup (hsplit.symm.trans hbefore)
      refine .going hafter (hanchor'.trans hanchor) (fun hfree => hpending (hbusy ▸ hfree)) ?_
      rcases hcount with hzero | ⟨hmem, hone⟩
      · exact .inl hzero
      · refine .inr ⟨?_, hone⟩
        rcases List.mem_cons.mp hmem with rfl | hdone
        · exact List.mem_cons_self
        · exact List.mem_cons_of_mem _ (List.mem_cons_of_mem _ hdone)

/-- **A step in a lap**: the lap is over after one turn, or it goes on. -/
theorem Lap.step (h : Lap x count c) (hstep : Step c c' label) (hx : x ∈ c.upcoming)
    (hx' : x ∈ c'.upcoming) :
    EndsLap c c' ∧ label = none ∧ count = 1 ∨
      ¬ EndsLap c c' ∧ Lap x (count + label.toList.count x) c' := by
  by_cases hends : c.busy = true ∧ c'.busy = false
  · obtain ⟨rfl, hover | hgoes⟩ := h.end_turn hstep hx' hends.1 hends.2
    · exact .inl ⟨hover.1, rfl, hover.2⟩
    · exact .inr hgoes
  refine .inr ⟨not_endsLap (fun hbusy => by simpa [hbusy] using hends), ?_⟩
  cases hstep with
  | stay hupcoming hanchor' hbusy =>
      cases h with
      | fresh hhead hfree hcount =>
          exact .fresh (by rw [hupcoming, hanchor', hhead]) (hbusy.trans hfree) hcount
      | going hsplit hanchor hpending hcount =>
          exact .going (hupcoming.trans hsplit) (hanchor'.trans hanchor)
            (fun hfree => hpending (hbusy ▸ hfree)) hcount
  | turn hfree hbefore hafter hanchor' hbusy' => exact h.turn hx hfree hbefore hafter hanchor' hbusy'
  | pass hbusy _ _ hbusy' | leave hbusy _ _ _ hbusy' | replace hbusy _ _ _ _ hbusy' =>
      exact absurd ⟨hbusy, hbusy'⟩ hends
  | first hbefore =>
      rw [hbefore] at hx
      cases hx
  | @next y front a hbusy hbefore hafter hanchor hanchor' hbusy' =>
      cases h with
      | fresh _ hfree _ =>
          rw [hbusy] at hfree
          cases hfree
      | @going pending done b hsplit hanchor'' hpending hcount =>
          have hnodup := c.nodup
          obtain rfl : b = a := Option.some.inj (hanchor''.symm.trans hanchor)
          rw [hsplit] at hnodup
          obtain ⟨rfl, rfl⟩ := split_unique hnodup (hsplit.symm.trans hbefore)
          refine .going hafter (hanchor'.trans hanchor) (fun _ => List.cons_ne_nil _ _) ?_
          exact hcount.imp_left (fun hzero => ⟨List.mem_cons_of_mem _ hzero.1, hzero.2⟩)
  | behind _ hbefore hafter hanchor hanchor' hbusy =>
      exact h.behind hbefore hafter hanchor hanchor' hbusy

section Laps

variable {State Label : Type*} {step : State → Label → State → Prop} {ring : State → RoundRobin α}
  {turn : Label → Option α} {ends : Label → Bool} {s t : State} {labels : List Label} {last : Label}

/-- While no lap ends, the lap goes on. -/
theorem lap_of_trace (hring : ∀ s l t, step s l t → Step (ring s) (ring t) (turn l))
    (hends : ∀ s l t, step s l t → (ends l = true ↔ EndsLap (ring s) (ring t)))
    (hx : ∀ s l t, step s l t → x ∈ (ring s).upcoming ∧ x ∈ (ring t).upcoming)
    (htrace : Trace step s labels t) (hstart : Lap x 0 (ring s))
    (hgoes : ∀ label ∈ labels, ends label = false) :
    Lap x ((labels.filterMap turn).count x) (ring t) := by
  induction htrace with
  | refl => exact hstart
  | @tail b t labels label _ hstep ih =>
      have hlap := ih (fun l hl => hgoes l (List.mem_append_left _ hl))
      have hopen := hgoes label (by simp)
      rw [filterMap_snoc, List.count_append]
      have hmem := hx _ _ _ hstep
      rcases hlap.step (hring _ _ _ hstep) hmem.1 hmem.2 with ⟨hover, -⟩ | ⟨-, hnext⟩
      · rw [(hends _ _ _ hstep).mpr hover] at hopen
        cases hopen
      · exact hnext

/-- **In a lap** every member that stays has exactly one turn, whoever comes and goes and
wherever the anchor moves. -/
theorem turns_lap (hring : ∀ s l t, step s l t → Step (ring s) (ring t) (turn l))
    (hends : ∀ s l t, step s l t → (ends l = true ↔ EndsLap (ring s) (ring t)))
    (hx : ∀ s l t, step s l t → x ∈ (ring s).upcoming ∧ x ∈ (ring t).upcoming)
    (htrace : Trace step s (labels ++ [last]) t)
    (hhead : (ring s).upcoming.head? = (ring s).anchor) (hfree : (ring s).busy = false)
    (hgoes : ∀ label ∈ labels, ends label = false) (hlast : ends last = true) :
    ((labels ++ [last]).filterMap turn).count x = 1 := by
  obtain ⟨mid, hfirst, hend⟩ := htrace.split
  have hlap := lap_of_trace hring hends hx hfirst (.fresh hhead hfree rfl) hgoes
  have hstep := hend.single
  have hmem := hx _ _ _ hstep
  rcases hlap.step (hring _ _ _ hstep) hmem.1 hmem.2 with ⟨-, hnone, hone⟩ | ⟨hnot, -⟩
  · rw [filterMap_snoc, hnone, Option.toList_none, List.append_nil]
    exact hone
  · exact absurd ((hends _ _ _ hstep).mp hlast) hnot

end Laps

/-! ### Cutting a run into laps -/

section Cut

variable {Label : Type*}

/-- The laps of a run, each with the label that ends it, and the labels after them. -/
def laps (ends : Label → Bool) (labels : List Label) : List (List Label) × List Label :=
  labels.foldl
    (fun cut label =>
      if ends label then (cut.1 ++ [cut.2 ++ [label]], []) else (cut.1, cut.2 ++ [label]))
    ([], [])

variable {ends : Label → Bool} {labels lap : List Label} {label : Label}

theorem laps_snoc_ends (hends : ends label = true) : laps ends (labels ++ [label]) =
    ((laps ends labels).1 ++ [(laps ends labels).2 ++ [label]], []) := by
  simp [laps, hends]

theorem laps_snoc_goes (hends : ends label = false) :
    laps ends (labels ++ [label]) = ((laps ends labels).1, (laps ends labels).2 ++ [label]) := by
  simp [laps, hends]

/-- The labels before a lap are none, or the last of them ends a lap. -/
def LapStart (ends : Label → Bool) (before : List Label) : Prop :=
  before = [] ∨ ∃ front last, before = front ++ [last] ∧ ends last = true

/-- The labels that have not ended a lap. -/
theorem laps_open (ends : Label → Bool) (labels : List Label) :
    ∃ before, labels = before ++ (laps ends labels).2 ∧ LapStart ends before ∧
      ∀ label ∈ (laps ends labels).2, ends label = false := by
  induction labels using List.reverseRecOn with
  | nil => exact ⟨[], rfl, .inl rfl, nofun⟩
  | append_singleton labels label ih =>
      obtain ⟨before, hsplit, hstart, hgoes⟩ := ih
      cases hends : ends label with
      | true =>
          rw [laps_snoc_ends hends]
          exact ⟨labels ++ [label], (List.append_nil _).symm, .inr ⟨labels, label, rfl, hends⟩,
            nofun⟩
      | false =>
          rw [laps_snoc_goes hends]
          refine ⟨before, ?_, hstart, ?_⟩
          · rw [← List.append_assoc, ← hsplit]
          · intro l hl
            rcases List.mem_append.mp hl with hold | hnew
            · exact hgoes l hold
            · rw [List.mem_singleton.mp hnew]
              exact hends

/-- Where a lap is in the run. -/
theorem mem_laps (hlap : lap ∈ (laps ends labels).1) :
    ∃ before front last after, labels = before ++ (front ++ [last]) ++ after ∧
      lap = front ++ [last] ∧ LapStart ends before ∧ (∀ label ∈ front, ends label = false) ∧
        ends last = true := by
  induction labels using List.reverseRecOn with
  | nil => cases hlap
  | append_singleton labels label ih =>
      have hlater (h : lap ∈ (laps ends labels).1) :
          ∃ before front last after, labels ++ [label] = before ++ (front ++ [last]) ++ after ∧
            lap = front ++ [last] ∧ LapStart ends before ∧
              (∀ label ∈ front, ends label = false) ∧ ends last = true := by
        obtain ⟨before, front, last, after, hsplit, hrest⟩ := ih h
        refine ⟨before, front, last, after ++ [label], ?_, hrest⟩
        rw [hsplit, List.append_assoc]
      cases hends : ends label with
      | false =>
          rw [laps_snoc_goes hends] at hlap
          exact hlater hlap
      | true =>
          rw [laps_snoc_ends hends] at hlap
          rcases List.mem_append.mp hlap with hold | hnew
          · exact hlater hold
          · obtain ⟨before, hsplit, hstart, hgoes⟩ := laps_open ends labels
            refine ⟨before, (laps ends labels).2, label, [], ?_, List.mem_singleton.mp hnew, hstart,
              hgoes, hends⟩
            rw [List.append_nil, ← List.append_assoc, ← hsplit]

end Cut

end RoundRobin
end Library
end FlashReduce
