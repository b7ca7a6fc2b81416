import Mathlib.Logic.Function.Basic
import Mathlib.Data.List.Basic
import Mathlib.Tactic.Common

/-!
# Linked segments and rings

A pointer field of a store is a function `next` from cells to optional cells.

* `Segment next p xs q`: from the pointer `p`, following `next` visits the cells
  `xs` one after the other and arrives at the pointer `q`.
* `Ring next xs`: following `next` visits the cells `xs` and arrives at the first
  one again; `Ring.rotate` says that every cell is as good a start as the first.

The frame lemmas say that writing the field of a cell outside a segment does not
change it, and `Segment.redirect` that writing the field of the last cell changes
where it arrives.
-/

namespace FlashReduce
namespace Library

variable {α : Type*}

/-- From the pointer `p`, following `next` visits `xs` and arrives at `q`. -/
def Segment (next : α → Option α) : Option α → List α → Option α → Prop
  | p, [], q => p = q
  | p, x :: xs, q => p = some x ∧ Segment next (next x) xs q

instance instDecidableSegment [DecidableEq α] (next : α → Option α) :
    ∀ (p : Option α) (xs : List α) (q : Option α), Decidable (Segment next p xs q)
  | p, [], q => inferInstanceAs (Decidable (p = q))
  | p, x :: xs, q =>
      have := instDecidableSegment next (next x) xs q
      inferInstanceAs (Decidable (p = some x ∧ Segment next (next x) xs q))

variable {next next' : α → Option α} {p q : Option α} {x y z : α} {xs ys : List α}

@[simp] theorem segment_nil : Segment next p [] q ↔ p = q := Iff.rfl

@[simp] theorem segment_cons :
    Segment next p (x :: xs) q ↔ p = some x ∧ Segment next (next x) xs q := Iff.rfl

theorem segment_append :
    Segment next p (xs ++ ys) q ↔ ∃ m, Segment next p xs m ∧ Segment next m ys q := by
  induction xs generalizing p with
  | nil => simp
  | cons x xs ih => simp [ih, and_assoc]

/-- A segment with cells starts at its first cell. -/
theorem Segment.start (h : Segment next p xs q) (hne : xs ≠ []) : p = xs.head? := by
  cases xs with
  | nil => exact absurd rfl hne
  | cons x xs => exact h.1

/-- Two fields that agree on the cells of a segment have the same segment. -/
theorem Segment.congr (hagree : ∀ x ∈ xs, next' x = next x) (h : Segment next p xs q) :
    Segment next' p xs q := by
  induction xs generalizing p with
  | nil => exact h
  | cons x xs ih =>
      rw [segment_cons, hagree x List.mem_cons_self]
      exact ⟨h.1, ih (fun y hy => hagree y (List.mem_cons_of_mem x hy)) h.2⟩

/-- A segment that ends with a null pointer is determined by its start. -/
theorem Segment.unique (hx : Segment next p xs none) (hy : Segment next p ys none) : xs = ys := by
  induction xs generalizing p ys with
  | nil =>
      cases ys with
      | nil => rfl
      | cons y ys => cases hx.symm.trans hy.1
  | cons x xs ih =>
      cases ys with
      | nil => cases hx.1.symm.trans hy
      | cons y ys =>
          cases hx.1.symm.trans hy.1
          rw [ih hx.2 hy.2]

/-- Cells that are linked one after the other. -/
theorem segment_of_links (h : ∀ i x, xs[i]? = some x → next x = xs[i + 1]?) :
    Segment next xs.head? xs none := by
  induction xs with
  | nil => rfl
  | cons x xs ih =>
      refine ⟨rfl, ?_⟩
      have hfirst : next x = xs.head? := by
        rw [h 0 x rfl, List.head?_eq_getElem?]
        rfl
      rw [hfirst]
      exact ih (fun i y hy => h (i + 1) y hy)

/-- Following `next` from the pointer `p` on arrives at the cell `x`. -/
inductive Reaches (next : α → Option α) : Option α → α → Prop
  | here (x : α) : Reaches next (some x) x
  | next {x y : α} (h : Reaches next (next x) y) : Reaches next (some x) y

theorem Segment.reaches (h : Segment next p xs q) (hx : x ∈ xs) : Reaches next p x := by
  induction xs generalizing p with
  | nil => cases hx
  | cons y ys ih =>
      rw [h.1]
      rcases List.mem_cons.mp hx with rfl | hys
      · exact .here x
      · exact .next (ih h.2 hys)

/-- A segment that ends with a null pointer contains everything that its start reaches. -/
theorem Segment.mem_of_reaches (h : Segment next p xs none) (hx : Reaches next p x) : x ∈ xs := by
  induction hx generalizing xs with
  | here x =>
      cases xs with
      | nil => cases h
      | cons y ys =>
          cases h.1
          exact List.mem_cons_self
  | next _ ih =>
      cases xs with
      | nil => cases h
      | cons y ys =>
          cases h.1
          exact List.mem_cons_of_mem _ (ih h.2)

variable [DecidableEq α]

/-- Writing the field of a cell outside the segment. -/
theorem Segment.frame (hout : x ∉ xs) (h : Segment next p xs q) (v : Option α) :
    Segment (Function.update next x v) p xs q := by
  refine h.congr (fun y hy => ?_)
  have hne : y ≠ x := fun heq => hout (heq ▸ hy)
  exact Function.update_of_ne hne v next

/-- Writing the field of the last cell changes where the segment arrives. -/
theorem Segment.redirect (hout : x ∉ xs) (h : Segment next p (xs ++ [x]) q) (v : Option α) :
    Segment (Function.update next x v) p (xs ++ [x]) v := by
  obtain ⟨m, hfront, hlast⟩ := segment_append.mp h
  refine segment_append.mpr ⟨m, hfront.frame hout v, ?_⟩
  simpa using hlast.1

/-! ### Rings -/

/-- Following `next` from the first cell visits all cells and arrives at the
first one again. -/
def Ring (next : α → Option α) (xs : List α) : Prop := Segment next xs.head? xs xs.head?

instance (next : α → Option α) (xs : List α) : Decidable (Ring next xs) :=
  inferInstanceAs (Decidable (Segment next xs.head? xs xs.head?))

omit [DecidableEq α] in
theorem ring_cons : Ring next (x :: xs) ↔ Segment next (next x) xs (some x) := by
  simp [Ring]

omit [DecidableEq α] in
/-- Every cell of a ring is as good a start as the first. -/
theorem Ring.rotate (h : Ring next (xs ++ ys)) : Ring next (ys ++ xs) := by
  cases xs with
  | nil => simpa using h
  | cons x xs =>
      cases ys with
      | nil => simpa using h
      | cons y ys =>
          obtain ⟨m, hfirst, hsecond⟩ := segment_append.mp h
          have hm : m = some y := hsecond.1
          subst hm
          exact segment_append.mpr ⟨some x, hsecond, hfirst⟩

omit [DecidableEq α] in
/-- In a ring the successor of a cell is a cell. -/
theorem Ring.next_mem (h : Ring next xs) (hx : x ∈ xs) : ∃ y ∈ xs, next x = some y := by
  obtain ⟨front, back, rfl⟩ := List.append_of_mem hx
  have hfrom : Segment next (next x) (back ++ front) (some x) := ring_cons.mp h.rotate
  cases hcells : back ++ front with
  | nil =>
      rw [hcells] at hfrom
      exact ⟨x, by simp, hfrom⟩
  | cons y rest =>
      rw [hcells] at hfrom
      have hy : y ∈ back ++ front := by simp [hcells]
      refine ⟨y, ?_, hfrom.1⟩
      rcases List.mem_append.mp hy with hy | hy <;> simp [hy]

omit [DecidableEq α] in
/-- From a cell of a ring only cells of the ring are reached. -/
theorem Ring.mem_of_reaches (h : Ring next xs) (hp : ∀ y, p = some y → y ∈ xs)
    (hx : Reaches next p x) : x ∈ xs := by
  induction hx with
  | here x => exact hp x rfl
  | @next y z _ ih =>
      refine ih (fun w hw => ?_)
      obtain ⟨w', hmem, hnext⟩ := h.next_mem (hp y rfl)
      cases hnext.symm.trans hw
      exact hmem

/-- Writing the field of a cell outside the ring. -/
theorem Ring.frame (hout : x ∉ xs) (h : Ring next xs) (v : Option α) :
    Ring (Function.update next x v) xs :=
  Segment.frame hout h v

/-- A cell that points to itself is a ring. -/
theorem ring_singleton (next : α → Option α) (x : α) :
    Ring (Function.update next x (some x)) [x] := by
  simp [ring_cons]

/-- Linking a new cell in behind the first one. -/
theorem Ring.insert (h : Ring next (x :: xs)) (hnodup : (x :: xs).Nodup) (hout : y ∉ x :: xs) :
    Ring (Function.update (Function.update next y (next x)) x (some y)) (x :: y :: xs) := by
  have hxy : y ≠ x := fun heq => hout (by simp [heq])
  have hy : y ∉ xs := fun hmem => hout (List.mem_cons_of_mem x hmem)
  have hx : x ∉ xs := (List.nodup_cons.mp hnodup).1
  have hrest := ((ring_cons.mp h).frame hy (next x)).frame hx (some y)
  rw [ring_cons, segment_cons]
  simpa [hxy] using hrest

/-- Unlinking the first cell, whose predecessor is the last one. -/
theorem Ring.unlink (h : Ring next (x :: (xs ++ [y]))) (hnodup : (xs ++ [y]).Nodup) :
    Ring (Function.update next y (next x)) (xs ++ [y]) := by
  have hy : y ∉ xs := by
    intro hmem
    exact (List.nodup_append.mp hnodup).2.2 y hmem y (by simp) rfl
  have hrest := ring_cons.mp h
  have hstart : next x = (xs ++ [y]).head? := hrest.start (by simp)
  have hring := hrest.redirect hy (next x)
  rw [Ring, ← hstart]
  exact hring

/-- Replacing the first cell, whose predecessor is the last one. -/
theorem Ring.replace (h : Ring next (x :: (xs ++ [y]))) (hnodup : (xs ++ [y]).Nodup)
    (hout : z ∉ xs ++ [y]) :
    Ring (Function.update (Function.update next z (next x)) y (some z)) (z :: (xs ++ [y])) := by
  have hy : y ∉ xs := by
    intro hmem
    exact (List.nodup_append.mp hnodup).2.2 y hmem y (by simp) rfl
  have hzy : z ≠ y := fun heq => hout (by simp [heq])
  have hrest := ((ring_cons.mp h).frame hout (next x)).redirect hy (some z)
  rw [ring_cons]
  simpa [hzy] using hrest

end Library
end FlashReduce
