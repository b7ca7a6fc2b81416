import Mathlib.Algebra.GroupWithZero.Nat
import Mathlib.Data.List.Basic
import Mathlib.Data.List.Count
import Mathlib.Tactic.Common

/-!
# Updating one element of a list

A list of processes in which one process takes a step is a list with one element
replaced.  The lemmas say what such a replacement does to membership and to the
number of elements with a property.
-/

namespace FlashReduce
namespace Library

variable {α : Type*}

/-- An element of an updated list is the new value or an old element. -/
theorem mem_set_cases {l : List α} {i : Nat} {x b : α} (h : x ∈ l.set i b) :
    x = b ∨ x ∈ l :=
  (List.mem_or_eq_of_mem_set h).symm

/-- A property of all elements survives an update with a value that has it. -/
theorem forall_mem_set {l : List α} {i : Nat} {b : α} {property : α → Prop}
    (hl : ∀ x ∈ l, property x) (hb : property b) : ∀ x ∈ l.set i b, property x := by
  intro x hx
  rcases mem_set_cases hx with rfl | hold
  · exact hb
  · exact hl x hold

/-- A property of all elements survives appending a value that has it. -/
theorem forall_mem_snoc {l : List α} {b : α} {property : α → Prop}
    (hl : ∀ x ∈ l, property x) (hb : property b) : ∀ x ∈ l ++ [b], property x := by
  intro x hx
  rcases List.mem_append.mp hx with hold | hnew
  · exact hl x hold
  · rw [List.mem_singleton.mp hnew]
    exact hb

/-- A sum in which the value of a single element gets smaller by one. -/
theorem sum_map_pred {l : List α} {x : α} {f g : α → Nat} (hnodup : l.Nodup) (hx : x ∈ l)
    (hsame : ∀ y ∈ l, y ≠ x → g y = f y) (hpred : g x + 1 = f x) :
    (l.map g).sum + 1 = (l.map f).sum := by
  obtain ⟨front, back, rfl⟩ := List.append_of_mem hx
  obtain ⟨-, hback, hfront⟩ := List.nodup_append.mp hnodup
  have hfrontSame : front.map g = front.map f := by
    refine List.map_congr_left (fun y hy => hsame y (by simp [hy]) ?_)
    exact hfront y hy x List.mem_cons_self
  have hbackSame : back.map g = back.map f := by
    refine List.map_congr_left (fun y hy => hsame y (by simp [hy]) ?_)
    rintro rfl
    exact (List.nodup_cons.mp hback).1 hy
  simp only [List.map_append, List.map_cons, List.sum_append_nat, List.sum_cons, hfrontSame,
    hbackSame]
  omega

/-- The value of the updated element changes hands in a sum. -/
theorem sum_map_set {l : List α} {i : Nat} {a : α} (h : l[i]? = some a) (b : α) (f : α → Nat) :
    ((l.set i b).map f).sum + f a = (l.map f).sum + f b := by
  obtain ⟨hi, rfl⟩ := List.getElem?_eq_some_iff.mp h
  induction l generalizing i with
  | nil => cases hi
  | cons head rest ih =>
      cases i with
      | zero =>
          simp only [List.set_cons_zero, List.map_cons, List.sum_cons, List.getElem_cons_zero]
          omega
      | succ i =>
          have hrest := ih (Nat.lt_of_succ_lt_succ hi) (by simp)
          simp only [List.set_cons_succ, List.map_cons, List.sum_cons, List.getElem_cons_succ]
          omega

/-- A sum in which the value of the updated element gets smaller by `k` at least. -/
theorem sum_map_set_le {l : List α} {i k : Nat} {a b : α} {f : α → Nat} (h : l[i]? = some a)
    (hle : f b + k ≤ f a) : ((l.set i b).map f).sum + k ≤ (l.map f).sum := by
  have hsum := sum_map_set h b f
  omega

theorem sum_map_set_lt {l : List α} {i : Nat} {a b : α} {f : α → Nat} (h : l[i]? = some a)
    (hlt : f b < f a) : ((l.set i b).map f).sum < (l.map f).sum := by
  have hsum := sum_map_set h b f
  omega

/-- What is left of a filtered list when an update takes no new element into it. -/
theorem filter_set_sublist {β : Type*} {l : List α} {i : Nat} {a b : α} {p : α → Bool}
    {f : α → β} (h : l[i]? = some a) (hp : p b = true → p a = true) (hf : f b = f a) :
    List.Sublist (((l.set i b).filter p).map f) ((l.filter p).map f) := by
  obtain ⟨hi, rfl⟩ := List.getElem?_eq_some_iff.mp h
  induction l generalizing i with
  | nil => cases hi
  | cons head rest ih =>
      cases i with
      | zero =>
          rw [List.set_cons_zero, List.getElem_cons_zero] at *
          by_cases hb : p b = true
          · rw [List.filter_cons_of_pos hb, List.filter_cons_of_pos (hp hb), List.map_cons,
              List.map_cons, hf]
          · rw [List.filter_cons_of_neg hb]
            exact (List.Sublist.filter p (List.sublist_cons_self head rest)).map f
      | succ i =>
          have hrest := ih (Nat.lt_of_succ_lt_succ hi) (by simp) hp hf
          rw [List.set_cons_succ]
          by_cases hhead : p head = true
          · rw [List.filter_cons_of_pos hhead, List.filter_cons_of_pos hhead, List.map_cons,
              List.map_cons]
            exact hrest.cons_cons _
          · rw [List.filter_cons_of_neg hhead, List.filter_cons_of_neg hhead]
            exact hrest

/-- An update that does not change a property does not change its count. -/
theorem countP_set_same {l : List α} {i : Nat} {a b : α} {p : α → Bool}
    (h : l[i]? = some a) (hp : p b = p a) : (l.set i b).countP p = l.countP p := by
  obtain ⟨hi, rfl⟩ := List.getElem?_eq_some_iff.mp h
  rw [List.countP_set hi, hp]
  cases hval : p l[i] with
  | false => simp
  | true =>
      have hpos : 0 < l.countP p := List.countP_pos_iff.mpr ⟨l[i], List.getElem_mem hi, hval⟩
      simp only [if_true]
      omega

/-- An update that makes a property true raises its count by one. -/
theorem countP_set_gain {l : List α} {i : Nat} {a b : α} {p : α → Bool}
    (h : l[i]? = some a) (ha : p a = false) (hb : p b = true) :
    (l.set i b).countP p = l.countP p + 1 := by
  obtain ⟨hi, rfl⟩ := List.getElem?_eq_some_iff.mp h
  simp [List.countP_set hi, ha, hb]

/-- A weaker property with one more element has a larger count. -/
theorem countP_lt_of_mem {l : List α} {p q : α → Bool} (himp : ∀ x, p x = true → q x = true)
    {a : α} (hmem : a ∈ l) (hp : p a = false) (hq : q a = true) :
    l.countP p < l.countP q := by
  obtain ⟨front, back, rfl⟩ := List.append_of_mem hmem
  have hfront : front.countP p ≤ front.countP q :=
    List.countP_mono_left fun x _ => himp x
  have hback : back.countP p ≤ back.countP q :=
    List.countP_mono_left fun x _ => himp x
  simp only [List.countP_append, List.countP_cons, hp, hq]
  simp only [Bool.false_eq_true, if_false, if_true]
  omega

/-- A list whose update loses nothing under a map is unchanged under the map. -/
theorem map_set_same {β : Type*} {l : List α} {i : Nat} {a b : α} {f : α → β}
    (h : l[i]? = some a) (hf : f b = f a) : (l.set i b).map f = l.map f := by
  obtain ⟨hi, rfl⟩ := List.getElem?_eq_some_iff.mp h
  apply List.ext_getElem (by simp)
  intro j hj _
  by_cases hij : i = j
  · subst hij
    simp [hf]
  · simp [hij]

end Library
end FlashReduce
