import Mathlib.Data.List.Nodup
import Mathlib.Data.List.Lookmap
import Mathlib.Tactic.Common

/-!
# Insertion-ordered dictionaries

The dictionary of a scripting language that keeps its keys in the order of
their first insertion: storing under a present key replaces the value in place,
storing under a new key appends, deletion keeps the order of the rest.  The
keys of a dictionary are distinct by construction.
-/

namespace FlashReduce
namespace Library

variable {κ ν : Type*} [DecidableEq κ]

/-- A list of entries with distinct keys, in insertion order. -/
structure OrderedDict (κ ν : Type*) where
  entries : List (κ × ν)
  nodup_keys : (entries.map Prod.fst).Nodup
  deriving DecidableEq

namespace OrderedDict

/-- Store a value under a key in a list of entries. -/
def setEntries (k : κ) (v : ν) : List (κ × ν) → List (κ × ν)
  | [] => [(k, v)]
  | e :: rest => if e.1 = k then (k, v) :: rest else e :: setEntries k v rest

theorem mem_keys_setEntries {k k' : κ} {v : ν} {l : List (κ × ν)} :
    k' ∈ (setEntries k v l).map Prod.fst ↔ k' = k ∨ k' ∈ l.map Prod.fst := by
  induction l with
  | nil => simp [setEntries]
  | cons e rest ih =>
      by_cases he : e.1 = k
      · simp [setEntries, he]
      · simp only [setEntries, he, if_false, List.map_cons, List.mem_cons, ih]
        tauto

theorem nodup_keys_setEntries {k : κ} {v : ν} {l : List (κ × ν)}
    (h : (l.map Prod.fst).Nodup) : ((setEntries k v l).map Prod.fst).Nodup := by
  induction l with
  | nil => simp [setEntries]
  | cons e rest ih =>
      rw [List.map_cons, List.nodup_cons] at h
      by_cases he : e.1 = k
      · rw [setEntries, if_pos he, List.map_cons, List.nodup_cons]
        exact ⟨he ▸ h.1, h.2⟩
      · rw [setEntries, if_neg he, List.map_cons, List.nodup_cons,
          mem_keys_setEntries, not_or]
        exact ⟨⟨he, h.1⟩, ih h.2⟩

/-- The dictionary without entries. -/
def empty : OrderedDict κ ν := ⟨[], List.nodup_nil⟩

/-- The dictionary with one entry. -/
def singleton (k : κ) (v : ν) : OrderedDict κ ν := ⟨[(k, v)], List.nodup_singleton _⟩

/-- The value stored under a key. -/
def get? (d : OrderedDict κ ν) (k : κ) : Option ν := d.entries.lookup k

/-- The keys in insertion order. -/
def keys (d : OrderedDict κ ν) : List κ := d.entries.map Prod.fst

/-- Store a value: in place for a present key, at the end for a new one. -/
def set (d : OrderedDict κ ν) (k : κ) (v : ν) : OrderedDict κ ν :=
  ⟨setEntries k v d.entries, nodup_keys_setEntries d.nodup_keys⟩

/-- Remove the entry of a key. -/
def erase (d : OrderedDict κ ν) (k : κ) : OrderedDict κ ν :=
  ⟨d.entries.filter fun e => e.1 ≠ k, d.nodup_keys.sublist (List.filter_sublist.map _)⟩

@[simp] theorem get?_empty (k : κ) : (empty : OrderedDict κ ν).get? k = none := rfl

@[simp] theorem get?_singleton (k k' : κ) (v : ν) :
    (singleton k v).get? k' = if k' = k then some v else none := by
  by_cases h : k' = k <;> simp [get?, singleton, List.lookup_cons, h, beq_eq_false_iff_ne.mpr]

@[simp] theorem get?_set (d : OrderedDict κ ν) (k k' : κ) (v : ν) :
    (d.set k v).get? k' = if k' = k then some v else d.get? k' := by
  obtain ⟨l, hl⟩ := d
  simp only [get?, set]
  induction l with
  | nil =>
      by_cases h : k' = k
      · simp [setEntries, h]
      · simp [setEntries, List.lookup_cons, beq_eq_false_iff_ne.mpr h, h]
  | cons e rest ih =>
      rw [List.map_cons, List.nodup_cons] at hl
      obtain ⟨k₀, v₀⟩ := e
      by_cases he : k₀ = k
      · subst he
        by_cases h : k' = k₀
        · simp [setEntries, h]
        · simp [setEntries, List.lookup_cons, beq_eq_false_iff_ne.mpr h, h]
      · by_cases h : k' = k₀
        · subst h
          simp [setEntries, he]
        · simp only [setEntries, he, if_false, List.lookup_cons, beq_eq_false_iff_ne.mpr h]
          exact ih hl.2

@[simp] theorem get?_erase (d : OrderedDict κ ν) (k k' : κ) :
    (d.erase k).get? k' = if k' = k then none else d.get? k' := by
  obtain ⟨l, hl⟩ := d
  simp only [get?, erase]
  clear hl
  induction l with
  | nil => simp
  | cons e rest ih =>
      obtain ⟨k₀, v₀⟩ := e
      by_cases he : k₀ = k
      · subst he
        by_cases h : k' = k₀
        · simp [h] at ih ⊢
          exact ih
        · simpa [List.lookup_cons, beq_eq_false_iff_ne.mpr h, h] using ih
      · by_cases h : k' = k₀
        · subst h
          simp [he]
        · simpa [he, List.lookup_cons, beq_eq_false_iff_ne.mpr h] using ih

theorem mem_keys_iff (d : OrderedDict κ ν) (k : κ) :
    k ∈ d.keys ↔ (d.get? k).isSome := by
  simp [get?, keys]

theorem mem_keys_of_get? {d : OrderedDict κ ν} {k : κ} {v : ν} (h : d.get? k = some v) :
    k ∈ d.keys := by
  rw [mem_keys_iff, h]
  rfl

theorem notMem_keys_iff (d : OrderedDict κ ν) (k : κ) : k ∉ d.keys ↔ d.get? k = none := by
  rw [mem_keys_iff, Bool.not_eq_true, Option.isSome_eq_false_iff, Option.isNone_iff_eq_none]

omit [DecidableEq κ] in
/-- A dictionary whose only key is `k`. -/
theorem keys_eq_singleton_iff (d : OrderedDict κ ν) (k : κ) :
    d.keys = [k] ↔ ∀ k', k' ∈ d.keys ↔ k' = k := by
  constructor
  · intro h k'
    rw [h, List.mem_singleton]
  · intro h
    apply List.perm_singleton.mp
    apply (List.perm_ext_iff_of_nodup d.nodup_keys (List.nodup_singleton k)).mpr
    intro k'
    rw [List.mem_singleton]
    exact h k'

/-- A dictionary with an entry has a first key, and that key has a value. -/
theorem exists_first_key {d : OrderedDict κ ν} {k : κ} {v : ν} (h : d.get? k = some v) :
    ∃ k₀ v₀, d.keys.head? = some k₀ ∧ d.get? k₀ = some v₀ := by
  have hmem : k ∈ d.keys := (d.mem_keys_iff k).mpr (by simp [h])
  cases hkeys : d.keys with
  | nil => simp [hkeys] at hmem
  | cons k₀ rest =>
      have hfirst : (d.get? k₀).isSome := (d.mem_keys_iff k₀).mp (by simp [hkeys])
      obtain ⟨v₀, hv₀⟩ := Option.isSome_iff_exists.mp hfirst
      exact ⟨k₀, v₀, rfl, hv₀⟩

end OrderedDict
end Library
end FlashReduce
