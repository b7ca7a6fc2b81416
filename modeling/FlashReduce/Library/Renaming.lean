import FlashReduce.Library.Fallible
import FlashReduce.Library.OrderedDict

/-!
# Code that does not look at names

Code that only stores, copies and follows the names of objects does the same under other
names.  `Mirrors φ f m m'` says so of two pieces of code: on the image of a state under `φ`
the code `m'` does what `m` does on the state, and returns the image under `f` of what `m`
returns.

There is one rule for each way to build code (`mirrors_pure`, `mirrors_demand`,
`mirrors_modify`, `mirrors_read`, `Mirrors.bind`, `Mirrors.ite`).
`OrderedDict.mapValues` renames the values of a dictionary.
-/

namespace FlashReduce
namespace Library

/-! ### Dictionaries -/

namespace OrderedDict

variable {κ ν ω : Type*}

theorem nodup_keys_map (f : ν → ω) {l : List (κ × ν)} (h : (l.map Prod.fst).Nodup) :
    ((l.map fun e => (e.1, f e.2)).map Prod.fst).Nodup := by
  rw [List.map_map]
  exact h

/-- The image of the values. -/
def mapValues (f : ν → ω) (d : OrderedDict κ ν) : OrderedDict κ ω :=
  ⟨d.entries.map fun e => (e.1, f e.2), nodup_keys_map f d.nodup_keys⟩

variable [DecidableEq κ] (f : ν → ω) (d : OrderedDict κ ν) (k : κ) (v : ν)

@[simp] theorem get?_mapValues : (d.mapValues f).get? k = (d.get? k).map f := by
  simp only [get?, mapValues]
  induction d.entries with
  | nil => rfl
  | cons e rest ih =>
      rw [List.map_cons, List.lookup_cons, List.lookup_cons]
      split
      · rfl
      · exact ih

@[simp] theorem mapValues_set : (d.set k v).mapValues f = (d.mapValues f).set k (f v) := by
  simp only [set, mapValues, mk.injEq]
  induction d.entries with
  | nil => rfl
  | cons e rest ih =>
      by_cases he : e.1 = k
      · simp [setEntries, he]
      · simp [setEntries, he, ih]

@[simp] theorem mapValues_erase : (d.erase k).mapValues f = (d.mapValues f).erase k := by
  simp [erase, mapValues, List.filter_map, Function.comp_def]

omit [DecidableEq κ] in
@[simp] theorem mapValues_singleton : (singleton k v).mapValues f = singleton k (f v) := rfl

end OrderedDict

/-! ### Code -/

namespace Fallible

variable {σ τ ε α β γ δ : Type}

/-- On the image of a state `m'` does what `m` does on the state. -/
def Mirrors (φ : σ → τ) (f : α → β) (m : Fallible σ ε α) (m' : Fallible τ ε β) : Prop :=
  ∀ s, m' (φ s) = ((m s).1.map f, φ (m s).2)

variable {φ : σ → τ} {f : α → β} {g : γ → δ} {m : Fallible σ ε α} {m' : Fallible τ ε β}

theorem mirrors_pure (a : α) : Mirrors φ f (pure a : Fallible σ ε α) (pure (f a)) := fun _ => rfl

theorem mirrors_demand {value : Option α} {value' : Option β} (e : ε)
    (h : value' = value.map f) : Mirrors φ f (demand value e) (demand value' e) := by
  intro s
  rw [h]
  cases value <;> rfl

theorem mirrors_modify {change : σ → σ} {change' : τ → τ}
    (h : ∀ s, change' (φ s) = φ (change s)) :
    Mirrors φ id (modify change : Fallible σ ε Unit) (modify change') := by
  intro s
  rw [modify_apply, modify_apply, h]
  rfl

theorem Mirrors.bind (hm : Mirrors φ f m m') {rest : α → Fallible σ ε γ}
    {rest' : β → Fallible τ ε δ} (hrest : ∀ a, Mirrors φ g (rest a) (rest' (f a))) :
    Mirrors φ g (m >>= rest) (m' >>= rest') := by
  intro s
  rw [bind_apply, bind_apply, hm s]
  generalize m s = after
  obtain ⟨result, t⟩ := after
  cases result with
  | ok a => exact hrest a t
  | error e => rfl

/-- Code that changes the state first. -/
theorem mirrors_then {change : σ → σ} {change' : τ → τ} {rest : Unit → Fallible σ ε γ}
    {rest' : Unit → Fallible τ ε δ} (hrest : Mirrors φ g (rest ()) (rest' ()))
    (h : ∀ s, change' (φ s) = φ (change s)) :
    Mirrors φ g (modify change >>= rest) (modify change' >>= rest') :=
  (mirrors_modify h).bind fun _ => hrest

/-- Code that continues with a part of the state. -/
theorem mirrors_read {rest : σ → Fallible σ ε γ} {rest' : τ → Fallible τ ε δ}
    (h : ∀ s, Mirrors φ g (rest s) (rest' (φ s))) :
    Mirrors φ g (read >>= rest) (read >>= rest') := fun s => h s s

theorem Mirrors.ite {p p' : Prop} [Decidable p] [Decidable p'] {n : Fallible σ ε α}
    {n' : Fallible τ ε β} (hp : p' ↔ p) (hpos : Mirrors φ f m m') (hneg : Mirrors φ f n n') :
    Mirrors φ f (if p then m else n) (if p' then m' else n') := by
  by_cases h : p
  · rw [if_pos h, if_pos (hp.mpr h)]
    exact hpos
  · rw [if_neg h, if_neg (mt hp.mp h)]
    exact hneg

end Fallible
end Library
end FlashReduce
