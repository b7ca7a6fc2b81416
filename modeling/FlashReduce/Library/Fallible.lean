import Mathlib.Tactic.Common

/-!
# Stateful code with exceptions

`Fallible σ ε α` is code over a state `σ` that either returns a value or raises
an exception.  The state survives an exception: what was written before the
`raise` stays written.  This is how statements of Python behave, and it is what
separates this monad from `StateT σ (Except ε)`.

`Erases m m'` says that `m` is `m'` with ghost state: without it, both return or raise
the same and leave the same state.
-/

namespace FlashReduce
namespace Library

/-- Code over the state `σ` that returns or raises, with the state it leaves. -/
def Fallible (σ ε α : Type) : Type := σ → Except ε α × σ

namespace Fallible

variable {σ ε α β : Type}

instance : Monad (Fallible σ ε) where
  pure a := fun s => (.ok a, s)
  bind m f := fun s =>
    match m s with
    | (.ok a, t) => f a t
    | (.error e, t) => (.error e, t)

/-- The current state. -/
def read : Fallible σ ε σ := fun s => (.ok s, s)

/-- Change the state. -/
def modify (f : σ → σ) : Fallible σ ε Unit := fun s => (.ok (), f s)

/-- Raise an exception. -/
def raise (e : ε) : Fallible σ ε α := fun s => (.error e, s)

/-- The value that is there, or an exception when there is none. -/
def demand (value : Option α) (e : ε) : Fallible σ ε α :=
  match value with
  | some a => pure a
  | none => raise e

@[simp] theorem pure_apply (a : α) (s : σ) : (pure a : Fallible σ ε α) s = (.ok a, s) := rfl

@[simp] theorem bind_apply (m : Fallible σ ε α) (f : α → Fallible σ ε β) (s : σ) :
    (m >>= f) s =
      match m s with
      | (.ok a, t) => f a t
      | (.error e, t) => (.error e, t) := rfl

@[simp] theorem read_apply (s : σ) : (read : Fallible σ ε σ) s = (.ok s, s) := rfl

@[simp] theorem modify_apply (f : σ → σ) (s : σ) :
    (modify f : Fallible σ ε Unit) s = (.ok (), f s) := rfl

@[simp] theorem raise_apply (e : ε) (s : σ) :
    (raise e : Fallible σ ε α) s = (.error e, s) := rfl

@[simp] theorem demand_none (e : ε) :
    (demand none e : Fallible σ ε α) = raise e := rfl

@[simp] theorem demand_some (a : α) (e : ε) :
    (demand (some a) e : Fallible σ ε α) = pure a := rfl

theorem pure_then (a : α) (f : α → Fallible σ ε β) : (pure a >>= f) = f a := rfl

theorem then_pure (m : Fallible σ ε α) : (m >>= fun a => pure a) = m := by
  funext s
  rw [bind_apply]
  obtain ⟨result, t⟩ := m s
  cases result <;> rfl

theorem bind_then {γ : Type} (m : Fallible σ ε α) (f : α → Fallible σ ε β)
    (g : β → Fallible σ ε γ) : m >>= f >>= g = m >>= fun a => f a >>= g := by
  funext s
  simp only [bind_apply]
  obtain ⟨result, t⟩ := m s
  cases result <;> rfl

theorem ite_then {p : Prop} [Decidable p] (m m' : Fallible σ ε α) (f : α → Fallible σ ε β) :
    (if p then m else m') >>= f = if p then m >>= f else m' >>= f := by
  split <;> rfl

/-- Code that leaves the state as it found it, whether it returns or raises. -/
def ReadOnly (m : Fallible σ ε α) : Prop := ∀ s, (m s).2 = s

theorem readOnly_pure (a : α) : ReadOnly (pure a : Fallible σ ε α) := fun _ => rfl

theorem readOnly_read : ReadOnly (read : Fallible σ ε σ) := fun _ => rfl

theorem readOnly_demand (value : Option α) (e : ε) :
    ReadOnly (demand value e : Fallible σ ε α) := by
  intro s
  cases value <;> rfl

theorem ReadOnly.bind {m : Fallible σ ε α} {f : α → Fallible σ ε β}
    (hm : ReadOnly m) (hf : ∀ a, ReadOnly (f a)) : ReadOnly (m >>= f) := by
  intro s
  have hstate := hm s
  rw [bind_apply]
  cases hres : m s with
  | mk result t =>
      rw [hres] at hstate
      subst hstate
      cases result with
      | ok a => exact hf a t
      | error e => rfl

/-! ### Ghost state -/

variable {τ : Type}

/-- Code that leaves the ghost state alone. -/
def onState (m : Fallible σ ε α) : Fallible (σ × τ) ε α :=
  fun s => ((m s.1).1, ((m s.1).2, s.2))

@[simp] theorem onState_apply (m : Fallible σ ε α) (s : σ) (t : τ) :
    (onState m : Fallible (σ × τ) ε α) (s, t) = ((m s).1, ((m s).2, t)) := rfl

/-- Without the ghost state, `m` does what `m'` does. -/
def Erases (m : Fallible (σ × τ) ε α) (m' : Fallible σ ε α) : Prop :=
  ∀ s t, (m (s, t)).1 = (m' s).1 ∧ (m (s, t)).2.1 = (m' s).2

theorem erases_onState (m : Fallible σ ε α) :
    Erases (onState m : Fallible (σ × τ) ε α) m := fun _ _ => ⟨rfl, rfl⟩

theorem erases_pure (a : α) : Erases (pure a : Fallible (σ × τ) ε α) (pure a) :=
  fun _ _ => ⟨rfl, rfl⟩

theorem erases_modify {f : σ × τ → σ × τ} {f' : σ → σ} (h : ∀ s t, (f (s, t)).1 = f' s) :
    Erases (modify f : Fallible (σ × τ) ε Unit) (modify f') := fun s t => ⟨rfl, h s t⟩

theorem erases_demand (value : Option α) (e : ε) :
    Erases (demand value e : Fallible (σ × τ) ε α) (demand value e) := by
  intro s t
  cases value <;> exact ⟨rfl, rfl⟩

/-- Code that reads the state, and the ghost state only to change it. -/
theorem erases_read {f : σ × τ → Fallible (σ × τ) ε α} {f' : σ → Fallible σ ε α}
    (h : ∀ s t, Erases (f (s, t)) (f' s)) : Erases (read >>= f) (read >>= f') :=
  fun s t => h s t s t

theorem Erases.bind {m : Fallible (σ × τ) ε α} {m' : Fallible σ ε α}
    {f : α → Fallible (σ × τ) ε β} {f' : α → Fallible σ ε β} (hm : Erases m m')
    (hf : ∀ a, Erases (f a) (f' a)) : Erases (m >>= f) (m' >>= f') := by
  intro s t
  obtain ⟨hresult, hstate⟩ := hm s t
  rw [bind_apply, bind_apply]
  generalize m (s, t) = after at hresult hstate ⊢
  generalize m' s = after' at hresult hstate ⊢
  obtain ⟨result, u, v⟩ := after
  obtain ⟨result', u'⟩ := after'
  obtain rfl : result = result' := hresult
  obtain rfl : u = u' := hstate
  cases result with
  | ok a => exact hf a u v
  | error e => exact ⟨rfl, rfl⟩

end Fallible
end Library
end FlashReduce
