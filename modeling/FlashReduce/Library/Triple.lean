import FlashReduce.Library.Fallible

/-!
# Pre- and postconditions of code with exceptions

`Triple pre m post err`: code that is started where `pre` holds returns a value with
`post`, or raises an exception with `err`.  There is one rule for each way to build code
(`Triple.pure`, `Triple.raise`, `Triple.call`, `Triple.modify`, `Triple.demand`,
`Triple.bind`, `Triple.read`, `Triple.ite`), and `Triple.weaken`, `Triple.of_fact`,
`Triple.of_exists` and `Triple.or` fit the conditions together.
-/

namespace FlashReduce
namespace Library
namespace Fallible

variable {σ ε α β : Type}

/-- A call of something outside that reads and changes the state. -/
def call (f : σ → α × σ) : Fallible σ ε α := fun s => (.ok (f s).1, (f s).2)

/-- Started where `pre` holds, the code returns with `post` or raises with `err`. -/
def Triple (pre : σ → Prop) (m : Fallible σ ε α) (post : α → σ → Prop) (err : ε → σ → Prop) :
    Prop :=
  ∀ s, pre s → (∀ a, (m s).1 = .ok a → post a (m s).2) ∧
    ∀ e, (m s).1 = .error e → err e (m s).2

/-- The code keeps the property, whether it returns or raises. -/
abbrev Keeps (property : σ → Prop) (m : Fallible σ ε α) : Prop :=
  Triple property m (fun _ => property) (fun _ => property)

variable {pre pre' : σ → Prop} {m : Fallible σ ε α} {f : α → Fallible σ ε β}
  {post post' : α → σ → Prop} {last : β → σ → Prop} {err err' : ε → σ → Prop}

theorem Triple.weaken (h : Triple pre m post err) (hpre : ∀ s, pre' s → pre s)
    (hpost : ∀ a s, post a s → post' a s) (herr : ∀ e s, err e s → err' e s) :
    Triple pre' m post' err' := by
  intro s hs
  obtain ⟨hok, herror⟩ := h s (hpre s hs)
  exact ⟨fun a ha => hpost a _ (hok a ha), fun e he => herr e _ (herror e he)⟩

/-- What is known at the start. -/
theorem Triple.start (hpre : ∀ s, pre' s → pre s) (h : Triple pre m post err) :
    Triple pre' m post err := fun s hs => h s (hpre s hs)

/-- Code of which nothing needs to be known. -/
theorem Triple.any (pre : σ → Prop) (m : Fallible σ ε α) :
    Triple pre m (fun _ _ => True) fun _ _ => True :=
  fun _ _ => ⟨fun _ _ => True.intro, fun _ _ => True.intro⟩

theorem Triple.pure (a : α) (h : ∀ s, pre s → post a s) :
    Triple pre (Pure.pure a : Fallible σ ε α) post err := by
  intro s hs
  refine ⟨fun b hb => ?_, fun e he => by cases he⟩
  obtain rfl : a = b := Except.ok.inj hb
  exact h s hs

theorem Triple.raise (e : ε) (h : ∀ s, pre s → err e s) :
    Triple pre (Fallible.raise e : Fallible σ ε α) post err := by
  intro s hs
  refine ⟨fun a ha => (by cases ha), fun e' he => ?_⟩
  obtain rfl : e = e' := Except.error.inj he
  exact h s hs

theorem Triple.call (g : σ → α × σ) (h : ∀ s, pre s → post (g s).1 (g s).2) :
    Triple pre (Fallible.call g : Fallible σ ε α) post err := by
  intro s hs
  refine ⟨fun a ha => ?_, fun e he => by cases he⟩
  obtain rfl : (g s).1 = a := Except.ok.inj ha
  exact h s hs

/-- What the first part establishes is what the second part starts with. -/
theorem Triple.bind (hm : Triple pre m post err) (hf : ∀ a, Triple (post a) (f a) last err) :
    Triple pre (m >>= f) last err := by
  intro s hs
  obtain ⟨hok, herror⟩ := hm s hs
  rw [bind_apply]
  generalize m s = after at hok herror ⊢
  obtain ⟨result, t⟩ := after
  cases result with
  | ok a => exact hf a t (hok a rfl)
  | error e =>
      refine ⟨fun b hb => (by cases hb), fun e' he => ?_⟩
      rw [← Except.error.inj he]
      exact herror e rfl

theorem Triple.modify (g : σ → σ) {post : Unit → σ → Prop} (h : ∀ s, pre s → post () (g s)) :
    Triple pre (Fallible.modify g : Fallible σ ε Unit) post err := by
  intro s hs
  exact ⟨fun _ _ => h s hs, fun e he => by cases he⟩

theorem Triple.demand {value : Option α} (e : ε) (h : ∀ a, value = some a → ∀ s, pre s → post a s)
    (herr : ∀ s, pre s → err e s) :
    Triple pre (Fallible.demand value e : Fallible σ ε α) post err := by
  cases value with
  | none => exact Triple.raise e herr
  | some a => exact Triple.pure a (h a rfl)

/-- Code that continues with a part of the state. -/
theorem Triple.read {rest : σ → Fallible σ ε β}
    (h : ∀ s, pre s → Triple (fun t => t = s) (rest s) last err) :
    Triple pre (Fallible.read >>= rest) last err := fun s hs => h s hs s rfl

theorem Triple.ite {p : Prop} [Decidable p] {m' : Fallible σ ε α}
    (hpos : p → Triple pre m post err) (hneg : ¬ p → Triple pre m' post err) :
    Triple pre (if p then m else m') post err := by
  split
  · next h => exact hpos h
  · next h => exact hneg h

/-- A fact about the start that does not depend on the state. -/
theorem Triple.of_fact {p : Prop} (h : p → Triple pre m post err) :
    Triple (fun s => p ∧ pre s) m post err := fun s hs => h hs.1 s hs.2

/-- Something is known at the start that depends on a value that is not. -/
theorem Triple.of_exists {ι : Sort*} {pre : ι → σ → Prop} (h : ∀ i, Triple (pre i) m post err) :
    Triple (fun s => ∃ i, pre i s) m post err := fun s hs => hs.elim fun i hi => h i s hi

/-- Alternatives at the start. -/
theorem Triple.or (h : Triple pre m post err) (h' : Triple pre' m post err) :
    Triple (fun s => pre s ∨ pre' s) m post err := fun s hs => hs.elim (h s) (h' s)

/-- The result of code that starts in a state with the precondition. -/
theorem Triple.cases (h : Triple pre m post err) {s : σ} (hs : pre s) :
    (∃ a t, m s = (.ok a, t) ∧ post a t) ∨ ∃ e t, m s = (.error e, t) ∧ err e t := by
  obtain ⟨hok, herror⟩ := h s hs
  generalize m s = after at hok herror ⊢
  obtain ⟨result, t⟩ := after
  cases result with
  | ok a => exact .inl ⟨a, t, rfl, hok a rfl⟩
  | error e => exact .inr ⟨e, t, rfl, herror e rfl⟩

/-- Code that changes the state first. -/
theorem keeps_then {property : σ → Prop} {change : σ → σ} {rest : Unit → Fallible σ ε β}
    (hrest : Keeps property (rest ())) (h : ∀ s, property s → property (change s)) :
    Keeps property (Fallible.modify change >>= rest) :=
  (Triple.modify _ h).bind fun _ => hrest

theorem Keeps.state {property : σ → Prop} (h : Keeps property m) {s : σ} (hs : property s) :
    property (m s).2 := by
  rcases h.cases hs with ⟨_, t, heq, ht⟩ | ⟨_, t, heq, ht⟩ <;> rw [heq] <;> exact ht

theorem ReadOnly.keeps (h : ReadOnly m) (property : σ → Prop) : Keeps property m := by
  intro s hs
  rw [h s]
  exact ⟨fun _ _ => hs, fun _ _ => hs⟩

end Fallible
end Library
end FlashReduce
