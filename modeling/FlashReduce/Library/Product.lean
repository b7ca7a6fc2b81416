import FlashReduce.Library.Transition

/-!
# Two machines side by side

The product of two machines steps either component; the guard of a run may speak
of both of them.  The first component of a reachable state is a reachable state of its own
machine, under any guard that the guard of the product entails (`Reachable.left`), so that
what is known of the runs of that machine holds in the product.
-/

namespace FlashReduce
namespace Library
namespace Machine

variable {S T A B : Type*}

/-- Two machines side by side: a step belongs to one of them. -/
def product (first : Machine S A) (second : Machine T B) : Machine (S × T) (A ⊕ B) where
  init s := first.init s.1 ∧ second.init s.2
  step s
    | .inl action => (first.step s.1 action).map fun t => (t, s.2)
    | .inr action => (second.step s.2 action).map fun t => (s.1, t)

variable {first : Machine S A} {second : Machine T B} {s t : S × T}

theorem product_inl {action : A} : (first.product second).step s (.inl action) = some t ↔
    first.step s.1 action = some t.1 ∧ t.2 = s.2 := by
  obtain ⟨s₁, s₂⟩ := s
  obtain ⟨t₁, t₂⟩ := t
  simp only [product, Option.map_eq_some_iff, Prod.mk.injEq]
  constructor
  · rintro ⟨t, hstep, rfl, rfl⟩
    exact ⟨hstep, rfl⟩
  · rintro ⟨hstep, rfl⟩
    exact ⟨t₁, hstep, rfl, rfl⟩

theorem product_inr {action : B} : (first.product second).step s (.inr action) = some t ↔
    second.step s.2 action = some t.2 ∧ t.1 = s.1 := by
  obtain ⟨s₁, s₂⟩ := s
  obtain ⟨t₁, t₂⟩ := t
  simp only [product, Option.map_eq_some_iff, Prod.mk.injEq]
  constructor
  · rintro ⟨t, hstep, rfl, rfl⟩
    exact ⟨hstep, rfl⟩
  · rintro ⟨hstep, rfl⟩
    exact ⟨t₂, hstep, rfl, rfl⟩

variable {guard : S × T → A ⊕ B → Prop}

theorem Reachable.left {firstGuard : S → A → Prop}
    (hguard : ∀ s action, guard s (.inl action) → firstGuard s.1 action)
    (hreach : (first.product second).Reachable guard s) : first.Reachable firstGuard s.1 := by
  refine hreach.invariant (fun s => first.Reachable firstGuard s.1) ?_ ?_
  · intro s hinit
    exact .initial hinit.1
  · rintro s (action | action) t hbefore hallowed hnext
    · exact hbefore.step (hguard s action hallowed) (product_inl.mp hnext).1
    · rw [(product_inr.mp hnext).2]
      exact hbefore

end Machine
end Library
end FlashReduce
