import FlashReduce.Library.Transition

/-!
# Forward simulation

An abstract system is a labelled step relation, and its behaviour is the traces
of its labels.  A concrete machine is simulated by it when every allowed step is
either silent or matched by an abstract step with the label that `event` assigns
to it.  `Simulation.trace` turns a run of the machine into a trace of the
abstract system.

Where the abstract system is a machine too and its state is a function of the
concrete state, `Reachable.refines` takes reachable states to reachable states.
-/

namespace FlashReduce
namespace Library

variable {State Action Abstract Event : Type*}

variable (machine : Machine State Action) (guard : State → Action → Prop)
  (event : State → Action → Option Event) (initial : Abstract → Prop)
  (step : Abstract → Event → Abstract → Prop) (rel : State → Abstract → Prop)

/-- Every allowed step of the machine is silent or matched by an abstract step. -/
structure Simulation : Prop where
  init : ∀ s, machine.init s → ∃ a, initial a ∧ rel s a
  silent : ∀ s action t a, rel s a → guard s action → machine.step s action = some t →
    event s action = none → rel t a
  matched : ∀ s action t a e, rel s a → guard s action → machine.step s action = some t →
    event s action = some e → ∃ b, step a e b ∧ rel t b

/-- The events of a history. -/
def eventsOf (history : List (State × Action)) : List Event :=
  history.filterMap fun move => event move.1 move.2

variable {machine guard event initial step rel}

/-- Every run of the machine is matched by a trace of the abstract system. -/
theorem Simulation.trace (h : Simulation machine guard event initial step rel)
    {history : List (State × Action)} {t : State} (hrun : machine.Run guard history t) :
    ∃ a b, initial a ∧ Trace step a (eventsOf event history) b ∧ rel t b := by
  refine hrun.induction
    (fun history t => ∃ a b, initial a ∧ Trace step a (eventsOf event history) b ∧ rel t b) ?_ ?_
  · intro s hinit
    obtain ⟨a, ha, hrel⟩ := h.init s hinit
    exact ⟨a, a, ha, .refl a, hrel⟩
  · rintro history s action t - ⟨a, b, ha, htrace, hrel⟩ hguard hstep
    cases hevent : event s action with
    | none =>
        have hsame : eventsOf event (history ++ [(s, action)]) = eventsOf event history := by
          simp [eventsOf, hevent]
        rw [hsame]
        exact ⟨a, b, ha, htrace, h.silent s action t b hrel hguard hstep hevent⟩
    | some e =>
        obtain ⟨c, hnext, hrel'⟩ := h.matched s action t b e hrel hguard hstep hevent
        have hsnoc : eventsOf event (history ++ [(s, action)]) =
            eventsOf event history ++ [e] := by
          simp [eventsOf, hevent]
        rw [hsnoc]
        exact ⟨a, c, ha, htrace.tail hnext, hrel'⟩

/-! ### Refinement mappings -/

variable {T B : Type*} {coarse : Machine T B} {coarseGuard : T → B → Prop}

variable (coarse coarseGuard) in
/-- The coarse machine takes the step that is seen of a fine one, or stays where it is. -/
def Machine.Follows (s : T) (seen : Option B) (t : T) : Prop :=
  match seen with
  | none => t = s
  | some action => coarseGuard s action ∧ coarse.step s action = some t

/-- **Refinement rule.**  When each allowed step, seen through the mapping, is a step of the
coarse machine or none, reachable states are mapped to reachable states.  The step may use
what is already known of both. -/
theorem Machine.Reachable.refines (map : State → T) (seen : Action → Option B)
    (hinit : ∀ s, machine.init s → coarse.init (map s))
    (hstep : ∀ s action t, machine.Reachable guard s → coarse.Reachable coarseGuard (map s) →
      guard s action → machine.step s action = some t →
      coarse.Follows coarseGuard (map s) (seen action) (map t))
    {t : State} (hreach : machine.Reachable guard t) : coarse.Reachable coarseGuard (map t) := by
  refine hreach.induction (fun s => coarse.Reachable coarseGuard (map s)) ?_ ?_
  · intro s hstart
    exact .initial (hinit s hstart)
  · intro s action t hbefore hmapped hallowed hnext
    have hfollows := hstep s action t hbefore hmapped hallowed hnext
    cases hseen : seen action with
    | none =>
        rw [hseen] at hfollows
        have hsame : map t = map s := hfollows
        rw [hsame]
        exact hmapped
    | some taken =>
        rw [hseen] at hfollows
        exact hmapped.step hfollows.1 hfollows.2

end Library
end FlashReduce
