import Mathlib.Data.List.Basic
import Mathlib.Tactic.Common

/-!
# Runs of a partial step function

A `Trace` of a labelled step relation is a finite sequence of steps with the list
of its labels.

A system is given by its initial states and a partial step function: an action
is enabled in a state exactly when the step function returns a successor there.
The actions carry all nondeterminism, so a list of actions can be executed.

* `Machine.Path` is a finite sequence of steps, recorded as the list of its
  moves (the state before each step and the action taken).  Every step of a path
  meets a `guard`; the guard is where the assumptions about the environment and
  the conditions of a conditional result are written down.
* `Machine.Run` is a path from an initial state, `Machine.Reachable` forgets
  the history.
* `Reachable.invariant` is the invariant rule, and `Reachable.induction` the rule
  for an invariant that rests on what is already known of every reachable state.
* `Machine.exec` executes a list of actions and `run_of_exec` turns a computed
  execution into a run.
-/

namespace FlashReduce
namespace Library

variable {State Action : Type*}

/-! ### Traces -/

/-- A sequence of steps with its labels. -/
inductive Trace {Label : Type*} (step : State → Label → State → Prop) :
    State → List Label → State → Prop
  | refl (a : State) : Trace step a [] a
  | tail {a b c : State} {labels : List Label} {label : Label}
      (trace : Trace step a labels b) (hstep : step b label c) :
      Trace step a (labels ++ [label]) c

namespace Trace

variable {Label : Type*} {step step' : State → Label → State → Prop} {a b c : State}
  {first second labels : List Label} {label : Label}

theorem nil_iff : Trace step a [] c ↔ a = c := by
  constructor
  · intro h
    generalize hall : [] = all at h
    cases h with
    | refl => rfl
    | tail trace hstep => simp at hall
  · rintro rfl
    exact .refl a

theorem single (h : Trace step a [label] c) : step a label c := by
  generalize hall : [label] = all at h
  cases h with
  | refl => cases hall
  | tail trace hstep =>
      obtain ⟨hnil, hlast⟩ := List.append_inj' ((List.nil_append [label]).trans hall) rfl
      subst hnil
      cases hlast
      cases nil_iff.mp trace
      exact hstep

theorem trans (hfirst : Trace step a first b) (hsecond : Trace step b second c) :
    Trace step a (first ++ second) c := by
  induction hsecond with
  | refl => simpa using hfirst
  | tail _ hstep ih =>
      rw [← List.append_assoc]
      exact ih.tail hstep

/-- A trace can be cut at any of its labels. -/
theorem split (h : Trace step a (first ++ second) c) :
    ∃ b, Trace step a first b ∧ Trace step b second c := by
  generalize hall : first ++ second = all at h
  induction h generalizing second with
  | refl =>
      obtain ⟨rfl, rfl⟩ := List.append_eq_nil_iff.mp hall
      exact ⟨a, .refl a, .refl a⟩
  | @tail b' c' labels label trace hstep ih =>
      rcases List.eq_nil_or_concat second with rfl | ⟨front, last, rfl⟩
      · rw [List.append_nil] at hall
        rw [hall]
        exact ⟨c', .tail trace hstep, .refl c'⟩
      · rw [List.concat_eq_append, ← List.append_assoc] at hall
        obtain ⟨hfront, hlast⟩ := List.append_inj' hall rfl
        obtain ⟨b, hfirst, hsecond⟩ := ih hfront
        refine ⟨b, hfirst, ?_⟩
        rw [List.concat_eq_append, hlast]
        exact .tail hsecond hstep

/-- The first label of a trace is a step. -/
theorem head (h : Trace step a (label :: labels) c) :
    ∃ b, step a label b ∧ Trace step b labels c := by
  have hsplit : Trace step a ([label] ++ labels) c := h
  obtain ⟨b, hfirst, hrest⟩ := hsplit.split
  exact ⟨b, hfirst.single, hrest⟩

/-- A relation that has every step of a trace has the trace. -/
theorem mono (h : Trace step a labels c)
    (himp : ∀ label ∈ labels, ∀ a b, step a label b → step' a label b) :
    Trace step' a labels c := by
  induction h with
  | refl => exact .refl _
  | tail _ hstep ih =>
      exact (ih fun label hlabel => himp label (List.mem_append_left _ hlabel)).tail
        (himp _ (by simp) _ _ hstep)

end Trace

/-! ### Machines -/

/-- A system given by its initial states and a partial step function. -/
structure Machine (State Action : Type*) where
  init : State → Prop
  step : State → Action → Option State

namespace Machine

/-- The trivial guard: every enabled action may be taken. -/
def anyMove : State → Action → Prop := fun _ _ => True

instance (s : State) (action : Action) : Decidable (anyMove s action) :=
  inferInstanceAs (Decidable True)

variable (machine : Machine State Action) (guard : State → Action → Prop)

/-- An enabled step that meets the guard, labelled with the state before it and
the action. -/
structure Allowed (s : State) (move : State × Action) (t : State) : Prop where
  before : move.1 = s
  guard : guard s move.2
  step : machine.step s move.2 = some t

/-- A finite sequence of enabled steps that all meet the guard, together with
the list of its moves. -/
abbrev Path : State → List (State × Action) → State → Prop := Trace (machine.Allowed guard)

/-- A path from an initial state. -/
def Run (history : List (State × Action)) (t : State) : Prop :=
  ∃ s, machine.init s ∧ machine.Path guard s history t

/-- The states at the end of some run. -/
def Reachable (t : State) : Prop :=
  ∃ history, machine.Run guard history t

variable {machine guard}

theorem Run.reachable {history : List (State × Action)} {t : State}
    (hrun : machine.Run guard history t) : machine.Reachable guard t :=
  ⟨history, hrun⟩

theorem Reachable.initial {s : State} (hinit : machine.init s) : machine.Reachable guard s :=
  ⟨[], s, hinit, .refl s⟩

/-- One allowed step leads from a reachable state to a reachable state. -/
theorem Reachable.step {s t : State} {action : Action} (hreach : machine.Reachable guard s)
    (hguard : guard s action) (hnext : machine.step s action = some t) :
    machine.Reachable guard t := by
  obtain ⟨history, s₀, hinit, hpath⟩ := hreach
  exact ⟨history ++ [(s, action)], s₀, hinit, hpath.tail ⟨rfl, hguard, hnext⟩⟩

/-- A guard that allows every move of a path allows the path. -/
theorem Path.reguard {guard' : State → Action → Prop} {s t : State}
    {history : List (State × Action)} (hpath : machine.Path guard s history t)
    (himp : ∀ move ∈ history, guard move.1 move.2 → guard' move.1 move.2) :
    machine.Path guard' s history t := by
  refine hpath.mono (fun move hmove a b h => ⟨h.before, ?_, h.step⟩)
  have hguard' := himp move hmove (by rw [h.before]; exact h.guard)
  rwa [h.before] at hguard'

/-- Every move of a run is an allowed step of a reachable state. -/
theorem Run.of_mem {history : List (State × Action)} {t : State} {move : State × Action}
    (hrun : machine.Run guard history t) (hmove : move ∈ history) :
    machine.Reachable guard move.1 ∧ ∃ next, machine.Allowed guard move.1 move next := by
  obtain ⟨first, second, rfl⟩ := List.append_of_mem hmove
  obtain ⟨s, hinit, hpath⟩ := hrun
  obtain ⟨mid, hfirst, hsecond⟩ := hpath.split
  obtain ⟨next, hallowed, -⟩ := hsecond.head
  have hmid : mid = move.1 := hallowed.before.symm
  subst hmid
  exact ⟨⟨first, s, hinit, hfirst⟩, next, hallowed⟩

/-- A guard that allows more reaches every state. -/
theorem Reachable.weaken {weaker : State → Action → Prop}
    (himp : ∀ s action, guard s action → weaker s action) {t : State}
    (hreach : machine.Reachable guard t) : machine.Reachable weaker t := by
  obtain ⟨history, s, hinit, hpath⟩ := hreach
  exact ⟨history, s, hinit, Path.reguard hpath fun move _ => himp move.1 move.2⟩

/-- **Invariant rule for paths.**  A property preserved by every allowed step
holds at the end of a path that starts in it. -/
theorem Path.invariant (property : State → Prop)
    (hstep : ∀ s action t, property s → guard s action →
      machine.step s action = some t → property t)
    {s t : State} {history : List (State × Action)}
    (hpath : machine.Path guard s history t) (hstart : property s) : property t := by
  induction hpath with
  | refl => exact hstart
  | tail _ hallowed ih => exact hstep _ _ _ ih hallowed.guard hallowed.step

/-- **Invariant rule for runs.**  A property of the history and the state that
holds initially and survives every allowed step holds of every run. -/
theorem Run.induction (property : List (State × Action) → State → Prop)
    (hinit : ∀ s, machine.init s → property [] s)
    (hstep : ∀ history s action t, machine.Run guard history s → property history s →
      guard s action → machine.step s action = some t →
      property (history ++ [(s, action)]) t)
    {history : List (State × Action)} {t : State}
    (hrun : machine.Run guard history t) : property history t := by
  obtain ⟨s, hstart, hpath⟩ := hrun
  induction hpath with
  | refl => exact hinit s hstart
  | @tail b c history move path hallowed ih =>
      obtain ⟨before, action⟩ := move
      obtain rfl : before = b := hallowed.before
      exact hstep _ _ _ _ ⟨s, hstart, path⟩ ih hallowed.guard hallowed.step

/-- **Invariant rule.**  A property of states that holds initially and is
preserved by every allowed step holds of every reachable state. -/
theorem Reachable.invariant (property : State → Prop)
    (hinit : ∀ s, machine.init s → property s)
    (hstep : ∀ s action t, property s → guard s action →
      machine.step s action = some t → property t)
    {t : State} (hreach : machine.Reachable guard t) : property t := by
  obtain ⟨_, s, hstart, hpath⟩ := hreach
  exact Path.invariant property hstep hpath (hinit s hstart)

/-- **Relative invariant rule.**  The step may use what is already known of every
reachable state. -/
theorem Reachable.induction (property : State → Prop)
    (hinit : ∀ s, machine.init s → property s)
    (hstep : ∀ s action t, machine.Reachable guard s → property s → guard s action →
      machine.step s action = some t → property t)
    {t : State} (hreach : machine.Reachable guard t) : property t := by
  obtain ⟨history, hrun⟩ := hreach
  refine hrun.induction (fun _ s => property s) hinit ?_
  intro history s action t hbefore hproperty hguard hnext
  exact hstep s action t hbefore.reachable hproperty hguard hnext

/-! ### Execution -/

variable (machine guard) in
/-- Execute a list of actions, checking the guard before each of them. -/
def exec [∀ s action, Decidable (guard s action)] : State → List Action → Option State
  | s, [] => some s
  | s, action :: rest =>
      if guard s action then
        match machine.step s action with
        | none => none
        | some t => exec t rest
      else none

variable (machine) in
/-- The moves of an execution. -/
def moves : State → List Action → List (State × Action)
  | _, [] => []
  | s, action :: rest =>
      match machine.step s action with
      | none => []
      | some t => (s, action) :: moves t rest

theorem action_mem_of_mem_moves {s : State} {actions : List Action} {move : State × Action}
    (hmove : move ∈ machine.moves s actions) : move.2 ∈ actions := by
  induction actions generalizing s with
  | nil => cases hmove
  | cons action rest ih =>
      unfold moves at hmove
      split at hmove
      · cases hmove
      · rcases List.mem_cons.mp hmove with rfl | hmove
        · exact List.mem_cons_self
        · exact List.mem_cons_of_mem _ (ih hmove)

variable (machine guard)

/-- A computed execution is a path. -/
theorem path_of_exec [∀ s action, Decidable (guard s action)] (s : State)
    (actions : List Action) {t : State} (hexec : machine.exec guard s actions = some t) :
    machine.Path guard s (machine.moves s actions) t := by
  induction actions generalizing s with
  | nil =>
      simp only [exec, Option.some.injEq] at hexec
      subst hexec
      exact .refl _
  | cons action rest ih =>
      simp only [exec] at hexec
      split at hexec
      · next hguard =>
        cases hnext : machine.step s action with
        | none => simp [hnext] at hexec
        | some u =>
            simp only [hnext] at hexec
            have hhead : machine.Path guard s [(s, action)] u :=
              (Trace.refl s).tail ⟨rfl, hguard, hnext⟩
            simpa [moves, hnext] using hhead.trans (ih u hexec)
      · cases hexec

/-- A computed execution from an initial state is a run. -/
theorem run_of_exec [∀ s action, Decidable (guard s action)] (s : State)
    (actions : List Action) {t : State} (hinit : machine.init s)
    (hexec : machine.exec guard s actions = some t) :
    machine.Run guard (machine.moves s actions) t :=
  ⟨s, hinit, path_of_exec machine guard s actions hexec⟩

/-! ### Progress -/

/-- **Progress rule.**  From every state that keeps an invariant and is not at the goal, some
step keeps the invariant, pays for itself out of a budget when it costs something, and
decreases a measure.  Then a path leads to the goal, and its costs stay within the budget.
The invariant may speak of a ghost state. -/
theorem exists_path_of_measure {Ghost : Type*} (invariant : State → Ghost → Prop)
    (goal : State → Prop) (costs : State → Bool) (budget measure : State → Ghost → Nat)
    (hstep : ∀ s g, invariant s g → ¬ goal s → ∃ action t g',
      machine.Allowed guard s (s, action) t ∧ invariant t g' ∧
        budget t g' + (if costs s then 1 else 0) ≤ budget s g ∧ measure t g' < measure s g)
    (s : State) (g : Ghost) (hinv : invariant s g) :
    ∃ history t g', machine.Path guard s history t ∧ goal t ∧ invariant t g' ∧
      history.countP (fun move => costs move.1) + budget t g' ≤ budget s g := by
  generalize hn : measure s g = n
  induction n using Nat.strongRecOn generalizing s g with
  | ind n ih =>
      by_cases hgoal : goal s
      · exact ⟨[], s, g, .refl s, hgoal, hinv, by simp⟩
      · obtain ⟨action, t, g', hallowed, hinv', hbudget, hmeasure⟩ := hstep s g hinv hgoal
        obtain ⟨history, u, g'', hpath, hreached, hlast, hspent⟩ :=
          ih _ (hn ▸ hmeasure) t g' hinv' rfl
        have hfirst : machine.Path guard s [(s, action)] t := (Trace.refl s).tail hallowed
        refine ⟨(s, action) :: history, u, g'', hfirst.trans hpath, hreached, hlast, ?_⟩
        simp only [List.countP_cons]
        omega

end Machine
end Library
end FlashReduce
