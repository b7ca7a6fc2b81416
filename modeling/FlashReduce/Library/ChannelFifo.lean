import FlashReduce.Library.Simulation
import Mathlib.Logic.Function.Basic

/-!
# One server for many FIFO queues

The abstract system of a server that works off operations from one FIFO queue for
each channel.  The server may start only the first operation of a queue that is
not done, one at a time; a started operation reports whether it is done; only an
operation that is done leaves its queue.

The lemmas about traces say what that means for a whole run: what was enqueued on
a channel is what was dequeued from it followed by what is still queued
(`ChannelFifo.conserved`), the operation that is started is always the oldest one that
was not dequeued (`ChannelFifo.start_oldest`), and an operation that reported to be done
is not started again before it is enqueued again (`ChannelFifo.no_start_after_done`).
-/

namespace FlashReduce
namespace Library

variable {Chan Op : Type*}

/-- The queues of the channels, which operations are done, and which one is
running. -/
structure ChannelFifo (Chan Op : Type*) where
  queue : Chan → List Op
  done : Op → Bool
  active : Option Op

namespace ChannelFifo

inductive Event (Chan Op : Type*)
  | enqueue (c : Chan) (x : Op) (done : Bool)
  | start (c : Chan) (x : Op)
  | report (c : Chan) (x : Op) (done : Bool)
  | dequeue (c : Chan) (x : Op)

/-- Nothing is queued and nothing runs. -/
def Idle (f : ChannelFifo Chan Op) : Prop := (∀ c, f.queue c = []) ∧ f.active = none

variable [DecidableEq Chan] [DecidableEq Op]

/-- The steps of the server and of the callers that enqueue operations. -/
inductive Step : ChannelFifo Chan Op → Event Chan Op → ChannelFifo Chan Op → Prop
  | enqueue {f c x done} (hnew : ∀ d, x ∉ f.queue d) :
      Step f (.enqueue c x done)
        { f with
          queue := Function.update f.queue c (f.queue c ++ [x])
          done := Function.update f.done x done }
  | start {f c x} (hhead : (f.queue c).head? = some x) (hdone : f.done x = false)
      (hactive : f.active = none) :
      Step f (.start c x) { f with active := some x }
  | report {f c x done} (hhead : (f.queue c).head? = some x) (hactive : f.active = some x) :
      Step f (.report c x done)
        { f with done := Function.update f.done x done, active := none }
  | dequeue {f c x rest} (hqueue : f.queue c = x :: rest) (hdone : f.done x = true)
      (hactive : f.active = none) :
      Step f (.dequeue c x) { f with queue := Function.update f.queue c rest }

/-- What was enqueued on a channel. -/
def enqueued (c : Chan) (events : List (Event Chan Op)) : List Op :=
  events.filterMap fun
    | .enqueue d x _ => if d = c then some x else none
    | _ => none

/-- What was dequeued from a channel. -/
def dequeued (c : Chan) (events : List (Event Chan Op)) : List Op :=
  events.filterMap fun
    | .dequeue d x => if d = c then some x else none
    | _ => none

variable {f g h : ChannelFifo Chan Op} {events first second : List (Event Chan Op)}

omit [DecidableEq Op] in
theorem enqueued_snoc (c : Chan) (events : List (Event Chan Op)) (event : Event Chan Op) :
    enqueued c (events ++ [event]) = enqueued c events ++ enqueued c [event] := by
  simp [enqueued]

omit [DecidableEq Op] in
theorem dequeued_snoc (c : Chan) (events : List (Event Chan Op)) (event : Event Chan Op) :
    dequeued c (events ++ [event]) = dequeued c events ++ dequeued c [event] := by
  simp [dequeued]

/-- Every operation that was enqueued on a channel was dequeued from it or is
still queued there, in the order of enqueueing. -/
theorem conserved (hidle : f.Idle) (htrace : Trace Step f events g) (c : Chan) :
    enqueued c events = dequeued c events ++ g.queue c := by
  induction htrace with
  | refl => simp [enqueued, dequeued, hidle.1 c]
  | tail trace hstep ih =>
      rw [enqueued_snoc, dequeued_snoc, ih]
      cases hstep with
      | @enqueue d x done hnew =>
          by_cases hd : d = c
          · subst hd
            simp [enqueued, dequeued]
          · simp [enqueued, dequeued, hd, Function.update_of_ne (Ne.symm hd)]
      | start => simp [enqueued, dequeued]
      | report => simp [enqueued, dequeued]
      | @dequeue d x rest hqueue hdone hactive =>
          by_cases hd : d = c
          · subst hd
            simp [enqueued, dequeued, hqueue]
          · simp [enqueued, dequeued, hd, Function.update_of_ne (Ne.symm hd)]

/-- The operation that is started is the oldest one of its channel that was not
dequeued. -/
theorem start_oldest (hidle : f.Idle) {c : Chan} {x : Op}
    (htrace : Trace Step f (first ++ .start c x :: second) g) :
    (enqueued c first)[(dequeued c first).length]? = some x := by
  obtain ⟨m, hfirst, hrest⟩ := htrace.split
  obtain ⟨m', hstep, -⟩ := hrest.head
  rw [conserved hidle hfirst c, List.getElem?_append_right (Nat.le_refl _), Nat.sub_self,
    ← List.head?_eq_getElem?]
  cases hstep with
  | start hhead _ _ => exact hhead

/-- As long as an operation is not enqueued again it stays done and is not
started. -/
theorem stays_done {x : Op} (hdone : f.done x = true) (hactive : f.active ≠ some x)
    (htrace : Trace Step f events g) (hnew : ∀ c done, .enqueue c x done ∉ events) :
    g.done x = true ∧ g.active ≠ some x := by
  induction htrace with
  | refl => exact ⟨hdone, hactive⟩
  | tail trace hstep ih =>
      obtain ⟨hstill, hnot⟩ := ih (fun c done hmem => hnew c done (List.mem_append_left _ hmem))
      cases hstep with
      | @enqueue c y done hfresh =>
          have hne : x ≠ y := by
            rintro rfl
            exact hnew c done (by simp)
          exact ⟨(Function.update_of_ne hne _ _).trans hstill, hnot⟩
      | @start c y hhead hready hfree =>
          have hne : y ≠ x := by
            rintro rfl
            rw [hstill] at hready
            cases hready
          exact ⟨hstill, fun heq => hne (Option.some.inj heq)⟩
      | @report c y done hhead hrunning =>
          have hne : x ≠ y := fun heq => hnot (heq ▸ hrunning)
          exact ⟨(Function.update_of_ne hne _ _).trans hstill, nofun⟩
      | dequeue => exact ⟨hstill, hnot⟩

/-- An operation that reported to be done is not started again before it is
enqueued again. -/
theorem no_start_after_done {c d : Chan} {x : Op} {middle : List (Event Chan Op)}
    (htrace : Trace Step f (first ++ .report c x true :: (middle ++ .start d x :: second)) g) :
    ∃ b done, .enqueue b x done ∈ middle := by
  obtain ⟨m, -, hrest⟩ := htrace.split
  obtain ⟨m₁, hreport, hrest⟩ := hrest.head
  obtain ⟨m₂, hmiddle, hrest⟩ := hrest.split
  obtain ⟨m₃, hstart, -⟩ := hrest.head
  by_contra hnone
  have hnew : ∀ b done, .enqueue b x done ∉ middle :=
    fun b done hmem => hnone ⟨b, done, hmem⟩
  cases hreport with
  | report hhead hactive =>
      obtain ⟨hdone, -⟩ := stays_done (by simp) (by simp) hmiddle hnew
      cases hstart with
      | start _ hnot _ =>
          rw [hdone] at hnot
          cases hnot

end ChannelFifo
end Library
end FlashReduce
