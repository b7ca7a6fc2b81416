import FlashReduce.Controller.Broadcast
import FlashReduce.Library.ListUpdate
import Mathlib.Data.List.Induction

/-!
# The three lists as one list of operations

When the three lists of `Broadcast` have the same length they are the columns of
one list of operations (`Entry`), and each piece of the handler is a simple
change of that list: the cleanup loop is a filter, the search loop finds the
first operation that has not served the rank, marking and filling change one
entry.  The lemmas of this module say so for each piece; later proofs work with
the list of operations and never unfold a handler.
-/

namespace FlashReduce
namespace Controller
namespace Broadcast

open Library

/-- One operation: its value, the ranks it has served, and its event. -/
structure Entry where
  value : Option UInt64
  row : List Bool
  event : Nat
  deriving DecidableEq

/-- The fields whose three lists are the columns of a list of operations. -/
def ofEntries (es : List Entry) (flags : List Bool) : State :=
  ⟨es.map Entry.value, es.map Entry.row, es.map Entry.event, flags⟩

/-- The operation has not served every rank. -/
def Entry.isOpen (e : Entry) : Bool := !e.row.all id

/-- The operation has not served the rank. -/
def Entry.unserved (rank : Nat) (e : Entry) : Bool := e.row[rank]? == some false

/-- The operation after it served a rank. -/
def Entry.mark (e : Entry) (rank : Nat) : Entry := { e with row := e.row.set rank true }

/-- The operation after the root stored its value. -/
def Entry.fill (e : Entry) (value : UInt64) : Entry := { e with value := some value }

/-- A new operation. -/
def Entry.fresh (numWorkers event : Nat) : Entry := ⟨none, List.replicate numWorkers false, event⟩

@[simp] theorem Entry.mark_event (e : Entry) (rank : Nat) : (e.mark rank).event = e.event := rfl

@[simp] theorem Entry.mark_value (e : Entry) (rank : Nat) : (e.mark rank).value = e.value := rfl

@[simp] theorem Entry.mark_row (e : Entry) (rank : Nat) :
    (e.mark rank).row = e.row.set rank true := rfl

@[simp] theorem Entry.fill_event (e : Entry) (value : UInt64) :
    (e.fill value).event = e.event := rfl

@[simp] theorem Entry.fill_value (e : Entry) (value : UInt64) :
    (e.fill value).value = some value := rfl

@[simp] theorem Entry.fill_row (e : Entry) (value : UInt64) : (e.fill value).row = e.row := rfl

@[simp] theorem ofEntries_events (es : List Entry) (flags : List Bool) :
    (ofEntries es flags).events = es.map Entry.event := rfl

@[simp] theorem ofEntries_values (es : List Entry) (flags : List Bool) :
    (ofEntries es flags).values = es.map Entry.value := rfl

@[simp] theorem ofEntries_bitmap (es : List Entry) (flags : List Bool) :
    (ofEntries es flags).bitmap = es.map Entry.row := rfl

@[simp] theorem ofEntries_eventFlags (es : List Entry) (flags : List Bool) :
    (ofEntries es flags).eventFlags = flags := rfl

/-! ### The cleanup loop -/

theorem deleteAt_middle {α : Type} (front back : List α) (a : α) :
    deleteAt (front ++ a :: back) front.length = some (front ++ back) := by
  rw [deleteAt, if_pos (by simp), List.eraseIdx_append_of_length_le (Nat.le_refl _)]
  simp

theorem deleteOp_apply (front back : List Entry) (e : Entry) (flags : List Bool) :
    deleteOp front.length (ofEntries (front ++ e :: back) flags) =
      (.ok (), ofEntries (front ++ back) flags) := by
  have hdelete {α : Type} (f : Entry → α) :
      deleteAt ((front ++ e :: back).map f) front.length = some ((front ++ back).map f) := by
    have hlength : front.length = (front.map f).length := by simp
    rw [List.map_append, List.map_cons, hlength, deleteAt_middle, List.map_append]
  simp only [deleteOp, Fallible.bind_apply, Fallible.read_apply, ofEntries_bitmap, hdelete,
    Fallible.demand_some, Fallible.pure_apply, Fallible.modify_apply, ofEntries_values,
    ofEntries_events]
  rfl

/-- The cleanup loop removes exactly the operations that served every rank and
keeps the others in order. -/
theorem cleanupBelow_apply (front back : List Entry) (flags : List Bool) :
    cleanupBelow front.length (ofEntries (front ++ back) flags) =
      (.ok (), ofEntries (front.filter Entry.isOpen ++ back) flags) := by
  induction front using List.reverseRecOn generalizing back with
  | nil => rfl
  | append_singleton front e ih =>
      have hlength : (front ++ [e]).length = front.length + 1 := by simp
      have hrow : ((front ++ e :: back).map Entry.row)[front.length]? = some e.row := by simp
      rw [hlength, List.append_assoc, List.singleton_append]
      simp only [cleanupBelow, Fallible.bind_apply, Fallible.read_apply, ofEntries_bitmap, hrow,
        Fallible.demand_some, Fallible.pure_apply]
      by_cases hall : e.row.all id = true
      · simp only [hall, if_true, Fallible.bind_apply, deleteOp_apply]
        rw [ih, List.filter_append]
        simp [Entry.isOpen, hall]
      · simp only [hall, if_false, Bool.false_eq_true]
        rw [ih, List.filter_append]
        simp [Entry.isOpen, hall]

/-! ### The search loop -/

theorem searchFrom_apply {rank : Nat} {rows : List (List Bool)}
    (hrows : ∀ row ∈ rows, rank < row.length) (i : Nat) (state : State) :
    searchFrom rank i rows state =
      (.ok ((rows.findIdx? fun row => row[rank]? == some false).map (· + i)), state) := by
  induction rows generalizing i with
  | nil => rfl
  | cons row rest ih =>
      have hlt := hrows row List.mem_cons_self
      have hrest := ih (fun r hr => hrows r (List.mem_cons_of_mem _ hr)) (i + 1)
      have hget : row[rank]? = some row[rank] := List.getElem?_eq_getElem hlt
      simp only [searchFrom, hget, Fallible.bind_apply, Fallible.demand_some, Fallible.pure_apply,
        List.findIdx?_cons]
      cases hserved : row[rank] with
      | false => simp
      | true =>
          simp only [Bool.not_true, Bool.false_eq_true, if_false, hrest]
          cases rest.findIdx? _ <;> simp [Nat.add_comm, Nat.add_left_comm]

/-! ### The other pieces -/

theorem createOp_apply (numWorkers : Nat) (es : List Entry) (flags : List Bool) :
    createOp numWorkers (ofEntries es flags) =
      (.ok es.length,
        ofEntries (es ++ [Entry.fresh numWorkers flags.length]) (flags ++ [false])) := by
  simp [createOp, ofEntries, Entry.fresh]

theorem assignAt_of_lt {α : Type} {l : List α} {i : Nat} (h : i < l.length) (a : α) :
    assignAt l i a = some (l.set i a) := if_pos h

theorem markServed_apply {es : List Entry} (flags : List Bool) {idx rank : Nat} {e : Entry}
    (he : es[idx]? = some e) (hrank : rank < e.row.length) :
    markServed idx rank (ofEntries es flags) =
      (.ok (), ofEntries (es.set idx (e.mark rank)) flags) := by
  have hvalues : (es.set idx (e.mark rank)).map Entry.value = es.map Entry.value :=
    map_set_same he rfl
  have hevents : (es.set idx (e.mark rank)).map Entry.event = es.map Entry.event :=
    map_set_same he rfl
  simp [markServed, he, assignAt_of_lt hrank, ofEntries, hvalues, hevents, List.map_set]

theorem readValue_apply {es : List Entry} (flags : List Bool) {idx : Nat} {e : Entry}
    (he : es[idx]? = some e) :
    readValue idx (ofEntries es flags) = (.ok (e.value.getD 0), ofEntries es flags) := by
  simp [readValue, he]

/-! ### The first locked section -/

/-- The operations and the event flags after cleanup, search and creation, and
the position that was selected. -/
def select (numWorkers rank : Nat) (es : List Entry) (flags : List Bool) :
    List Entry × List Bool × Nat :=
  match (es.filter Entry.isOpen).findIdx? (Entry.unserved rank) with
  | some idx => (es.filter Entry.isOpen, flags, idx)
  | none => (es.filter Entry.isOpen ++ [Entry.fresh numWorkers flags.length], flags ++ [false],
      (es.filter Entry.isOpen).length)

/-- The section after the selection of a position. -/
def serve (request : Request) (idx : Nat) : Handler Outcome := do
  if request.rank = request.root then
    let values ←
      Fallible.demand (assignAt (← Fallible.read).values idx (some request.value)) .indexError
    Fallible.modify fun self => { self with values := values }
    let event ← Fallible.demand (← Fallible.read).events[idx]? .indexError
    Fallible.modify fun self => { self with eventFlags := self.eventFlags.set event true }
    markServed idx request.rank
    pure (.served idx)
  else
    let value ← Fallible.demand (← Fallible.read).values[idx]? .indexError
    if value = none then
      let event ← Fallible.demand (← Fallible.read).events[idx]? .indexError
      pure (.wait idx event)
    else
      markServed idx request.rank
      pure (.served idx)

theorem enter_apply {request : Request} {es : List Entry} (flags : List Bool)
    (hrows : ∀ e ∈ es, request.rank < e.row.length) :
    enter request (ofEntries es flags) =
      serve request (select request.numWorkers request.rank es flags).2.2
        (ofEntries (select request.numWorkers request.rank es flags).1
          (select request.numWorkers request.rank es flags).2.1) := by
  have hcleanup := cleanupBelow_apply es [] flags
  rw [List.append_nil, List.append_nil] at hcleanup
  have hopen : ∀ row ∈ (es.filter Entry.isOpen).map Entry.row, request.rank < row.length := by
    intro row hrow
    obtain ⟨e, he, rfl⟩ := List.mem_map.mp hrow
    exact hrows e (List.mem_filter.mp he).1
  have hsearch := searchFrom_apply hopen 0 (ofEntries (es.filter Entry.isOpen) flags)
  have hfind : (((es.filter Entry.isOpen).map Entry.row).findIdx?
      fun row => row[request.rank]? == some false) =
      (es.filter Entry.isOpen).findIdx? (Entry.unserved request.rank) := by
    rw [List.findIdx?_map]
    rfl
  rw [hfind] at hsearch
  unfold enter
  simp only [Fallible.bind_apply, Fallible.read_apply, ofEntries_bitmap, List.length_map, hcleanup,
    hsearch]
  unfold select
  cases (es.filter Entry.isOpen).findIdx? (Entry.unserved request.rank) with
  | some idx => rfl
  | none =>
      simp only [Option.map_none, Fallible.bind_apply, createOp_apply]
      rfl

/-- The root stores its value and sets the event before it marks itself. -/
theorem serve_fill {request : Request} {es : List Entry} {flags : List Bool} {idx : Nat}
    {e : Entry} (hroot : request.rank = request.root) (he : es[idx]? = some e) :
    serve request idx (ofEntries es flags) =
      (do markServed idx request.rank; pure (.served idx) : Handler Outcome)
        (ofEntries (es.set idx (e.fill request.value)) (flags.set e.event true)) := by
  have hidx : idx < es.length := (List.getElem?_eq_some_iff.mp he).1
  have hrows : (es.set idx (e.fill request.value)).map Entry.row = es.map Entry.row :=
    map_set_same he rfl
  have hevents : (es.set idx (e.fill request.value)).map Entry.event = es.map Entry.event :=
    map_set_same he rfl
  have hfill : (⟨(es.map Entry.value).set idx (some request.value), es.map Entry.row,
      es.map Entry.event, flags.set e.event true⟩ : State) =
      ofEntries (es.set idx (e.fill request.value)) (flags.set e.event true) := by
    simp [ofEntries, hrows, hevents, List.map_set]
  rw [← hfill]
  unfold serve
  rw [if_pos hroot]
  simp only [Fallible.bind_apply, Fallible.read_apply, ofEntries_values,
    assignAt_of_lt (show idx < (es.map Entry.value).length by simpa using hidx),
    Fallible.demand_some, Fallible.pure_apply, Fallible.modify_apply, ofEntries_events,
    List.getElem?_map, he, Option.map_some, ofEntries_bitmap, ofEntries_eventFlags]

theorem serve_root {request : Request} {es : List Entry} (flags : List Bool) {idx : Nat}
    {e : Entry} (hroot : request.rank = request.root) (he : es[idx]? = some e)
    (hrank : request.rank < e.row.length) :
    serve request idx (ofEntries es flags) =
      (.ok (.served idx),
        ofEntries (es.set idx ((e.fill request.value).mark request.rank))
          (flags.set e.event true)) := by
  have hidx : idx < es.length := (List.getElem?_eq_some_iff.mp he).1
  have hget : (es.set idx (e.fill request.value))[idx]? = some (e.fill request.value) := by
    simp [hidx]
  have hmark := markServed_apply (flags.set e.event true) hget hrank
  rw [List.set_set] at hmark
  rw [serve_fill hroot he, Fallible.bind_apply, hmark]
  rfl

theorem serve_wait {request : Request} {es : List Entry} {flags : List Bool} {idx : Nat}
    {e : Entry} (hroot : request.rank ≠ request.root) (he : es[idx]? = some e)
    (hvalue : e.value = none) :
    serve request idx (ofEntries es flags) = (.ok (.wait idx e.event), ofEntries es flags) := by
  simp [serve, hroot, he, hvalue]

theorem serve_pick {request : Request} {es : List Entry} {flags : List Bool} {idx : Nat}
    {e : Entry} (hroot : request.rank ≠ request.root) (he : es[idx]? = some e)
    (hvalue : e.value ≠ none) (hrank : request.rank < e.row.length) :
    serve request idx (ofEntries es flags) =
      (.ok (.served idx), ofEntries (es.set idx (e.mark request.rank)) flags) := by
  simp [serve, hroot, he, hvalue, markServed_apply flags he hrank]

end Broadcast
end Controller
end FlashReduce
