import FlashReduce.Controller.BroadcastLedger

/-!
# The pieces of Broadcast for arbitrary requests

The server does not look at a request before it works with it.  This module says what
each piece of the handler does to the list of operations whatever the request is: rows
may have different lengths, the rank may lie beyond any of them, and a kept position may
denote another operation or none.

* `Section` lists the ways in which the first locked section ends, two of which raise,
  and `enter_section` shows that it ends in one of them.
* `Woken` lists what the piece after the wait does.
* `Columns` is the invariant of runs without any assumption on the requests: events are
  numbered in the order of the operations, and an operation has a value exactly when its
  event is set.
-/

namespace FlashReduce
namespace Controller
namespace Broadcast

open Library

/-! ### The search loop -/

/-- How the search loop ends for a rank. -/
inductive Searched (rank i : Nat) (rows : List (List Bool)) : Except PyError (Option Nat) → Prop
  | short {row} (hrow : row ∈ rows) (hshort : row.length ≤ rank) :
      Searched rank i rows (.error .indexError)
  | found {k row} (hrow : rows[k]? = some row) (hunserved : row[rank]? = some false) :
      Searched rank i rows (.ok (some (i + k)))
  | none (hserved : ∀ row ∈ rows, row[rank]? = some true) : Searched rank i rows (.ok none)

theorem searchFrom_searched (rank i : Nat) (rows : List (List Bool)) (state : State) :
    ∃ result, searchFrom rank i rows state = (result, state) ∧ Searched rank i rows result := by
  induction rows generalizing i with
  | nil => exact ⟨_, rfl, .none nofun⟩
  | cons row rest ih =>
      simp only [searchFrom, Fallible.bind_apply]
      cases hget : row[rank]? with
      | none =>
          exact ⟨_, rfl, .short List.mem_cons_self (List.getElem?_eq_none_iff.mp hget)⟩
      | some served =>
          cases served with
          | false => exact ⟨_, rfl, .found (k := 0) rfl hget⟩
          | true =>
              obtain ⟨result, hresult, hsearched⟩ := ih (i + 1)
              refine ⟨result, hresult, ?_⟩
              cases hsearched with
              | short hrow hshort => exact .short (List.mem_cons_of_mem _ hrow) hshort
              | @found k row' hrow hunserved =>
                  have hplace : i + 1 + k = i + (k + 1) := by omega
                  rw [hplace]
                  exact .found (k := k + 1) hrow hunserved
              | none hserved => exact .none (List.forall_mem_cons.mpr ⟨hget, hserved⟩)

/-- The elements of a list at the positions whose row is not all `True`. -/
def State.kept {α : Type} (s : State) (l : List α) : List α :=
  ((l.zip s.bitmap).filter fun p => !p.2.all id).map Prod.fst

theorem kept_ofEntries {α : Type} (es : List Entry) (flags : List Bool) (f : Entry → α) :
    (ofEntries es flags).kept (es.map f) = (es.filter Entry.isOpen).map f := by
  have hzip : (es.map f).zip (es.map Entry.row) = es.map fun e => (f e, e.row) :=
    List.zip_map'
  rw [State.kept, ofEntries_bitmap, hzip, List.filter_map, List.map_map]
  rfl

/-- What the search loop gives for a rank after the cleanup. -/
def State.search (s : State) (rank : Nat) : Except PyError (Option Nat) :=
  (searchFrom rank 0 (s.bitmap.filter fun row => !row.all id) s).1

/-! ### The first locked section -/

/-- How the first locked section changes the operations and the event flags, and how it
ends.  `reject`: the search meets a row that is too short.  `createRaise`: the root's
rank lies beyond the row of the operation it has just created and filled. -/
inductive Section (request : Request) (es : List Entry) (flags : List Bool) :
    Except PyError Outcome → List Entry → List Bool → Prop
  | reject (hsearch : (ofEntries es flags).search request.rank = .error .indexError) :
      Section request es flags (.error .indexError) (es.filter Entry.isOpen) flags
  | fill {idx e} (hsearch : (ofEntries es flags).search request.rank = .ok (some idx))
      (he : (es.filter Entry.isOpen)[idx]? = some e)
      (hunserved : e.row[request.rank]? = some false) (hroot : request.rank = request.root) :
      Section request es flags (.ok (.served idx))
        ((es.filter Entry.isOpen).set idx ((e.fill request.value).mark request.rank))
        (flags.set e.event true)
  | wait {idx e} (hsearch : (ofEntries es flags).search request.rank = .ok (some idx))
      (he : (es.filter Entry.isOpen)[idx]? = some e)
      (hunserved : e.row[request.rank]? = some false) (hroot : request.rank ≠ request.root)
      (hvalue : e.value = none) :
      Section request es flags (.ok (.wait idx e.event)) (es.filter Entry.isOpen) flags
  | pick {idx e} (hsearch : (ofEntries es flags).search request.rank = .ok (some idx))
      (he : (es.filter Entry.isOpen)[idx]? = some e)
      (hunserved : e.row[request.rank]? = some false) (hroot : request.rank ≠ request.root)
      (hvalue : e.value ≠ none) :
      Section request es flags (.ok (.served idx))
        ((es.filter Entry.isOpen).set idx (e.mark request.rank)) flags
  | createFill (hsearch : (ofEntries es flags).search request.rank = .ok none)
      (hroot : request.rank = request.root) (hrank : request.rank < request.numWorkers) :
      Section request es flags (.ok (.served (es.filter Entry.isOpen).length))
        (es.filter Entry.isOpen ++
          [((Entry.fresh request.numWorkers flags.length).fill request.value).mark request.rank])
        (flags ++ [true])
  | createRaise (hsearch : (ofEntries es flags).search request.rank = .ok none)
      (hroot : request.rank = request.root) (hrank : request.numWorkers ≤ request.rank) :
      Section request es flags (.error .indexError)
        (es.filter Entry.isOpen ++
          [(Entry.fresh request.numWorkers flags.length).fill request.value])
        (flags ++ [true])
  | createWait (hsearch : (ofEntries es flags).search request.rank = .ok none)
      (hroot : request.rank ≠ request.root) :
      Section request es flags (.ok (.wait (es.filter Entry.isOpen).length flags.length))
        (es.filter Entry.isOpen ++ [Entry.fresh request.numWorkers flags.length])
        (flags ++ [false])

theorem set_length_append {α : Type} (l : List α) (a b : α) :
    (l ++ [a]).set l.length b = l ++ [b] := by
  rw [List.set_append_right l.length b (Nat.le_refl _)]
  simp

/-- A rank beyond the row of the operation cannot be marked. -/
theorem markServed_short {es : List Entry} (flags : List Bool) {idx rank : Nat} {e : Entry}
    (he : es[idx]? = some e) (hrank : e.row.length ≤ rank) :
    markServed idx rank (ofEntries es flags) = (.error .indexError, ofEntries es flags) := by
  have hassign : assignAt e.row rank true = none := if_neg (Nat.not_lt.mpr hrank)
  simp [markServed, he, hassign]

/-- The root's value stays when its rank lies beyond the row. -/
theorem serve_raise {request : Request} {es : List Entry} (flags : List Bool) {idx : Nat}
    {e : Entry} (hroot : request.rank = request.root) (he : es[idx]? = some e)
    (hrank : e.row.length ≤ request.rank) :
    serve request idx (ofEntries es flags) =
      (.error .indexError,
        ofEntries (es.set idx (e.fill request.value)) (flags.set e.event true)) := by
  have hidx : idx < es.length := (List.getElem?_eq_some_iff.mp he).1
  have hget : (es.set idx (e.fill request.value))[idx]? = some (e.fill request.value) := by
    simp [hidx]
  rw [serve_fill hroot he, Fallible.bind_apply, markServed_short _ hget hrank]

/-- The first locked section is the cleanup, the search, and the section after the selection
of a position. -/
theorem enter_eq (request : Request) (es : List Entry) (flags : List Bool) :
    enter request (ofEntries es flags) =
      (do
        let idx ← match ← searchFrom request.rank 0 ((es.filter Entry.isOpen).map Entry.row) with
          | some i => pure i
          | none => createOp request.numWorkers
        serve request idx : Handler Outcome) (ofEntries (es.filter Entry.isOpen) flags) := by
  have hcleanup := cleanupBelow_apply es [] flags
  rw [List.append_nil, List.append_nil] at hcleanup
  unfold enter
  simp only [Fallible.bind_apply, Fallible.read_apply, ofEntries_bitmap, List.length_map, hcleanup]
  rfl

theorem search_ofEntries (es : List Entry) (flags : List Bool) (rank : Nat) (state : State) :
    searchFrom rank 0 ((es.filter Entry.isOpen).map Entry.row) state =
      ((ofEntries es flags).search rank, state) := by
  have hrows : (es.map Entry.row).filter (fun row => !row.all id) =
      (es.filter Entry.isOpen).map Entry.row := by
    rw [List.filter_map]
    rfl
  have hsame (rows : List (List Bool)) (i : Nat) (s : State) :
      searchFrom rank i rows s = ((searchFrom rank i rows state).1, s) := by
    induction rows generalizing i with
    | nil => rfl
    | cons row rest ih =>
        simp only [searchFrom, Fallible.bind_apply]
        cases row[rank]? with
        | none => rfl
        | some served =>
            cases served with
            | false => rfl
            | true => exact ih (i + 1)
  -- the search does not look at the state, so the one after the cleanup will do
  have hstate := hsame ((es.filter Entry.isOpen).map Entry.row) 0 state
  rw [State.search, ofEntries_bitmap, hrows, hsame _ 0 (ofEntries es flags)]
  exact hstate

/-- **The first locked section** ends in one of the ways listed. -/
theorem enter_section (request : Request) (es : List Entry) (flags : List Bool) :
    ∃ result es' flags', enter request (ofEntries es flags) = (result, ofEntries es' flags') ∧
      Section request es flags result es' flags' := by
  have hsearch := search_ofEntries es flags request.rank (ofEntries (es.filter Entry.isOpen) flags)
  obtain ⟨found, hfound, hsearched⟩ := searchFrom_searched request.rank 0
    ((es.filter Entry.isOpen).map Entry.row) (ofEntries (es.filter Entry.isOpen) flags)
  have hfound' : (ofEntries es flags).search request.rank = found :=
    (Prod.mk.inj (hsearch.symm.trans hfound)).1
  rw [enter_eq, Fallible.bind_apply, hfound]
  cases hsearched with
  | short hrow hshort => exact ⟨_, _, _, rfl, .reject hfound'⟩
  | @found k row hrow hunserved =>
      rw [Nat.zero_add] at hfound' ⊢
      rw [List.getElem?_map] at hrow
      obtain ⟨e, he, rfl⟩ := Option.map_eq_some_iff.mp hrow
      have hrank : request.rank < e.row.length := (List.getElem?_eq_some_iff.mp hunserved).1
      by_cases hroot : request.rank = request.root
      · exact ⟨_, _, _, serve_root flags hroot he hrank, .fill hfound' he hunserved hroot⟩
      · by_cases hvalue : e.value = none
        · exact ⟨_, _, _, serve_wait hroot he hvalue, .wait hfound' he hunserved hroot hvalue⟩
        · exact ⟨_, _, _, serve_pick hroot he hvalue hrank,
            .pick hfound' he hunserved hroot hvalue⟩
  | none hserved =>
      -- the new operation is the last one, with a row for the ranks that it announces
      simp only [createOp_apply, Fallible.bind_apply]
      have he : (es.filter Entry.isOpen ++ [Entry.fresh request.numWorkers flags.length])[
          (es.filter Entry.isOpen).length]? = some (Entry.fresh request.numWorkers flags.length) :=
        List.getElem?_concat_length
      have hrow : (Entry.fresh request.numWorkers flags.length).row.length = request.numWorkers := by
        simp [Entry.fresh]
      by_cases hroot : request.rank = request.root
      · have hflags : (flags ++ [false]).set flags.length true = flags ++ [true] :=
          set_length_append flags false true
        rcases Nat.lt_or_ge request.rank request.numWorkers with hrank | hrank
        · have hserve := serve_root (flags ++ [false]) hroot he (hrow.symm ▸ hrank)
          rw [set_length_append] at hserve
          exact ⟨_, _, _, hserve.trans (by rw [← hflags]; rfl), .createFill hfound' hroot hrank⟩
        · have hserve := serve_raise (flags ++ [false]) hroot he (hrow.symm ▸ hrank)
          rw [set_length_append] at hserve
          exact ⟨_, _, _, hserve.trans (by rw [← hflags]; rfl), .createRaise hfound' hroot hrank⟩
      · exact ⟨_, _, _, serve_wait hroot he rfl, .createWait hfound' hroot⟩

/-! ### The piece after the wait -/

/-- The bit of a rank at a position, when both exist. -/
def State.bit (s : State) (idx rank : Nat) : Option Bool := s.bitmap[idx]?.bind (·[rank]?)

/-- What the marking of a kept position does. -/
inductive Woken (idx rank : Nat) (es : List Entry) (flags : List Bool) :
    Except PyError Unit → List Entry → Prop
  | mark {e} (he : es[idx]? = some e) (hrank : rank < e.row.length) :
      Woken idx rank es flags (.ok ()) (es.set idx (e.mark rank))
  | gone (hbit : (ofEntries es flags).bit idx rank = none) :
      Woken idx rank es flags (.error .indexError) es

theorem markServed_woken (idx rank : Nat) (es : List Entry) (flags : List Bool) :
    ∃ result es', markServed idx rank (ofEntries es flags) = (result, ofEntries es' flags) ∧
      Woken idx rank es flags result es' := by
  cases he : es[idx]? with
  | none =>
      have hraise : markServed idx rank (ofEntries es flags) =
          (.error .indexError, ofEntries es flags) := by
        simp [markServed, he]
      exact ⟨_, _, hraise, .gone (by simp [State.bit, he])⟩
  | some e =>
      rcases Nat.lt_or_ge rank e.row.length with hrank | hrank
      · exact ⟨_, _, markServed_apply flags he hrank, .mark he hrank⟩
      · exact ⟨_, _, markServed_short flags he hrank,
          .gone (by simp [State.bit, he, List.getElem?_eq_none hrank])⟩

/-! ### The invariant -/

/-- The operations are numbered in order, and an operation has a value exactly when its
event is set. -/
structure Columns (es : List Entry) (flags : List Bool) : Prop where
  increasing : Increasing es
  valued : ∀ e ∈ es, flags[e.event]? = some e.value.isSome

namespace Columns

variable {es es' : List Entry} {flags flags' : List Bool} {idx rank : Nat} {e new : Entry}

theorem event_lt (h : Columns es flags) (he : e ∈ es) : e.event < flags.length :=
  (List.getElem?_eq_some_iff.mp (h.valued e he)).1

theorem cleanup (h : Columns es flags) : Columns (es.filter Entry.isOpen) flags :=
  ⟨h.increasing.filter _, fun e he => h.valued e (List.mem_of_mem_filter he)⟩

/-- An operation gets a value together with its event. -/
theorem update (h : Columns es flags) (he : es[idx]? = some e) (hevent : new.event = e.event) :
    Columns (es.set idx new) (flags.set e.event new.value.isSome) := by
  have hevents : (es.set idx new).map Entry.event = es.map Entry.event := map_set_same he hevent
  refine ⟨?_, ?_⟩
  · rw [Increasing, hevents]
    exact h.increasing
  · intro e' he'
    rcases h.increasing.mem_set he he' with rfl | ⟨hold, hne⟩
    · rw [hevent, List.getElem?_set_self (h.event_lt (List.mem_of_getElem? he))]
    · rw [List.getElem?_set_ne (Ne.symm hne)]
      exact h.valued e' hold

/-- A row changes. -/
theorem mark (h : Columns es flags) (he : es[idx]? = some e) (rank : Nat) :
    Columns (es.set idx (e.mark rank)) flags := by
  have hflags : flags.set e.event (e.mark rank).value.isSome = flags := by
    obtain ⟨hlt, hflag⟩ := List.getElem?_eq_some_iff.mp (h.valued e (List.mem_of_getElem? he))
    rw [Entry.mark_value, ← hflag, List.set_getElem_self]
  have hupdate := h.update he (e.mark_event rank)
  rwa [hflags] at hupdate

/-- A new operation comes last, with a new event. -/
theorem create (h : Columns es flags) (hevent : new.event = flags.length) :
    Columns (es ++ [new]) (flags ++ [new.value.isSome]) := by
  refine ⟨?_, ?_⟩
  · have hbelow : ∀ a ∈ es.map Entry.event, a < new.event := by
      intro a ha
      obtain ⟨e, he, rfl⟩ := List.mem_map.mp ha
      rw [hevent]
      exact h.event_lt he
    have hsnoc : (es.map Entry.event ++ [new.event]).Pairwise (· < ·) :=
      List.pairwise_append.mpr ⟨h.increasing, List.pairwise_singleton _ _, by simpa using hbelow⟩
    simpa [Increasing] using hsnoc
  · apply forall_mem_snoc
    · intro e he
      rw [List.getElem?_append_left (h.event_lt he)]
      exact h.valued e he
    · rw [hevent, List.getElem?_concat_length]

end Columns

theorem Section.columns {request : Request} {es es' : List Entry} {flags flags' : List Bool}
    {result : Except PyError Outcome} (hsection : Section request es flags result es' flags')
    (h : Columns es flags) : Columns es' flags' := by
  have hopen := h.cleanup
  cases hsection with
  | reject | wait => exact hopen
  | fill _ he _ _ => exact hopen.update he rfl
  | pick _ he _ _ _ => exact hopen.mark he _
  | createFill | createRaise | createWait => exact hopen.create rfl

/-! ### Steps -/

/-- The phase of a call after its first locked section. -/
def phaseOf : Except PyError Outcome → Phase
  | .ok (.served idx) => .served idx
  | .ok (.wait idx event) => .waiting idx event
  | .error e => .raised e

/-- What a step does to the operations, the event flags and the calls. -/
inductive Piece (es : List Entry) (flags : List Bool) (calls : List Call) :
    Action → List Entry → List Bool → List Call → Prop
  | enter {request result es' flags' joined}
      (hsection : Section request es flags result es' flags') :
      Piece es flags calls (.enter request) es' flags'
        (calls ++ [⟨request, joined, phaseOf result⟩])
  | wake {i call idx event} (hcall : calls[i]? = some call)
      (hphase : call.phase = .waiting idx event) (hflag : flags[event]? = some true) :
      Piece es flags calls (.resume i) es flags (calls.set i { call with phase := .woken idx })
  | mark {i call idx e} (hcall : calls[i]? = some call) (hphase : call.phase = .woken idx)
      (he : es[idx]? = some e) (hrank : call.request.rank < e.row.length) :
      Piece es flags calls (.resume i) (es.set idx (e.mark call.request.rank)) flags
        (calls.set i { call with phase := .served idx })
  | gone {i call idx} (hcall : calls[i]? = some call) (hphase : call.phase = .woken idx)
      (hbit : (ofEntries es flags).bit idx call.request.rank = none) :
      Piece es flags calls (.resume i) es flags
        (calls.set i { call with phase := .raised .indexError })
  | read {i call idx e} (hcall : calls[i]? = some call) (hphase : call.phase = .served idx)
      (he : es[idx]? = some e) :
      Piece es flags calls (.resume i) es flags
        (calls.set i { call with phase := .returned (e.value.getD 0) })
  | missing {i call idx} (hcall : calls[i]? = some call) (hphase : call.phase = .served idx)
      (he : es[idx]? = none) :
      Piece es flags calls (.resume i) es flags
        (calls.set i { call with phase := .raised .indexError })

variable {es : List Entry} {flags : List Bool} {calls : List Call}

theorem resumeCall_piece {i : Nat} {call call' : Call} {state' : State}
    (hcall : calls[i]? = some call)
    (hresume : resumeCall (ofEntries es flags) call = some (state', call')) :
    ∃ es' flags', state' = ofEntries es' flags' ∧
      Piece es flags calls (.resume i) es' flags' (calls.set i call') := by
  unfold resumeCall at hresume
  cases hphase : call.phase with
  | waiting idx event =>
      by_cases hflag : flags[event]? = some true
      · simp only [hphase, ofEntries_eventFlags, hflag, if_true] at hresume
        obtain ⟨rfl, rfl⟩ := Prod.mk.inj (Option.some.inj hresume)
        exact ⟨es, flags, rfl, .wake hcall hphase hflag⟩
      · simp [hphase, hflag] at hresume
  | woken idx =>
      obtain ⟨result, es', hmark, hwoken⟩ := markServed_woken idx call.request.rank es flags
      simp only [hphase, hmark] at hresume
      cases hwoken with
      | mark he hrank =>
          obtain ⟨rfl, rfl⟩ := Prod.mk.inj (Option.some.inj hresume)
          exact ⟨_, flags, rfl, .mark hcall hphase he hrank⟩
      | gone hbit =>
          obtain ⟨rfl, rfl⟩ := Prod.mk.inj (Option.some.inj hresume)
          exact ⟨es, flags, rfl, .gone hcall hphase hbit⟩
  | served idx =>
      cases he : es[idx]? with
      | none =>
          have hread : readValue idx (ofEntries es flags) =
              (.error .indexError, ofEntries es flags) := by
            simp [readValue, he]
          simp only [hphase, hread] at hresume
          obtain ⟨rfl, rfl⟩ := Prod.mk.inj (Option.some.inj hresume)
          exact ⟨es, flags, rfl, .missing hcall hphase he⟩
      | some e =>
          simp only [hphase, readValue_apply flags he] at hresume
          obtain ⟨rfl, rfl⟩ := Prod.mk.inj (Option.some.inj hresume)
          exact ⟨es, flags, rfl, .read hcall hphase he⟩
  | returned value => simp [hphase] at hresume
  | raised error => simp [hphase] at hresume

theorem startCall_piece (es : List Entry) (flags : List Bool) (calls : List Call)
    (request : Request) :
    ∃ es' flags' call, startCall (ofEntries es flags) request = (ofEntries es' flags', call) ∧
      Piece es flags calls (.enter request) es' flags' (calls ++ [call]) := by
  obtain ⟨result, es', flags', henter, hsection⟩ := enter_section request es flags
  rcases result with error | idx | ⟨idx, event⟩
  · exact ⟨es', flags', ⟨request, none, .raised error⟩, by simp [startCall, henter],
      .enter hsection⟩
  · exact ⟨es', flags', ⟨request, (ofEntries es' flags').events[idx]?, .served idx⟩,
      by simp [startCall, henter], .enter hsection⟩
  · exact ⟨es', flags', ⟨request, (ofEntries es' flags').events[idx]?, .waiting idx event⟩,
      by simp [startCall, henter], .enter hsection⟩

/-- **Every step is a piece.** -/
theorem step_piece {action : Action} {t : System}
    (hstep : step ⟨ofEntries es flags, calls⟩ action = some t) :
    ∃ es' flags', t.state = ofEntries es' flags' ∧
      Piece es flags calls action es' flags' t.calls := by
  cases action with
  | enter request =>
      obtain ⟨es', flags', call, hstart, hpiece⟩ :=
        startCall_piece es flags calls request
      simp only [step, hstart, Option.some.injEq] at hstep
      subst hstep
      exact ⟨es', flags', rfl, hpiece⟩
  | resume i =>
      simp only [step] at hstep
      cases hcall : calls[i]? with
      | none => simp [hcall] at hstep
      | some call =>
          cases hresume : resumeCall (ofEntries es flags) call with
          | none => simp [hcall, hresume] at hstep
          | some result =>
              simp only [hcall, hresume, Option.some.injEq] at hstep
              subst hstep
              obtain ⟨es', flags', hstate, hpiece⟩ := resumeCall_piece hcall hresume
              exact ⟨es', flags', hstate, hpiece⟩

theorem Piece.columns {es' : List Entry} {flags' : List Bool} {calls' : List Call}
    {action : Action} (hpiece : Piece es flags calls action es' flags' calls')
    (h : Columns es flags) : Columns es' flags' := by
  cases hpiece with
  | enter hsection => exact hsection.columns h
  | mark hcall hphase he hrank => exact h.mark he _
  | wake | gone | read | missing => exact h

/-- The lists of every reachable state are the columns of a list of operations with the
invariant. -/
theorem reachable_columns {s : System} (hreach : machine.Reachable Machine.anyMove s) :
    ∃ es flags, s.state = ofEntries es flags ∧ Columns es flags := by
  refine hreach.invariant
    (fun s => ∃ es flags, s.state = ofEntries es flags ∧ Columns es flags) ?_ ?_
  · rintro s rfl
    exact ⟨[], [], rfl, List.Pairwise.nil, nofun⟩
  · rintro ⟨_, calls⟩ action t ⟨es, flags, rfl, hcolumns⟩ - hstep
    obtain ⟨es', flags', hstate, hpiece⟩ := step_piece hstep
    exact ⟨es', flags', hstate, hpiece.columns hcolumns⟩

end Broadcast
end Controller
end FlashReduce
