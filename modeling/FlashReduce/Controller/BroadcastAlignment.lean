import FlashReduce.Controller.BroadcastSection

/-!
# The three lists of Broadcast are aligned

The values, the rows and the events of the operations are kept in three lists, from
which positions are deleted in place, to which elements are appended, and in which
elements are replaced through positions that may be outdated.

* `Origins` is ghost state: for each element of each list, the call that appended it.
  `trackedEnter` is the first locked section with this ghost state, list by list, and
  `erases_trackedEnter` says that it is the section of the handler otherwise.
* `Aligned` is what is expected between two pieces of code under the lock.
* `broadcast_aligned`: it holds in every run, whatever the requests are.
-/

namespace FlashReduce
namespace Controller
namespace Broadcast

open Library

/-! ### Who appended an element -/

/-- For each element of the three lists the number of the call that appended it. -/
structure Origins where
  values : List Nat
  bitmap : List Nat
  events : List Nat
  deriving DecidableEq

abbrev TrackedHandler := Fallible (State × Origins) PyError

/-- `deleteOp`; an element takes its origin with it. -/
def trackedDeleteOp (i : Nat) : TrackedHandler Unit := do
  let bitmap ← Fallible.demand (deleteAt (← Fallible.read).1.bitmap i) .indexError
  Fallible.modify fun s =>
    ({ s.1 with bitmap := bitmap }, { s.2 with bitmap := s.2.bitmap.eraseIdx i })
  let values ← Fallible.demand (deleteAt (← Fallible.read).1.values i) .indexError
  Fallible.modify fun s =>
    ({ s.1 with values := values }, { s.2 with values := s.2.values.eraseIdx i })
  let events ← Fallible.demand (deleteAt (← Fallible.read).1.events i) .indexError
  Fallible.modify fun s =>
    ({ s.1 with events := events }, { s.2 with events := s.2.events.eraseIdx i })

/-- `cleanupBelow` -/
def trackedCleanupBelow : Nat → TrackedHandler Unit
  | 0 => pure ()
  | i + 1 => do
      let row ← Fallible.demand (← Fallible.read).1.bitmap[i]? .indexError
      if row.all id then trackedDeleteOp i
      trackedCleanupBelow i

/-- `createOp` in the given call. -/
def trackedCreateOp (call numWorkers : Nat) : TrackedHandler Nat := do
  let idx := (← Fallible.read).1.bitmap.length
  Fallible.modify fun s =>
    ({ s.1 with bitmap := s.1.bitmap ++ [List.replicate numWorkers false] },
      { s.2 with bitmap := s.2.bitmap ++ [call] })
  Fallible.modify fun s =>
    ({ s.1 with values := s.1.values ++ [none] }, { s.2 with values := s.2.values ++ [call] })
  Fallible.modify fun s =>
    ({ s.1 with
        events := s.1.events ++ [s.1.eventFlags.length]
        eventFlags := s.1.eventFlags ++ [false] },
      { s.2 with events := s.2.events ++ [call] })
  pure idx

/-- `enter` in the given call; after the selection of a position no list changes its
length. -/
def trackedEnter (call : Nat) (request : Request) : TrackedHandler Outcome := do
  trackedCleanupBelow (← Fallible.read).1.bitmap.length
  let found ← Fallible.onState (searchFrom request.rank 0 (← Fallible.read).1.bitmap)
  let idx ← match found with
    | some i => pure i
    | none => trackedCreateOp call request.numWorkers
  Fallible.onState (serve request idx)

/-- The origins after a move.  A later piece of a call appends and deletes nothing. -/
def Origins.after (o : Origins) : System × Action → Origins
  | (s, .enter request) => (trackedEnter s.calls.length request (s.state, o)).2.2
  | (_, .resume _) => o

/-- The origins after a run; the calls are numbered as they enter. -/
def originsOf (history : List (System × Action)) : Origins :=
  history.foldl Origins.after ⟨[], [], []⟩

/-! ### The ghost state can be erased -/

theorem erases_trackedDeleteOp (i : Nat) : Fallible.Erases (trackedDeleteOp i) (deleteOp i) := by
  refine Fallible.erases_read fun s _ => .bind (Fallible.erases_demand _ _) fun bitmap => ?_
  refine .bind (Fallible.erases_modify fun _ _ => rfl) fun _ => ?_
  refine Fallible.erases_read fun s _ => .bind (Fallible.erases_demand _ _) fun values => ?_
  refine .bind (Fallible.erases_modify fun _ _ => rfl) fun _ => ?_
  refine Fallible.erases_read fun s _ => .bind (Fallible.erases_demand _ _) fun events => ?_
  exact Fallible.erases_modify fun _ _ => rfl

theorem erases_trackedCleanupBelow (i : Nat) :
    Fallible.Erases (trackedCleanupBelow i) (cleanupBelow i) := by
  induction i with
  | zero => exact Fallible.erases_pure ()
  | succ i ih =>
      refine Fallible.erases_read fun s _ => .bind (Fallible.erases_demand _ _) fun row => ?_
      by_cases hall : row.all id = true
      · simp only [hall, if_true]
        exact .bind (erases_trackedDeleteOp i) fun _ => ih
      · simp only [hall, Bool.false_eq_true, if_false]
        exact ih

theorem erases_trackedCreateOp (call numWorkers : Nat) :
    Fallible.Erases (trackedCreateOp call numWorkers) (createOp numWorkers) :=
  fun _ _ => ⟨rfl, rfl⟩

/-- **The ghost state can be erased**: `trackedEnter` returns or raises what `enter` does and
leaves the same lists. -/
theorem erases_trackedEnter (call : Nat) (request : Request) :
    Fallible.Erases (trackedEnter call request) (enter request) := by
  refine Fallible.erases_read fun s _ => .bind (erases_trackedCleanupBelow _) fun _ => ?_
  refine Fallible.erases_read fun s _ => .bind (Fallible.erases_onState _) fun found => ?_
  cases found with
  | some i => exact Fallible.erases_onState (serve request i)
  | none =>
      exact .bind (erases_trackedCreateOp call request.numWorkers) fun idx =>
        Fallible.erases_onState (serve request idx)

/-! ### The lists with their origins as one list -/

/-- The same origins for the three lists. -/
def Origins.same (os : List Nat) : Origins := ⟨os, os, os⟩

/-- The lists and the origins whose columns are a list of operations with the calls that
created them. -/
def trackedOf (ts : List (Entry × Nat)) (flags : List Bool) : State × Origins :=
  (ofEntries (ts.map Prod.fst) flags, .same (ts.map Prod.snd))

theorem trackedDeleteOp_apply (front back : List (Entry × Nat)) (t : Entry × Nat)
    (flags : List Bool) :
    trackedDeleteOp front.length (trackedOf (front ++ t :: back) flags) =
      (.ok (), trackedOf (front ++ back) flags) := by
  have hdelete {α : Type} (f : Entry × Nat → α) :
      deleteAt ((front ++ t :: back).map f) front.length = some ((front ++ back).map f) := by
    have hlength : front.length = (front.map f).length := by simp
    rw [List.map_append, List.map_cons, hlength, deleteAt_middle, List.map_append]
  have herase : ((front ++ t :: back).map Prod.snd).eraseIdx front.length =
      (front ++ back).map Prod.snd := by
    have hlength : front.length = (front.map Prod.snd).length := by simp
    rw [List.map_append, List.map_cons, hlength,
      List.eraseIdx_append_of_length_le (Nat.le_refl _)]
    simp
  have hbitmap := hdelete (Entry.row ∘ Prod.fst)
  have hvalues := hdelete (Entry.value ∘ Prod.fst)
  have hevents := hdelete (Entry.event ∘ Prod.fst)
  simp only [← List.map_map] at hbitmap hvalues hevents
  simp only [trackedDeleteOp, trackedOf, Origins.same, Fallible.bind_apply, Fallible.read_apply,
    ofEntries_bitmap, hbitmap, Fallible.demand_some, Fallible.pure_apply, Fallible.modify_apply,
    ofEntries_values, hvalues, ofEntries_events, hevents, herase]
  rfl

/-- The cleanup loop with the origins. -/
theorem trackedCleanupBelow_apply (front back : List (Entry × Nat)) (flags : List Bool) :
    trackedCleanupBelow front.length (trackedOf (front ++ back) flags) =
      (.ok (), trackedOf (front.filter (fun t => t.1.isOpen) ++ back) flags) := by
  induction front using List.reverseRecOn generalizing back with
  | nil => rfl
  | append_singleton front t ih =>
      have hlength : (front ++ [t]).length = front.length + 1 := by simp
      have hrow : (trackedOf (front ++ t :: back) flags).1.bitmap[front.length]? =
          some t.1.row := by
        simp [trackedOf]
      rw [hlength, List.append_assoc, List.singleton_append]
      simp only [trackedCleanupBelow, Fallible.bind_apply, Fallible.read_apply, hrow,
        Fallible.demand_some, Fallible.pure_apply]
      by_cases hall : t.1.row.all id = true
      · simp only [hall, if_true, Fallible.bind_apply, trackedDeleteOp_apply]
        rw [ih, List.filter_append]
        simp [Entry.isOpen, hall]
      · simp only [hall, if_false, Bool.false_eq_true]
        rw [ih, List.filter_append]
        simp [Entry.isOpen, hall]

/-- The origins after the first locked section of a call. -/
theorem trackedEnter_origins (call : Nat) (request : Request) (ts : List (Entry × Nat))
    (flags : List Bool) :
    (trackedEnter call request (trackedOf ts flags)).2.2 =
      .same ((ts.filter fun t => t.1.isOpen).map Prod.snd ++
        if (ofEntries (ts.map Prod.fst) flags).search request.rank = .ok none then [call]
        else []) := by
  have hcleanup := trackedCleanupBelow_apply ts [] flags
  rw [List.append_nil, List.append_nil] at hcleanup
  have hlength : (trackedOf ts flags).1.bitmap.length = ts.length := by simp [trackedOf]
  have hopen : (trackedOf (ts.filter fun t => t.1.isOpen) flags).1.bitmap =
      ((ts.map Prod.fst).filter Entry.isOpen).map Entry.row := by
    rw [List.filter_map]
    rfl
  have hsearch := search_ofEntries (ts.map Prod.fst) flags request.rank
    (trackedOf (ts.filter fun t => t.1.isOpen) flags).1
  have hfind : Fallible.onState (searchFrom request.rank 0
      (((ts.map Prod.fst).filter Entry.isOpen).map Entry.row))
      (trackedOf (ts.filter fun t => t.1.isOpen) flags) =
      ((ofEntries (ts.map Prod.fst) flags).search request.rank,
        trackedOf (ts.filter fun t => t.1.isOpen) flags) := by
    unfold Fallible.onState
    rw [hsearch]
  unfold trackedEnter
  simp only [Fallible.bind_apply, Fallible.read_apply, hlength, hcleanup, hopen, hfind]
  cases hfound : (ofEntries (ts.map Prod.fst) flags).search request.rank with
  | error e => simp [trackedOf]
  | ok found =>
      cases found with
      | some idx => simp [trackedOf]
      | none => simp [trackedOf, trackedCreateOp, Origins.same]

/-! ### Alignment -/

/-- What is expected of the three lists: equal lengths, equal origins in the order of the
calls, values exactly where events are set, and a cleanup loop that keeps exactly the
positions whose row is not all `True`. -/
structure Aligned (s : System) (o : Origins) : Prop where
  values_length : s.state.values.length = s.state.bitmap.length
  events_length : s.state.events.length = s.state.bitmap.length
  origins_length : o.bitmap.length = s.state.bitmap.length
  values_origins : o.values = o.bitmap
  events_origins : o.events = o.bitmap
  creation_order : o.bitmap.Pairwise (· < ·)
  created : ∀ call ∈ o.bitmap, call < s.calls.length
  valued : ∀ (i event : Nat), s.state.events[i]? = some event →
    ((∃ value, s.state.values[i]? = some (some value)) ↔
      s.state.eventFlags[event]? = some true)
  cleanup : cleanupBelow s.state.bitmap.length s.state =
    (.ok (), { s.state with
      values := s.state.kept s.state.values
      bitmap := s.state.kept s.state.bitmap
      events := s.state.kept s.state.events })

/-- The invariant: the lists and the origins are the columns of one list. -/
structure Tracks (s : System) (o : Origins) (ts : List (Entry × Nat)) (flags : List Bool) :
    Prop where
  columns : (s.state, o) = trackedOf ts flags
  entries : Columns (ts.map Prod.fst) flags
  ordered : (ts.map Prod.snd).Pairwise (· < ·)
  created : ∀ call ∈ ts.map Prod.snd, call < s.calls.length

theorem Tracks.aligned {s : System} {o : Origins} {ts : List (Entry × Nat)} {flags : List Bool}
    (h : Tracks s o ts flags) : Aligned s o := by
  obtain ⟨state, calls⟩ := s
  obtain ⟨hstate, horigins⟩ := Prod.mk.inj h.columns
  subst hstate horigins
  have hcleanup := cleanupBelow_apply (ts.map Prod.fst) [] flags
  rw [List.append_nil, List.append_nil] at hcleanup
  refine ⟨?_, ?_, ?_, rfl, rfl, h.ordered, h.created, ?_, ?_⟩
  · simp
  · simp
  · simp [Origins.same]
  · intro i event hevent
    rw [ofEntries_events, List.getElem?_map] at hevent
    obtain ⟨e, he, rfl⟩ := Option.map_eq_some_iff.mp hevent
    have hvalued := h.entries.valued e (List.mem_of_getElem? he)
    rw [ofEntries_values, List.getElem?_map, he, ofEntries_eventFlags, hvalued]
    cases hvalue : e.value <;> simp [hvalue]
  · rw [ofEntries_bitmap, List.length_map, hcleanup, ofEntries_values, ofEntries_events,
      kept_ofEntries, kept_ofEntries, kept_ofEntries]
    rfl

/-- A section creates an operation exactly when the search finds none. -/
theorem Section.length_eq {request : Request} {es es' : List Entry} {flags flags' : List Bool}
    {result : Except PyError Outcome} (h : Section request es flags result es' flags') :
    es'.length = (es.filter Entry.isOpen).length +
      if (ofEntries es flags).search request.rank = .ok none then 1 else 0 := by
  cases h with
  | reject hsearch => simp [hsearch]
  | fill hsearch | wait hsearch | pick hsearch => simp [hsearch]
  | createFill hsearch | createRaise hsearch | createWait hsearch => simp [hsearch]

/-- Operations and as many origins are the columns of one list. -/
theorem Tracks.of_columns {s : System} {es : List Entry} {os : List Nat} {flags : List Bool}
    (hstate : s.state = ofEntries es flags) (hlength : es.length = os.length)
    (hcolumns : Columns es flags) (hordered : os.Pairwise (· < ·))
    (hcreated : ∀ call ∈ os, call < s.calls.length) : Tracks s (.same os) (es.zip os) flags := by
  have hfst : (es.zip os).map Prod.fst = es := List.map_fst_zip (Nat.le_of_eq hlength)
  have hsnd : (es.zip os).map Prod.snd = os := List.map_snd_zip (Nat.le_of_eq hlength.symm)
  refine ⟨?_, hfst.symm ▸ hcolumns, hsnd.symm ▸ hordered, hsnd.symm ▸ hcreated⟩
  rw [trackedOf, hfst, hsnd, hstate]

/-- The first locked section of a call keeps the lists and the origins in step. -/
theorem Tracks.enter {s t : System} {o : Origins} {ts : List (Entry × Nat)} {flags : List Bool}
    (h : Tracks s o ts flags) {request : Request} (hstep : step s (.enter request) = some t) :
    ∃ ts' flags', Tracks t (o.after (s, .enter request)) ts' flags' := by
  obtain ⟨state, calls⟩ := s
  obtain ⟨hstate, horigins⟩ := Prod.mk.inj h.columns
  subst hstate horigins
  obtain ⟨es', flags', ht, hpiece⟩ := step_piece hstep
  have hcolumns := hpiece.columns h.entries
  generalize hcalls : t.calls = calls' at hpiece
  cases hpiece with
  | enter hsection =>
      have hafter : Origins.after (.same (ts.map Prod.snd))
          (⟨ofEntries (ts.map Prod.fst) flags, calls⟩, .enter request) = _ :=
        trackedEnter_origins calls.length request ts flags
      have hopen : ((ts.filter fun t => t.1.isOpen).map Prod.snd).Sublist (ts.map Prod.snd) :=
        List.filter_sublist.map _
      have hearlier : ∀ call ∈ ts.map Prod.snd, call < calls.length := h.created
      rw [hafter]
      -- the operations that are kept have their origins, and a new one has the last call
      refine ⟨_, flags', Tracks.of_columns ht ?_ hcolumns ?_ ?_⟩
      · rw [hsection.length_eq, List.filter_map]
        split <;> simp [Function.comp_def]
      · refine List.pairwise_append.mpr ⟨h.ordered.sublist hopen, by split <;> simp, ?_⟩
        intro a ha b hb
        split at hb
        · rw [List.mem_singleton.mp hb]
          exact hearlier a (hopen.subset ha)
        · cases hb
      · rw [hcalls]
        intro call hcall
        rw [List.length_append, List.length_singleton]
        rcases List.mem_append.mp hcall with hold | hnew
        · exact Nat.lt_succ_of_lt (hearlier call (hopen.subset hold))
        · split at hnew
          · rw [List.mem_singleton.mp hnew]
            exact Nat.lt_succ_self _
          · cases hnew

/-- A later piece of a call changes at most a row. -/
theorem Tracks.resume {s t : System} {o : Origins} {ts : List (Entry × Nat)} {flags : List Bool}
    (h : Tracks s o ts flags) {index : Nat} (hstep : step s (.resume index) = some t) :
    ∃ ts' flags', Tracks t o ts' flags' := by
  obtain ⟨state, calls⟩ := s
  obtain ⟨hstate, horigins⟩ := Prod.mk.inj h.columns
  subst hstate horigins
  obtain ⟨es', flags', ht, hpiece⟩ := step_piece hstep
  have hcolumns := hpiece.columns h.entries
  have hkept : t.calls.length = calls.length ∧ es'.length = (ts.map Prod.fst).length := by
    generalize t.calls = calls' at hpiece
    cases hpiece <;> simp
  have hlength : es'.length = (ts.map Prod.snd).length := by
    rw [hkept.2, List.length_map, List.length_map]
  have hcreated : ∀ call ∈ ts.map Prod.snd, call < t.calls.length := by
    rw [hkept.1]
    exact h.created
  exact ⟨_, flags', .of_columns ht hlength hcolumns h.ordered hcreated⟩

/-- **The lists are aligned** in every run of any calls, also of calls that raise and of
calls that mark an outdated position. -/
theorem broadcast_aligned {history : List (System × Action)} {s : System}
    (hrun : machine.Run Machine.anyMove history s) : Aligned s (originsOf history) := by
  have htracks : ∃ ts flags, Tracks s (originsOf history) ts flags := by
    refine hrun.induction (fun history s => ∃ ts flags, Tracks s (originsOf history) ts flags) ?_ ?_
    · rintro s rfl
      exact ⟨[], [], rfl, ⟨List.Pairwise.nil, nofun⟩, List.Pairwise.nil, nofun⟩
    · rintro history s action t - ⟨ts, flags, h⟩ - hstep
      have hafter : originsOf (history ++ [(s, action)]) =
          (originsOf history).after (s, action) := by
        rw [originsOf, List.foldl_append]
        rfl
      rw [hafter]
      cases action with
      | enter request => exact h.enter hstep
      | resume index => exact h.resume hstep
  obtain ⟨ts, flags, h⟩ := htracks
  exact h.aligned

/-- A call raises and leaves an operation behind, the second call is served there, and the
third one removes it and creates its own. -/
theorem broadcast_aligned_raised :
    ∃ (history : List (System × Action)) (s : System),
      s.state.values = [some 6] ∧ originsOf history = .same [2] ∧
        Aligned s (originsOf history) := by
  have hrun := Machine.run_of_exec machine Machine.anyMove ⟨.initial, []⟩
    [.enter ⟨9, 1, 1, 1⟩, .enter ⟨5, 0, 1, 0⟩, .enter ⟨6, 0, 1, 0⟩] rfl rfl
  exact ⟨_, _, rfl, rfl, broadcast_aligned hrun⟩

end Broadcast
end Controller
end FlashReduce
