import FlashReduce.Controller.BroadcastSection

/-!
# Broadcast calls that raise

A call of `Broadcast` raises when a row is too short for its rank in the search loop, when
the rank of the root lies beyond the operation that the root has just created, or when the
position that it kept is gone.

* `Trimmed` compares the fields before and after a piece of a call: nothing has changed but
  for the removal of operations that have served every rank.
* `Raises` and `LeavesAlone` tell from the state before a piece whether it raises, and
  whether it leaves the operations and the events alone.  A piece raises in one of three
  ways: `Rejected`, `EntersOutside` and `PositionGone`.
* `broadcast_failure_intact`: in a run, the calls that raised have changed nothing exactly
  when no root enters outside of the operation that it creates, and no call finds its
  position gone unless it only joined an operation that waits for its root (`Joins`).
  `broadcast_failure_leftover` is a request that is rejected only after it has published
  its value.
-/

namespace FlashReduce
namespace Controller
namespace Broadcast

open Library

/-- The fields are the same up to the removal of operations that have served every rank. -/
def Trimmed (before after : State) : Prop :=
  ∃ es es' flags, before = ofEntries es flags ∧ after = ofEntries es' flags ∧
    es'.Sublist es ∧ ∀ e ∈ es, e.isOpen = true → e ∈ es'

/-- The move is a piece of the call. -/
def OfCall (index : Nat) : System × Action → Prop
  | (s, .enter _) => s.calls.length = index
  | (_, .resume i) => i = index

/-- The call has raised. -/
def HasRaised (s : System) (index : Nat) : Prop :=
  ∃ call error, s.calls[index]? = some call ∧ call.phase = .raised error

/-- Every piece of a call that raised left the operations and the events alone. -/
def FailuresIntact (history : List (System × Action)) (s : System) : Prop :=
  ∀ index, HasRaised s index → ∀ move ∈ history, OfCall index move →
    ∀ t, step move.1 move.2 = some t → Trimmed move.1.state t.state

/-- The piece will raise: the search meets a row that is too short for the rank, or finds
nothing for a root whose rank is not below `num_workers`; or the kept position, or the bit
of the rank there, does not exist. -/
def Raises (s : System) : Action → Prop
  | .enter request =>
      s.state.search request.rank = .error .indexError ∨
        s.state.search request.rank = .ok none ∧ request.rank = request.root ∧
          request.numWorkers ≤ request.rank
  | .resume i => ∃ call idx, s.calls[i]? = some call ∧
      (call.phase = .woken idx ∧ s.state.bit idx call.request.rank = none ∨
        call.phase = .served idx ∧ s.state.values[idx]? = none)

/-- The piece creates no operation, stores no value and sets no bit that was not set. -/
def LeavesAlone (s : System) : Action → Prop
  | .enter request =>
      s.state.search request.rank = .error .indexError ∨
        ∃ idx, s.state.search request.rank = .ok (some idx) ∧ request.rank ≠ request.root ∧
          (s.state.kept s.state.values)[idx]? = some none
  | .resume i => ∀ call idx, s.calls[i]? = some call → call.phase = .woken idx →
      s.state.bit idx call.request.rank ≠ some false

/-- The search meets a row that is too short for the rank. -/
def Rejected (s : System) : Action → Prop
  | .enter request => s.state.search request.rank = .error .indexError
  | .resume _ => False

/-- A root enters whose rank is not below `num_workers`, and every open operation has the bit of
that rank set. -/
def EntersOutside (s : System) : Action → Prop
  | .enter request => s.state.search request.rank = .ok none ∧ request.rank = request.root ∧
      request.numWorkers ≤ request.rank
  | .resume _ => False

/-- A call that resumes finds that the position it kept, or the bit of its rank there, is
gone. -/
def PositionGone (s : System) : Action → Prop
  | .enter _ => False
  | .resume i => ∃ call idx, s.calls[i]? = some call ∧
      (call.phase = .woken idx ∧ s.state.bit idx call.request.rank = none ∨
        call.phase = .served idx ∧ s.state.values[idx]? = none)

/-- The call joins an operation as a non-root while the value is not there, or it marks a bit
only if that is set already. -/
def Joins (s : System) : Action → Prop
  | .enter request => ∃ idx, s.state.search request.rank = .ok (some idx) ∧
      request.rank ≠ request.root ∧ (s.state.kept s.state.values)[idx]? = some none
  | .resume i => ∀ call idx, s.calls[i]? = some call → call.phase = .woken idx →
      s.state.bit idx call.request.rank ≠ some false

theorem raises_iff {s : System} {action : Action} :
    Raises s action ↔ Rejected s action ∨ EntersOutside s action ∨ PositionGone s action := by
  cases action <;> simp [Raises, Rejected, EntersOutside, PositionGone]

theorem leavesAlone_iff {s : System} {action : Action} :
    LeavesAlone s action ↔ Rejected s action ∨ Joins s action := by
  cases action <;> simp [LeavesAlone, Rejected, Joins]

theorem EntersOutside.not_leavesAlone {s : System} {action : Action}
    (h : EntersOutside s action) : ¬ LeavesAlone s action := by
  cases action with
  | enter request =>
      rintro (hreject | ⟨idx, hfound, -⟩)
      · cases h.1.symm.trans hreject
      · cases h.1.symm.trans hfound
  | resume i => exact absurd h id

/-! ### One piece -/

section OnePiece

variable {es es' : List Entry} {flags flags' : List Bool} {calls calls' : List Call}
  {action : Action}

/-- The columns determine the operations. -/
theorem ofEntries_inj (h : ofEntries es flags = ofEntries es' flags') :
    es = es' ∧ flags = flags' := by
  obtain ⟨hvalues, hrows, hevents, hflags⟩ := State.mk.inj h
  refine ⟨List.ext_getElem? fun i => ?_, hflags⟩
  have hvalue := congrArg (·[i]?) hvalues
  have hrow := congrArg (·[i]?) hrows
  have hevent := congrArg (·[i]?) hevents
  simp only [List.getElem?_map] at hvalue hrow hevent
  cases hold : es[i]? with
  | none =>
      rw [hold] at hvalue
      exact (Option.map_eq_none_iff.mp hvalue.symm).symm
  | some e =>
      cases hnew : es'[i]? with
      | none => simp [hold, hnew] at hvalue
      | some e' =>
          simp only [hold, hnew, Option.map_some, Option.some.injEq] at hvalue hrow hevent
          obtain ⟨value, row, event⟩ := e
          obtain ⟨value', row', event'⟩ := e'
          rw [show value = value' from hvalue, show row = row' from hrow,
            show event = event' from hevent]

theorem trimmed_iff : Trimmed (ofEntries es flags) (ofEntries es' flags') ↔
    flags' = flags ∧ es'.Sublist es ∧ ∀ e ∈ es, e.isOpen = true → e ∈ es' := by
  constructor
  · rintro ⟨old, new, both, hbefore, hafter, hsublist, hopen⟩
    obtain ⟨rfl, rfl⟩ := ofEntries_inj hbefore
    obtain ⟨rfl, rfl⟩ := ofEntries_inj hafter
    exact ⟨rfl, hsublist, hopen⟩
  · rintro ⟨rfl, hsublist, hopen⟩
    exact ⟨es, es', _, rfl, rfl, hsublist, hopen⟩

theorem trimmed_refl : Trimmed (ofEntries es flags) (ofEntries es flags) :=
  trimmed_iff.mpr ⟨rfl, List.Sublist.refl es, fun _ he _ => he⟩

theorem trimmed_cleanup :
    Trimmed (ofEntries es flags) (ofEntries (es.filter Entry.isOpen) flags) :=
  trimmed_iff.mpr ⟨rfl, List.filter_sublist, fun _ he hopen => List.mem_filter.mpr ⟨he, hopen⟩⟩

/-- A bit that was not set is set. -/
theorem not_trimmed_of_marked (h : Columns es flags) {e new : Entry} {rank : Nat} (he : e ∈ es)
    (hunserved : e.row[rank]? = some false) (hnew : new ∈ es') (hevent : new.event = e.event)
    (hserved : new.row[rank]? = some true) :
    ¬ Trimmed (ofEntries es flags) (ofEntries es' flags') := by
  intro htrimmed
  obtain ⟨-, hsublist, -⟩ := trimmed_iff.mp htrimmed
  have hsame := h.increasing.eq_of_event (hsublist.subset hnew) he hevent
  rw [hsame, hunserved] at hserved
  cases hserved

/-- An event is created. -/
theorem not_trimmed_of_created {flag : Bool} :
    ¬ Trimmed (ofEntries es flags) (ofEntries es' (flags ++ [flag])) := by
  intro htrimmed
  have hlength := congrArg List.length (trimmed_iff.mp htrimmed).1
  rw [List.length_append, List.length_singleton] at hlength
  omega

theorem mark_row_get {e : Entry} {rank : Nat} (hrank : rank < e.row.length) :
    (e.mark rank).row[rank]? = some true := by
  rw [Entry.mark_row, List.getElem?_set_self hrank]

/-- The first locked section leaves the operations alone when the search raises, or when the
call waits for an operation that is there. -/
theorem Section.trimmed_iff {request : Request} {result : Except PyError Outcome}
    (hsection : Section request es flags result es' flags') (h : Columns es flags) :
    Trimmed (ofEntries es flags) (ofEntries es' flags') ↔
      LeavesAlone ⟨ofEntries es flags, calls⟩ (.enter request) := by
  have hkept : (ofEntries es flags).kept (ofEntries es flags).values =
      (es.filter Entry.isOpen).map Entry.value := kept_ofEntries es flags Entry.value
  cases hsection with
  | reject hsearch => exact iff_of_true trimmed_cleanup (.inl hsearch)
  | @wait idx e hsearch he hunserved hroot hvalue =>
      refine iff_of_true trimmed_cleanup (.inr ⟨idx, hsearch, hroot, ?_⟩)
      show ((ofEntries es flags).kept (ofEntries es flags).values)[idx]? = some none
      rw [hkept, List.getElem?_map, he, Option.map_some, hvalue]
  | @fill idx e hsearch he hunserved hroot =>
      have hlt := (List.getElem?_eq_some_iff.mp he).1
      have hrank := (List.getElem?_eq_some_iff.mp hunserved).1
      refine iff_of_false (not_trimmed_of_marked h
        (List.mem_of_mem_filter (List.mem_of_getElem? he)) hunserved (List.mem_set hlt _) rfl
        (mark_row_get hrank)) ?_
      rintro (hreject | ⟨_, -, hne, -⟩)
      · cases hsearch.symm.trans hreject
      · exact hne hroot
  | @pick idx e hsearch he hunserved hroot hvalue =>
      have hlt := (List.getElem?_eq_some_iff.mp he).1
      have hrank := (List.getElem?_eq_some_iff.mp hunserved).1
      refine iff_of_false (not_trimmed_of_marked h
        (List.mem_of_mem_filter (List.mem_of_getElem? he)) hunserved (List.mem_set hlt _) rfl
        (mark_row_get hrank)) ?_
      rintro (hreject | ⟨idx', hfound, -, hnone⟩)
      · cases hsearch.symm.trans hreject
      · cases hsearch.symm.trans hfound
        have hget : ((ofEntries es flags).kept (ofEntries es flags).values)[idx]? = some none :=
          hnone
        rw [hkept, List.getElem?_map, he] at hget
        exact hvalue (Option.some.inj hget)
  | createFill hsearch | createRaise hsearch | createWait hsearch =>
      refine iff_of_false not_trimmed_of_created ?_
      rintro (hreject | ⟨_, hfound, -⟩)
      · cases hsearch.symm.trans hreject
      · cases hsearch.symm.trans hfound

/-- **What a piece changes** can be told from the state before it. -/
theorem Piece.trimmed_iff (hpiece : Piece es flags calls action es' flags' calls')
    (h : Columns es flags) :
    Trimmed (ofEntries es flags) (ofEntries es' flags') ↔
      LeavesAlone ⟨ofEntries es flags, calls⟩ action := by
  have hother {i : Nat} {call : Call} (hcall : calls[i]? = some call)
      (hphase : ∀ idx, call.phase = .woken idx →
        (ofEntries es flags).bit idx call.request.rank ≠ some false) :
      LeavesAlone ⟨ofEntries es flags, calls⟩ (.resume i) := by
    intro call' idx' hcall' hphase'
    cases hcall.symm.trans hcall'
    exact hphase idx' hphase'
  cases hpiece with
  | enter hsection => exact hsection.trimmed_iff h
  | wake hcall hphase | read hcall hphase | missing hcall hphase =>
      refine iff_of_true trimmed_refl (hother hcall fun idx hwoken => ?_)
      cases hphase.symm.trans hwoken
  | gone hcall hphase hbit =>
      refine iff_of_true trimmed_refl (hother hcall fun idx hwoken => ?_)
      cases hphase.symm.trans hwoken
      simp [hbit]
  | @mark i call idx e hcall hphase he hrank =>
      have hbit : (ofEntries es flags).bit idx call.request.rank = e.row[call.request.rank]? := by
        simp [State.bit, he]
      have hget := List.getElem?_eq_getElem hrank
      cases hserved : e.row[call.request.rank] with
      | true =>
          rw [hserved] at hget
          have hsame : e.mark call.request.rank = e := by
            rw [Entry.mark, ← hserved, List.set_getElem_self]
          have hset : es.set idx e = es := by
            obtain ⟨hlt, hidx⟩ := List.getElem?_eq_some_iff.mp he
            rw [← hidx, List.set_getElem_self]
          rw [hsame, hset]
          refine iff_of_true trimmed_refl (hother hcall fun idx' hwoken => ?_)
          cases hphase.symm.trans hwoken
          simp [hbit, hget]
      | false =>
          rw [hserved] at hget
          have hlt := (List.getElem?_eq_some_iff.mp he).1
          refine iff_of_false (not_trimmed_of_marked h (List.mem_of_getElem? he) hget
            (List.mem_set hlt _) rfl (mark_row_get hrank)) ?_
          intro halone
          exact halone call idx hcall hphase (hbit.trans hget)

/-- Whether the first locked section raises. -/
theorem Section.raised_iff {request : Request} {result : Except PyError Outcome}
    (hsection : Section request es flags result es' flags') :
    (∃ error, phaseOf result = .raised error) ↔
      Raises ⟨ofEntries es flags, calls⟩ (.enter request) := by
  cases hsection with
  | reject hsearch => exact iff_of_true ⟨_, rfl⟩ (.inl hsearch)
  | createRaise hsearch hroot hrank => exact iff_of_true ⟨_, rfl⟩ (.inr ⟨hsearch, hroot, hrank⟩)
  | fill hsearch | wait hsearch | pick hsearch =>
      refine iff_of_false nofun ?_
      rintro (hreject | ⟨hnone, -⟩)
      · cases hsearch.symm.trans hreject
      · cases hsearch.symm.trans hnone
  | createFill hsearch hroot hrank =>
      refine iff_of_false nofun ?_
      rintro (hreject | ⟨-, -, hle⟩)
      · cases hsearch.symm.trans hreject
      · exact absurd hrank (Nat.not_lt.mpr hle)
  | createWait hsearch hroot =>
      refine iff_of_false nofun ?_
      rintro (hreject | ⟨-, hsame, -⟩)
      · cases hsearch.symm.trans hreject
      · exact hroot hsame

/-- A call whose kept position is still there does not raise. -/
theorem not_raises_resume {i : Nat} {call : Call} (hold : calls[i]? = some call)
    (hbit : ∀ idx, call.phase = .woken idx →
      (ofEntries es flags).bit idx call.request.rank ≠ none)
    (hvalue : ∀ idx, call.phase = .served idx → (ofEntries es flags).values[idx]? ≠ none) :
    ¬ Raises ⟨ofEntries es flags, calls⟩ (.resume i) := by
  rintro ⟨call', idx, hcall', ⟨hwoken, hnone⟩ | ⟨hserved, hnone⟩⟩
  · cases hold.symm.trans hcall'
    exact hbit idx hwoken hnone
  · cases hold.symm.trans hcall'
    exact hvalue idx hserved hnone

/-- **Whether a piece raises** can be told from the state before it. -/
theorem Piece.raised_iff {index : Nat} {state : State}
    (hpiece : Piece es flags calls action es' flags' calls')
    (hcall : OfCall index (⟨ofEntries es flags, calls⟩, action)) :
    HasRaised ⟨state, calls'⟩ index ↔ Raises ⟨ofEntries es flags, calls⟩ action := by
  -- the phase of the call that took the step
  have hnext {i : Nat} {call : Call} {phase : Phase} (hold : calls[i]? = some call) :
      HasRaised ⟨state, calls.set i { call with phase := phase }⟩ i ↔
        ∃ error, phase = .raised error := by
    have hget : (calls.set i { call with phase := phase })[i]? =
        some { call with phase := phase } :=
      List.getElem?_set_self (List.getElem?_eq_some_iff.mp hold).1
    constructor
    · rintro ⟨call', error, hcall', hphase⟩
      obtain rfl := Option.some.inj (hget.symm.trans hcall')
      exact ⟨error, hphase⟩
    · rintro ⟨error, hphase⟩
      exact ⟨_, error, hget, hphase⟩
  cases hpiece with
  | @enter request result _ _ joined hsection =>
      obtain rfl : calls.length = index := hcall
      rw [← hsection.raised_iff]
      constructor
      · rintro ⟨call', error, hcall', hphase⟩
        obtain rfl := Option.some.inj (List.getElem?_concat_length.symm.trans hcall')
        exact ⟨error, hphase⟩
      · rintro ⟨error, hphase⟩
        exact ⟨_, error, List.getElem?_concat_length, hphase⟩
  | wake hold hphase =>
      obtain rfl := hcall
      rw [hnext hold]
      refine iff_of_false (by simp) (not_raises_resume hold ?_ ?_)
      · intro idx hwoken
        cases hphase.symm.trans hwoken
      · intro idx hserved
        cases hphase.symm.trans hserved
  | @mark i call idx e hold hphase he hrank =>
      obtain rfl := hcall
      rw [hnext hold]
      refine iff_of_false (by simp) (not_raises_resume hold ?_ ?_)
      · intro idx' hwoken
        cases hphase.symm.trans hwoken
        simp [State.bit, he, hrank]
      · intro idx' hserved
        cases hphase.symm.trans hserved
  | gone hold hphase hbit =>
      obtain rfl := hcall
      rw [hnext hold]
      exact iff_of_true ⟨_, rfl⟩ ⟨_, _, hold, .inl ⟨hphase, hbit⟩⟩
  | @read i call idx e hold hphase he =>
      obtain rfl := hcall
      rw [hnext hold]
      refine iff_of_false (by simp) (not_raises_resume hold ?_ ?_)
      · intro idx' hwoken
        cases hphase.symm.trans hwoken
      · intro idx' hserved
        cases hphase.symm.trans hserved
        simp [he]
  | @missing i call idx hold hphase he =>
      obtain rfl := hcall
      rw [hnext hold]
      refine iff_of_true ⟨_, rfl⟩ ⟨_, idx, hold, .inr ⟨hphase, ?_⟩⟩
      show (es.map Entry.value)[idx]? = none
      simp [he]

/-- The other calls stay where they are. -/
theorem Piece.raised_other {index : Nat} {state : State}
    (hpiece : Piece es flags calls action es' flags' calls')
    (hcall : ¬ OfCall index (⟨ofEntries es flags, calls⟩, action)) :
    HasRaised ⟨state, calls'⟩ index ↔ HasRaised ⟨ofEntries es flags, calls⟩ index := by
  have hget : calls'[index]? = calls[index]? := by
    cases hpiece with
    | enter hsection =>
        have hne : calls.length ≠ index := hcall
        rcases Nat.lt_or_gt_of_ne hne with hlt | hlt
        · rw [List.getElem?_eq_none (Nat.le_of_lt hlt), List.getElem?_eq_none]
          rw [List.length_append, List.length_singleton]
          omega
        · rw [List.getElem?_append_left hlt]
    | wake | mark | gone | read | missing => exact List.getElem?_set_ne hcall
  unfold HasRaised
  rw [hget]

/-- A call that raised takes no further step. -/
theorem Piece.unraised (state : State) {index : Nat}
    (hpiece : Piece es flags calls action es' flags' calls')
    (hcall : OfCall index (⟨ofEntries es flags, calls⟩, action)) :
    ¬ HasRaised ⟨state, calls⟩ index := by
  rintro ⟨call', error, hcall', hraised⟩
  cases hpiece with
  | enter hsection =>
      have hlength : calls.length = index := hcall
      have hlt : index < calls.length := (List.getElem?_eq_some_iff.mp hcall').1
      omega
  | wake hold hphase | mark hold hphase | gone hold hphase | read hold hphase
  | missing hold hphase =>
      obtain rfl := hcall
      cases hold.symm.trans hcall'
      cases hphase.symm.trans hraised

/-- A call is among the calls as soon as it has made a piece. -/
theorem Piece.index_lt {index : Nat}
    (hpiece : Piece es flags calls action es' flags' calls')
    (hcall : OfCall index (⟨ofEntries es flags, calls⟩, action)) : index < calls'.length := by
  cases hpiece with
  | enter hsection =>
      obtain rfl : calls.length = index := hcall
      rw [List.length_append]
      exact Nat.lt_succ_self _
  | wake hold | mark hold | gone hold | read hold | missing hold =>
      obtain rfl := hcall
      rw [List.length_set]
      exact (List.getElem?_eq_some_iff.mp hold).1

theorem Piece.length_le (hpiece : Piece es flags calls action es' flags' calls') :
    calls.length ≤ calls'.length := by
  cases hpiece with
  | enter hsection => exact (List.length_append ▸ Nat.le_add_right ..)
  | wake | mark | gone | read | missing => exact Nat.le_of_eq (List.length_set ..).symm

end OnePiece

/-! ### Runs -/

/-- A call has raised exactly when one of its pieces met a condition to raise. -/
theorem run_raised {history : List (System × Action)} {s : System}
    (hrun : machine.Run Machine.anyMove history s) (index : Nat) :
    HasRaised s index ↔ ∃ move ∈ history, OfCall index move ∧ Raises move.1 move.2 := by
  refine hrun.induction (fun history s =>
    HasRaised s index ↔ ∃ move ∈ history, OfCall index move ∧ Raises move.1 move.2) ?_ ?_
  · rintro s rfl
    simp [HasRaised]
  · rintro history ⟨_, calls⟩ action ⟨_, calls'⟩ hbefore ih - hstep
    obtain ⟨es, flags, rfl, -⟩ := reachable_columns hbefore.reachable
    obtain ⟨es', flags', rfl, hpiece⟩ := step_piece hstep
    simp only [List.mem_append, List.mem_singleton, or_and_right, exists_or, exists_eq_left]
    rw [← ih]
    by_cases hcall : OfCall index (⟨ofEntries es flags, calls⟩, action)
    · rw [hpiece.raised_iff hcall]
      have hunraised := hpiece.unraised (ofEntries es flags) hcall
      simp [hunraised, hcall]
    · rw [hpiece.raised_other hcall]
      simp [hcall]

/-- What a move of a run changes can be told from the state before it. -/
theorem run_trimmed {history : List (System × Action)} {s : System}
    (hrun : machine.Run Machine.anyMove history s) {move : System × Action}
    (hmove : move ∈ history) :
    (∀ t, step move.1 move.2 = some t → Trimmed move.1.state t.state) ↔
      LeavesAlone move.1 move.2 := by
  obtain ⟨hreach, next, hallowed⟩ := hrun.of_mem hmove
  obtain ⟨⟨_, calls⟩, action⟩ := move
  obtain ⟨es, flags, rfl, hcolumns⟩ := reachable_columns hreach
  have hstep : step ⟨ofEntries es flags, calls⟩ action = some next := hallowed.step
  obtain ⟨es', flags', hstate, hpiece⟩ := step_piece hstep
  rw [← hpiece.trimmed_iff hcolumns, ← hstate]
  constructor
  · exact fun h => h next hstep
  · intro h t ht
    cases hstep.symm.trans ht
    exact h

theorem run_index_lt {history : List (System × Action)} {s : System}
    (hrun : machine.Run Machine.anyMove history s) {index : Nat} :
    ∀ move ∈ history, OfCall index move → index < s.calls.length := by
  refine hrun.induction (fun history s =>
    ∀ move ∈ history, OfCall index move → index < s.calls.length) ?_ ?_
  · intro s _ move hmove
    cases hmove
  · rintro history ⟨_, calls⟩ action ⟨_, calls'⟩ hbefore ih - hstep move hmove hcall
    obtain ⟨es, flags, rfl, -⟩ := reachable_columns hbefore.reachable
    obtain ⟨es', flags', rfl, hpiece⟩ := step_piece hstep
    rcases List.mem_append.mp hmove with hold | hnew
    · exact Nat.lt_of_lt_of_le (ih move hold hcall) hpiece.length_le
    · obtain rfl := List.mem_singleton.mp hnew
      exact hpiece.index_lt hcall

/-- A call that is rejected in the search makes no other piece. -/
theorem run_rejected {history : List (System × Action)} {s : System}
    (hrun : machine.Run Machine.anyMove history s) {index : Nat} :
    ∀ move ∈ history, OfCall index move → Rejected move.1 move.2 →
      ∀ piece ∈ history, OfCall index piece → piece = move := by
  refine hrun.induction (fun history _ =>
    ∀ move ∈ history, OfCall index move → Rejected move.1 move.2 →
      ∀ piece ∈ history, OfCall index piece → piece = move) ?_ ?_
  · intro s _ move hmove
    cases hmove
  · rintro history ⟨_, calls⟩ action ⟨_, calls'⟩ hbefore ih - hstep move hmove hcall hrejected
      piece hpiece hof
    obtain ⟨es, flags, rfl, -⟩ := reachable_columns hbefore.reachable
    obtain ⟨es', flags', rfl, hlast⟩ := step_piece hstep
    rcases List.mem_append.mp hmove with hmove | hmove
    · rcases List.mem_append.mp hpiece with hpiece | hpiece
      · exact ih move hmove hcall hrejected piece hpiece hof
      · -- the call has raised before its last piece
        obtain rfl := List.mem_singleton.mp hpiece
        have hraised := (run_raised hbefore index).mpr
          ⟨move, hmove, hcall, raises_iff.mpr (.inl hrejected)⟩
        exact absurd hraised (hlast.unraised _ hof)
    · obtain rfl := List.mem_singleton.mp hmove
      rcases List.mem_append.mp hpiece with hpiece | hpiece
      · -- the call enters with its last piece
        have hlt := run_index_lt hbefore piece hpiece hof
        cases action with
        | enter request =>
            have hlength : calls.length = index := hcall
            have hlt : index < calls.length := hlt
            omega
        | resume i => exact absurd hrejected id
      · exact List.mem_singleton.mp hpiece

/-- **Failing calls.**  In a run, every piece of every call that raised has left the operations
and the events as they were, up to the removal of operations that served every rank, exactly
when

* no root enters whose rank is not below `num_workers` while every open operation has the bit
  of that rank set, and
* no call finds its position gone, unless it joined an operation as a non-root while the
  value was not there and has marked no bit that was not set. -/
theorem broadcast_failure_intact {history : List (System × Action)} {s : System}
    (hrun : machine.Run Machine.anyMove history s) :
    FailuresIntact history s ↔
      (∀ move ∈ history, ¬ EntersOutside move.1 move.2) ∧
      ∀ index, ∀ move ∈ history, OfCall index move → PositionGone move.1 move.2 →
        ∀ piece ∈ history, OfCall index piece → Joins piece.1 piece.2 := by
  have halone {index : Nat} (hintact : FailuresIntact history s) {move : System × Action}
      (hmove : move ∈ history) (hcall : OfCall index move) (hraises : Raises move.1 move.2)
      {piece : System × Action} (hpiece : piece ∈ history) (hof : OfCall index piece) :
      LeavesAlone piece.1 piece.2 := by
    have hraised := (run_raised hrun index).mpr ⟨move, hmove, hcall, hraises⟩
    exact (run_trimmed hrun hpiece).mp (hintact index hraised piece hpiece hof)
  constructor
  · intro hintact
    constructor
    · rintro ⟨s, action⟩ hmove houtside
      have hraises : Raises s action := raises_iff.mpr (.inr (.inl houtside))
      cases action with
      | enter request =>
          exact houtside.not_leavesAlone (halone hintact hmove rfl hraises hmove rfl)
      | resume i => exact houtside
    · intro index move hmove hcall hgone piece hpiece hof
      have hraises := raises_iff.mpr (.inr (.inr hgone))
      rcases leavesAlone_iff.mp (halone hintact hmove hcall hraises hpiece hof) with
        hrejected | hjoins
      · -- a call that was rejected would not have resumed
        obtain rfl := run_rejected hrun piece hpiece hof hrejected move hmove hcall
        obtain ⟨s, action⟩ := move
        cases action with
        | enter request => exact absurd hgone id
        | resume i => exact absurd hrejected id
      · exact hjoins
  · rintro ⟨hinside, hkept⟩ index hraised piece hpiece hof
    obtain ⟨move, hmove, hcall, hraises⟩ := (run_raised hrun index).mp hraised
    refine (run_trimmed hrun hpiece).mpr (leavesAlone_iff.mpr ?_)
    rcases raises_iff.mp hraises with hrejected | houtside | hgone
    · obtain rfl := run_rejected hrun move hmove hcall hrejected piece hpiece hof
      exact .inl hrejected
    · exact absurd houtside (hinside move hmove)
    · exact .inr (hkept index move hmove hcall hgone piece hpiece hof)

/-- A rank that is not served by the short row of another request is rejected in the search,
and has changed nothing. -/
theorem broadcast_failure_intact_rejected :
    ∃ (history : List (System × Action)) (s : System), HasRaised s 1 ∧
      FailuresIntact history s := by
  have hrun := Machine.run_of_exec machine Machine.anyMove ⟨.initial, []⟩
    [.enter ⟨0, 0, 1, 1⟩, .enter ⟨7, 1, 2, 1⟩] rfl rfl
  refine ⟨_, _, ⟨_, _, rfl, rfl⟩, (broadcast_failure_intact hrun).mpr ⟨?_, ?_⟩⟩
  · intro move hmove houtside
    rcases List.mem_cons.mp hmove with rfl | hmove
    · -- the first call is no root
      cases houtside.2.1
    · obtain rfl := List.mem_singleton.mp hmove
      cases houtside.1
  · intro index move hmove hcall hgone
    rcases List.mem_cons.mp hmove with rfl | hmove
    · cases hgone
    · obtain rfl := List.mem_singleton.mp hmove
      cases hgone

/-- Without the condition a rejected request leaves an operation behind and publishes its
value: the rank of the root is not below `num_workers`. -/
theorem broadcast_failure_leftover :
    ¬ ∀ (history : List (System × Action)) (s : System),
      machine.Run Machine.anyMove history s → FailuresIntact history s := by
  intro hall
  have hrun := Machine.run_of_exec machine Machine.anyMove ⟨.initial, []⟩
    [.enter ⟨7, 1, 1, 1⟩] rfl rfl
  have htrimmed := hall _ _ hrun 0 ⟨_, _, rfl, rfl⟩ _ List.mem_cons_self rfl _ rfl
  have hstart : Trimmed (ofEntries [] []) (ofEntries [⟨some 7, [false], 0⟩] ([] ++ [true])) :=
    htrimmed
  exact not_trimmed_of_created hstart

end Broadcast
end Controller
end FlashReduce
