import FlashReduce.Controller.BroadcastOps
import Mathlib.Logic.Relation

/-!
# Broadcast as moves of a ledger

The ledger is the list of operations, the event flags and the calls.  Events are
numbered in the order of their creation, so the event of an operation is its
number, and the operation that the `k`-th call of a rank has to join is
operation `k`.

* `Move` lists the elementary changes of the ledger: one for the cleanup loop,
  one for the creation of an operation, one for each thing that happens to a
  call.
* `Inv` is the invariant: the operations are numbered in increasing order, a bit
  of a row is set exactly when a call of that rank has been served there, an
  operation that is gone served everybody, and a position held by a call denotes
  the operation that the call joined.
* `Inv.move` shows that every move preserves the invariant.

The cleanup move has a condition, `Kept`: no operation at or before a position
held by an unfinished call is removed.
-/

namespace FlashReduce
namespace Controller
namespace Broadcast

open Library

/-! ### The ledger -/

/-- The operations, the event flags and the calls. -/
structure Ledger where
  entries : List Entry
  flags : List Bool
  calls : List Call

/-- The system that a ledger describes. -/
def Ledger.system (l : Ledger) : System := ⟨ofEntries l.entries l.flags, l.calls⟩

/-- The position that an unfinished call holds. -/
def Call.position (call : Call) : Option Nat :=
  match call.phase with
  | .waiting idx _ => some idx
  | .woken idx => some idx
  | .served idx => some idx
  | .returned _ => none
  | .raised _ => none

theorem Call.position_waiting {call : Call} {idx event : Nat}
    (h : call.phase = .waiting idx event) : call.position = some idx := by
  simp [Call.position, h]

theorem Call.position_woken {call : Call} {idx : Nat} (h : call.phase = .woken idx) :
    call.position = some idx := by
  simp [Call.position, h]

theorem Call.position_served {call : Call} {idx : Nat} (h : call.phase = .served idx) :
    call.position = some idx := by
  simp [Call.position, h]

/-- The call has marked its rank as served. -/
def Call.isServed (call : Call) : Bool :=
  match call.phase with
  | .served _ => true
  | .returned _ => true
  | _ => false

/-- A call of the rank has been served by the operation. -/
def HasServed (calls : List Call) (rank op : Nat) : Prop :=
  ∃ call ∈ calls, call.request.rank = rank ∧ call.joined = some op ∧ call.isServed = true

/-- The operations that the calls of a rank joined, in order. -/
def joinedOps (calls : List Call) (rank : Nat) : List (Option Nat) :=
  (calls.filter fun call => call.request.rank = rank).map Call.joined

/-- No operation at or before a position held by a call has served every rank. -/
def Kept (entries : List Entry) (calls : List Call) : Prop :=
  ∀ call ∈ calls, ∀ idx, call.position = some idx →
    ∀ e ∈ entries.take (idx + 1), e.isOpen = true

/-- The elementary changes of a ledger with rows of length `n`, where a call may
join only when its request is `allowed` after the calls made so far. -/
inductive Move (n : Nat) (allowed : List Call → Request → Prop) : Ledger → Ledger → Prop
  | cleanup {entries flags calls} (hkept : Kept entries calls) :
      Move n allowed ⟨entries, flags, calls⟩ ⟨entries.filter Entry.isOpen, flags, calls⟩
  | create {entries flags calls} :
      Move n allowed ⟨entries, flags, calls⟩
        ⟨entries ++ [Entry.fresh n flags.length], flags ++ [false], calls⟩
  | fill {entries flags calls idx e request} (he : entries[idx]? = some e)
      (hallowed : allowed calls request) (hroot : request.rank = request.root)
      (hevent : e.event = (joinedOps calls request.rank).length) :
      Move n allowed ⟨entries, flags, calls⟩
        ⟨entries.set idx (e.fill request.value), flags.set e.event true, calls⟩
  | join {entries flags calls idx e request phase} (he : entries[idx]? = some e)
      (hallowed : allowed calls request) (hrank : request.rank < n)
      (hevent : e.event = (joinedOps calls request.rank).length)
      (hphase : phase = .waiting idx e.event ∨ phase = .woken idx ∧ e.value ≠ none) :
      Move n allowed ⟨entries, flags, calls⟩
        ⟨entries, flags, calls ++ [⟨request, some e.event, phase⟩]⟩
  | wake {entries flags calls i call idx event} (hcall : calls[i]? = some call)
      (hphase : call.phase = .waiting idx event) (hflag : flags[event]? = some true) :
      Move n allowed ⟨entries, flags, calls⟩
        ⟨entries, flags, calls.set i { call with phase := .woken idx }⟩
  | mark {entries flags calls i call idx e} (hcall : calls[i]? = some call)
      (hphase : call.phase = .woken idx) (he : entries[idx]? = some e) :
      Move n allowed ⟨entries, flags, calls⟩
        ⟨entries.set idx (e.mark call.request.rank), flags,
          calls.set i { call with phase := .served idx }⟩
  | read {entries flags calls i call idx e} (hcall : calls[i]? = some call)
      (hphase : call.phase = .served idx) (he : entries[idx]? = some e) :
      Move n allowed ⟨entries, flags, calls⟩
        ⟨entries, flags, calls.set i { call with phase := .returned (e.value.getD 0) }⟩

/-! ### Calls that take a step -/

theorem joinedOps_snoc (calls : List Call) (call : Call) (rank : Nat) :
    joinedOps (calls ++ [call]) rank =
      joinedOps calls rank ++ if call.request.rank = rank then [call.joined] else [] := by
  by_cases h : call.request.rank = rank <;> simp [joinedOps, h]

theorem joinedOps_set {calls : List Call} {i : Nat} {call : Call} {phase : Phase}
    (hcall : calls[i]? = some call) (rank : Nat) :
    joinedOps (calls.set i { call with phase := phase }) rank = joinedOps calls rank := by
  have hview (cs : List Call) : joinedOps cs rank =
      ((cs.map fun c => (c.request.rank, c.joined)).filter fun p => p.1 = rank).map Prod.snd := by
    simp [joinedOps, List.filter_map, Function.comp_def]
  have hsame : (calls.set i { call with phase := phase }).map
      (fun c => (c.request.rank, c.joined)) = calls.map fun c => (c.request.rank, c.joined) :=
    map_set_same hcall rfl
  rw [hview, hview, hsame]

theorem hasServed_snoc {calls : List Call} {call : Call} (hnew : call.isServed = false)
    (rank op : Nat) : HasServed (calls ++ [call]) rank op ↔ HasServed calls rank op := by
  simp [HasServed, or_and_right, exists_or, hnew]

theorem hasServed_set {calls : List Call} {i : Nat} {call : Call} {phase : Phase}
    (hcall : calls[i]? = some call)
    (hserved : call.isServed = true → ({ call with phase := phase } : Call).isServed = true)
    (rank op : Nat) :
    HasServed (calls.set i { call with phase := phase }) rank op ↔
      HasServed calls rank op ∨ call.request.rank = rank ∧ call.joined = some op ∧
        ({ call with phase := phase } : Call).isServed = true := by
  constructor
  · rintro ⟨c, hc, hfacts⟩
    rcases mem_set_cases hc with rfl | hold
    · exact .inr hfacts
    · exact .inl ⟨c, hold, hfacts⟩
  · obtain ⟨hi, rfl⟩ := List.getElem?_eq_some_iff.mp hcall
    have hnew : ({ calls[i] with phase := phase } : Call) ∈
        calls.set i { calls[i] with phase := phase } :=
      List.mem_set hi _
    rintro (⟨c, hc, hrank, hjoined, hdone⟩ | hfacts)
    · obtain ⟨j, hj, rfl⟩ := List.getElem_of_mem hc
      by_cases hij : i = j
      · subst hij
        exact ⟨_, hnew, hrank, hjoined, hserved hdone⟩
      · refine ⟨calls[j], List.mem_iff_getElem?.mpr ⟨j, ?_⟩, hrank, hjoined, hdone⟩
        rw [List.getElem?_set_ne hij, List.getElem?_eq_getElem hj]
    · exact ⟨_, hnew, hfacts⟩

/-! ### Entries that change -/

/-- The operation numbers are increasing. -/
def Increasing (entries : List Entry) : Prop :=
  (entries.map Entry.event).Pairwise (· < ·)

theorem Increasing.lt {entries : List Entry} (h : Increasing entries) {i j : Nat} {a b : Entry}
    (ha : entries[i]? = some a) (hb : entries[j]? = some b) (hij : i < j) :
    a.event < b.event := by
  obtain ⟨hi, rfl⟩ := List.getElem?_eq_some_iff.mp ha
  obtain ⟨hj, rfl⟩ := List.getElem?_eq_some_iff.mp hb
  have hpair := List.pairwise_iff_getElem.mp h i j (by simpa using hi) (by simpa using hj) hij
  simpa using hpair

/-- The number determines the operation. -/
theorem Increasing.eq_of_event {entries : List Entry} (h : Increasing entries) {a b : Entry}
    (ha : a ∈ entries) (hb : b ∈ entries) (hevent : a.event = b.event) : a = b := by
  obtain ⟨i, hi⟩ := List.mem_iff_getElem?.mp ha
  obtain ⟨j, hj⟩ := List.mem_iff_getElem?.mp hb
  rcases Nat.lt_trichotomy i j with hij | rfl | hij
  · exact absurd hevent (Nat.ne_of_lt (h.lt hi hj hij))
  · exact Option.some.inj (hi.symm.trans hj)
  · exact absurd hevent (Nat.ne_of_gt (h.lt hj hi hij))

theorem Increasing.filter {entries : List Entry} (h : Increasing entries) (p : Entry → Bool) :
    Increasing (entries.filter p) :=
  h.sublist (List.filter_sublist.map _)

/-- An operation of an updated list is the new one or an old one with another
number. -/
theorem Increasing.mem_set {entries : List Entry} (h : Increasing entries) {idx : Nat}
    {e new e' : Entry} (he : entries[idx]? = some e) (hmem : e' ∈ entries.set idx new) :
    e' = new ∨ e' ∈ entries ∧ e'.event ≠ e.event := by
  obtain ⟨j, hj⟩ := List.mem_iff_getElem?.mp hmem
  by_cases hij : idx = j
  · subst hij
    obtain ⟨hlt, -⟩ := List.getElem?_eq_some_iff.mp he
    rw [List.getElem?_set_self hlt] at hj
    exact .inl (Option.some.inj hj).symm
  · rw [List.getElem?_set_ne hij] at hj
    refine .inr ⟨List.mem_of_getElem? hj, ?_⟩
    rcases Nat.lt_or_gt_of_ne hij with hlt | hlt
    · exact Nat.ne_of_gt (h.lt he hj hlt)
    · exact Nat.ne_of_lt (h.lt hj he hlt)

/-- Removing operations behind a kept position does not move the position. -/
theorem getElem?_filter_of_kept {entries : List Entry} {p : Entry → Bool} {idx : Nat}
    (h : ∀ e ∈ entries.take (idx + 1), p e = true) :
    (entries.filter p)[idx]? = entries[idx]? := by
  have hfront : (entries.take (idx + 1)).filter p = entries.take (idx + 1) :=
    List.filter_eq_self.mpr h
  have hsplit : entries.filter p =
      entries.take (idx + 1) ++ (entries.drop (idx + 1)).filter p := by
    conv_lhs => rw [← List.take_append_drop (idx + 1) entries, List.filter_append, hfront]
  rw [hsplit]
  by_cases hidx : idx < entries.length
  · rw [List.getElem?_append_left (by simp; omega), List.getElem?_take_of_lt (by omega)]
  · have hdrop : entries.drop (idx + 1) = [] := List.drop_eq_nil_of_le (by omega)
    rw [hdrop, List.filter_nil, List.append_nil, List.take_of_length_le (by omega)]

/-! ### The invariant -/

/-- The invariant of the ledger. -/
structure Inv (n : Nat) (l : Ledger) : Prop where
  rows : ∀ e ∈ l.entries, e.row.length = n
  increasing : Increasing l.entries
  created : ∀ e ∈ l.entries, e.event < l.flags.length
  numbered : ∀ rank, joinedOps l.calls rank =
    (List.range (joinedOps l.calls rank).length).map some
  counted : ∀ rank, (joinedOps l.calls rank).length ≤ l.flags.length
  marked : ∀ e ∈ l.entries, ∀ rank < n,
    (e.row[rank]? = some true ↔ HasServed l.calls rank e.event)
  removed : ∀ op < l.flags.length, (∀ e ∈ l.entries, e.event ≠ op) →
    ∀ rank < n, HasServed l.calls rank op
  ranks : ∀ call ∈ l.calls, call.request.rank < n
  positions : ∀ call ∈ l.calls, ∀ idx, call.position = some idx →
    ∃ e, l.entries[idx]? = some e ∧ call.joined = some e.event
  waits : ∀ call ∈ l.calls, ∀ idx event, call.phase = .waiting idx event →
    call.joined = some event
  no_error : ∀ call ∈ l.calls, ∀ error, call.phase ≠ .raised error

theorem Inv.initial (n : Nat) : Inv n ⟨[], [], []⟩ := by
  constructor <;> simp [joinedOps, Increasing]

variable {n : Nat}

/-- A call joins only operations below the number of calls of its rank. -/
theorem Inv.joined_lt {l : Ledger} (hinv : Inv n l) {call : Call} (hmem : call ∈ l.calls)
    {op : Nat} (hjoined : call.joined = some op) :
    op < (joinedOps l.calls call.request.rank).length := by
  have hin : call.joined ∈ joinedOps l.calls call.request.rank :=
    List.mem_map_of_mem (List.mem_filter.mpr ⟨hmem, by simp⟩)
  rw [hinv.numbered, hjoined] at hin
  simpa using hin

/-- An operation that is still there with a bit not set. -/
theorem Inv.unserved_iff {l : Ledger} (hinv : Inv n l) {e : Entry} (hmem : e ∈ l.entries)
    {rank : Nat} (hrank : rank < n) :
    e.unserved rank = true ↔ ¬ HasServed l.calls rank e.event := by
  have hlt : rank < e.row.length := by rw [hinv.rows e hmem]; exact hrank
  rw [← hinv.marked e hmem rank hrank, Entry.unserved, List.getElem?_eq_getElem hlt]
  cases e.row[rank] <;> simp

theorem Inv.cleanup {entries : List Entry} {flags : List Bool} {calls : List Call}
    (hinv : Inv n ⟨entries, flags, calls⟩) (hkept : Kept entries calls) :
    Inv n ⟨entries.filter Entry.isOpen, flags, calls⟩ where
  rows := fun e he => hinv.rows e (List.mem_of_mem_filter he)
  increasing := hinv.increasing.filter _
  created := fun e he => hinv.created e (List.mem_of_mem_filter he)
  numbered := hinv.numbered
  counted := hinv.counted
  marked := fun e he => hinv.marked e (List.mem_of_mem_filter he)
  removed := by
    intro op hop hgone rank hrank
    by_cases hthere : ∀ e ∈ entries, e.event ≠ op
    · exact hinv.removed op hop hthere rank hrank
    · -- the operation was removed by this cleanup, so its row is all `True`
      push Not at hthere
      obtain ⟨e, he, rfl⟩ := hthere
      have hdone : e.row.all id = true := by
        by_contra hopen
        exact hgone e (List.mem_filter.mpr ⟨he, by simpa [Entry.isOpen] using hopen⟩) rfl
      have hlt : rank < e.row.length := by rw [hinv.rows e he]; exact hrank
      rw [← hinv.marked e he rank hrank, List.getElem?_eq_getElem hlt]
      exact congrArg some (List.all_eq_true.mp hdone _ (List.getElem_mem hlt))
  ranks := hinv.ranks
  positions := by
    intro call hcall idx hidx
    obtain ⟨e, he, hjoined⟩ := hinv.positions call hcall idx hidx
    exact ⟨e, by rw [getElem?_filter_of_kept (hkept call hcall idx hidx)]; exact he, hjoined⟩
  waits := hinv.waits
  no_error := hinv.no_error

theorem Inv.create {entries : List Entry} {flags : List Bool} {calls : List Call}
    (hinv : Inv n ⟨entries, flags, calls⟩) :
    Inv n ⟨entries ++ [Entry.fresh n flags.length], flags ++ [false], calls⟩ where
  rows := forall_mem_snoc hinv.rows (by simp [Entry.fresh])
  increasing := by
    have hbelow : ∀ a ∈ entries.map Entry.event, a < flags.length := by
      intro a ha
      obtain ⟨e, he, rfl⟩ := List.mem_map.mp ha
      exact hinv.created e he
    have hsnoc : (entries.map Entry.event ++ [flags.length]).Pairwise (· < ·) :=
      List.pairwise_append.mpr ⟨hinv.increasing, List.pairwise_singleton _ _, by simpa using hbelow⟩
    simpa [Increasing, Entry.fresh] using hsnoc
  created := by
    refine forall_mem_snoc (fun e he => ?_) (by simp [Entry.fresh])
    have hlt : e.event < flags.length := hinv.created e he
    simp only [List.length_append, List.length_singleton]
    omega
  numbered := hinv.numbered
  counted := fun rank => Nat.le_trans (hinv.counted rank) (by simp)
  marked := by
    refine forall_mem_snoc hinv.marked (fun rank hrank => ?_)
    have hfresh : (Entry.fresh n flags.length).row[rank]? = some false := by
      simp [Entry.fresh, hrank]
    rw [hfresh]
    -- no call has joined the new operation yet
    refine iff_of_false (by simp) ?_
    rintro ⟨call, hcall, rfl, hjoined, -⟩
    have hlt := hinv.joined_lt hcall hjoined
    have hcount := hinv.counted call.request.rank
    simp only [Entry.fresh] at hlt hcount
    omega
  removed := by
    intro op hop hgone rank hrank
    have hne : flags.length ≠ op := hgone (Entry.fresh n flags.length) (by simp)
    have hlt : op < flags.length := by
      simp only [List.length_append, List.length_singleton] at hop
      omega
    exact hinv.removed op hlt (fun e he => hgone e (List.mem_append_left _ he)) rank hrank
  ranks := hinv.ranks
  positions := by
    intro call hcall idx hidx
    obtain ⟨e, he, hjoined⟩ := hinv.positions call hcall idx hidx
    exact ⟨e, by rw [List.getElem?_append_left (List.getElem?_eq_some_iff.mp he).1]; exact he,
      hjoined⟩
  waits := hinv.waits
  no_error := hinv.no_error

theorem Inv.join {entries : List Entry} {flags : List Bool} {calls : List Call} {idx : Nat}
    {e : Entry} {request : Request} {phase : Phase} (hinv : Inv n ⟨entries, flags, calls⟩)
    (he : entries[idx]? = some e) (hrank : request.rank < n)
    (hevent : e.event = (joinedOps calls request.rank).length)
    (hphase : phase = .waiting idx e.event ∨ phase = .woken idx) :
    Inv n ⟨entries, flags, calls ++ [⟨request, some e.event, phase⟩]⟩ := by
  have hnew : (⟨request, some e.event, phase⟩ : Call).isServed = false := by
    rcases hphase with rfl | rfl <;> rfl
  have hlength (rank : Nat) : (joinedOps (calls ++ [⟨request, some e.event, phase⟩]) rank).length =
      (joinedOps calls rank).length + if request.rank = rank then 1 else 0 := by
    rw [joinedOps_snoc]
    split <;> simp_all
  refine ⟨hinv.rows, hinv.increasing, hinv.created, ?_, ?_, ?_, ?_, ?_, ?_, ?_, ?_⟩
  · intro rank
    rw [hlength, joinedOps_snoc, hinv.numbered rank]
    split
    · next hsame =>
      subst hsame
      simp [List.range_succ, hevent]
    · simp
  · intro rank
    rw [hlength]
    split
    · next hsame =>
      subst hsame
      have hcreated : e.event < flags.length := hinv.created e (List.mem_of_getElem? he)
      simp only
      omega
    · exact hinv.counted rank
  · simpa only [hasServed_snoc hnew] using hinv.marked
  · simpa only [hasServed_snoc hnew] using hinv.removed
  · exact forall_mem_snoc hinv.ranks hrank
  · refine forall_mem_snoc hinv.positions (fun j hj => ⟨e, ?_, rfl⟩)
    have hposition : idx = j := by
      rcases hphase with rfl | rfl <;> exact Option.some.inj hj
    exact hposition ▸ he
  · refine forall_mem_snoc hinv.waits (fun j event hwait => ?_)
    rcases hphase with rfl | rfl
    · cases hwait
      rfl
    · cases hwait
  · refine forall_mem_snoc hinv.no_error (fun error => ?_)
    rcases hphase with rfl | rfl <;> nofun

/-- An update of one entry that keeps its number keeps the number at every
position. -/
theorem exists_getElem?_set {entries : List Entry} {idx : Nat} {e new : Entry}
    (he : entries[idx]? = some e) (hevent : new.event = e.event) {j : Nat} {e' : Entry}
    (h : entries[j]? = some e') :
    ∃ e'', (entries.set idx new)[j]? = some e'' ∧ e''.event = e'.event := by
  have hevents : (entries.set idx new).map Entry.event = entries.map Entry.event :=
    map_set_same he hevent
  have hj : ((entries.set idx new)[j]?).map Entry.event = some e'.event := by
    rw [← List.getElem?_map, hevents, List.getElem?_map, h, Option.map_some]
  exact Option.map_eq_some_iff.mp hj

/-- A call that moved on: it holds no new position, and it neither started to
wait nor raised. -/
structure Call.Follows (old call : Call) : Prop where
  request : call.request = old.request
  joined : call.joined = old.joined
  position : ∀ idx, call.position = some idx → old.position = some idx
  waiting : ∀ idx event, call.phase = .waiting idx event → old.phase = .waiting idx event
  raised : ∀ error, call.phase = .raised error → old.phase = .raised error

theorem Call.Follows.refl (call : Call) : call.Follows call :=
  ⟨rfl, rfl, fun _ h => h, fun _ _ h => h, fun _ h => h⟩

/-- One entry changes without changing its number, and calls move on. -/
theorem Inv.update {entries : List Entry} {flags flags' : List Bool} {calls : List Call}
    {idx : Nat} {e new : Entry} (hinv : Inv n ⟨entries, flags, calls⟩) (calls' : List Call)
    (he : entries[idx]? = some e) (hevent : new.event = e.event)
    (hrow : new.row.length = e.row.length) (hflags : flags'.length = flags.length)
    (hfollows : ∀ call ∈ calls', ∃ old ∈ calls, old.Follows call)
    (hjoined : ∀ rank, joinedOps calls' rank = joinedOps calls rank)
    (hserved : ∀ rank op, HasServed calls rank op → HasServed calls' rank op)
    (hmarked : ∀ e' ∈ entries.set idx new, ∀ rank < n,
      (e'.row[rank]? = some true ↔ HasServed calls' rank e'.event)) :
    Inv n ⟨entries.set idx new, flags', calls'⟩ := by
  have hmem := List.mem_of_getElem? he
  have hevents : (entries.set idx new).map Entry.event = entries.map Entry.event :=
    map_set_same he hevent
  refine ⟨?_, ?_, ?_, ?_, ?_, hmarked, ?_, ?_, ?_, ?_, ?_⟩
  · exact forall_mem_set hinv.rows (hrow.trans (hinv.rows e hmem))
  · simpa only [Increasing, hevents] using hinv.increasing
  · rw [hflags]
    exact forall_mem_set hinv.created (hevent ▸ hinv.created e hmem)
  · simpa only [hjoined] using hinv.numbered
  · simpa only [hjoined, hflags] using hinv.counted
  · intro op hop hgone rank hrank
    refine hserved rank op (hinv.removed op (hflags ▸ hop) (fun e' he' => ?_) rank hrank)
    obtain ⟨j, hj⟩ := List.mem_iff_getElem?.mp he'
    obtain ⟨e'', he'', heq⟩ := exists_getElem?_set he hevent hj
    exact heq ▸ hgone e'' (List.mem_of_getElem? he'')
  · intro call hcall
    obtain ⟨old, hold, hf⟩ := hfollows call hcall
    exact hf.request ▸ hinv.ranks old hold
  · intro call hcall j hj
    obtain ⟨old, hold, hf⟩ := hfollows call hcall
    obtain ⟨e', he', hop⟩ := hinv.positions old hold j (hf.position j hj)
    obtain ⟨e'', he'', heq⟩ := exists_getElem?_set he hevent he'
    exact ⟨e'', he'', by rw [hf.joined, hop, heq]⟩
  · intro call hcall j event hwait
    obtain ⟨old, hold, hf⟩ := hfollows call hcall
    rw [hf.joined]
    exact hinv.waits old hold j event (hf.waiting j event hwait)
  · intro call hcall error herror
    obtain ⟨old, hold, hf⟩ := hfollows call hcall
    exact hinv.no_error old hold error (hf.raised error herror)

theorem Inv.fill {entries : List Entry} {flags : List Bool} {calls : List Call} {idx : Nat}
    {e : Entry} (hinv : Inv n ⟨entries, flags, calls⟩) (he : entries[idx]? = some e)
    (value : UInt64) :
    Inv n ⟨entries.set idx (e.fill value), flags.set e.event true, calls⟩ :=
  hinv.update calls he rfl rfl (by simp) (fun call hcall => ⟨call, hcall, .refl call⟩)
    (fun _ => rfl) (fun _ _ h => h) (forall_mem_set hinv.marked (hinv.marked e (List.mem_of_getElem? he)))

/-- One call moves on and another one keeps its place. -/
theorem follows_set {calls : List Call} {i : Nat} {call call' : Call}
    (hcall : calls[i]? = some call) (hf : call.Follows call') :
    ∀ c ∈ calls.set i call', ∃ old ∈ calls, old.Follows c :=
  forall_mem_set (fun c hc => ⟨c, hc, .refl c⟩) ⟨call, List.mem_of_getElem? hcall, hf⟩

/-- A call with a position moves on without marking anything. -/
theorem Inv.advance {entries : List Entry} {flags : List Bool} {calls : List Call} {i idx : Nat}
    {call : Call} {phase : Phase} (hinv : Inv n ⟨entries, flags, calls⟩)
    (hcall : calls[i]? = some call) (hposition : call.position = some idx)
    (hf : call.Follows { call with phase := phase })
    (hserved : ({ call with phase := phase } : Call).isServed = call.isServed) :
    Inv n ⟨entries, flags, calls.set i { call with phase := phase }⟩ := by
  have hmem := List.mem_of_getElem? hcall
  obtain ⟨e, he, -⟩ := hinv.positions call hmem idx hposition
  have hsame (rank op : Nat) : HasServed (calls.set i { call with phase := phase }) rank op ↔
      HasServed calls rank op := by
    rw [hasServed_set hcall (fun h => hserved ▸ h), hserved]
    refine or_iff_left_of_imp ?_
    rintro ⟨hrank, hjoined, hdone⟩
    exact ⟨call, hmem, hrank, hjoined, hdone⟩
  have hentries : entries.set idx e = entries := by
    obtain ⟨hlt, rfl⟩ := List.getElem?_eq_some_iff.mp he
    exact List.set_getElem_self hlt
  have hnext := hinv.update (calls.set i { call with phase := phase }) he rfl rfl rfl
    (follows_set hcall hf) (joinedOps_set hcall) (fun rank op h => (hsame rank op).mpr h)
    (by simpa only [hentries, hsame] using hinv.marked)
  rwa [hentries] at hnext

theorem Inv.mark {entries : List Entry} {flags : List Bool} {calls : List Call} {i idx : Nat}
    {call : Call} {e : Entry} (hinv : Inv n ⟨entries, flags, calls⟩)
    (hcall : calls[i]? = some call) (hphase : call.phase = .woken idx)
    (he : entries[idx]? = some e) :
    Inv n ⟨entries.set idx (e.mark call.request.rank), flags,
      calls.set i { call with phase := .served idx }⟩ := by
  have hmem := List.mem_of_getElem? he
  have hold : call.isServed = false := by simp [Call.isServed, hphase]
  have hposition := Call.position_woken hphase
  have hf : call.Follows { call with phase := .served idx } :=
    ⟨rfl, rfl, fun j hj => hposition.trans hj, nofun, nofun⟩
  have hjoined : call.joined = some e.event := by
    obtain ⟨e', he', hop⟩ := hinv.positions call (List.mem_of_getElem? hcall) idx hposition
    rw [he] at he'
    exact hop.trans (congrArg (some ∘ Entry.event) (Option.some.inj he').symm)
  have hserved (rank op : Nat) :
      HasServed (calls.set i { call with phase := .served idx }) rank op ↔
        HasServed calls rank op ∨ call.request.rank = rank ∧ e.event = op := by
    rw [hasServed_set hcall (fun h => by simp [hold] at h), hjoined]
    simp [Call.isServed]
  refine hinv.update _ he rfl (by simp) rfl (follows_set hcall hf) (joinedOps_set hcall)
    (fun rank op h => (hserved rank op).mpr (.inl h)) ?_
  intro e' he' rank hrank
  have hlt : rank < e.row.length := by rw [hinv.rows e hmem]; exact hrank
  rw [hserved]
  rcases hinv.increasing.mem_set he he' with rfl | ⟨hother, hne⟩
  · -- the marked operation: the bit of the rank is set, the others are unchanged
    have hbefore := hinv.marked e hmem rank hrank
    by_cases hsame : call.request.rank = rank
    · simp [hsame, hlt]
    · simp [hsame, hbefore]
  · rw [hinv.marked e' hother rank hrank]
    simp [Ne.symm hne]

/-- **Every move preserves the invariant.** -/
theorem Inv.move {allowed : List Call → Request → Prop} {l l' : Ledger} (hinv : Inv n l)
    (hmove : Move n allowed l l') : Inv n l' := by
  cases hmove with
  | cleanup hkept => exact hinv.cleanup hkept
  | create => exact hinv.create
  | fill he _ _ _ => exact hinv.fill he _
  | join he _ hrank hevent hphase => exact hinv.join he hrank hevent (hphase.imp_right And.left)
  | wake hcall hphase _ =>
      have hposition := Call.position_waiting hphase
      refine hinv.advance hcall hposition
        ⟨rfl, rfl, fun j hj => hposition.trans hj, nofun, nofun⟩ ?_
      simp [Call.isServed, hphase]
  | mark hcall hphase he => exact hinv.mark hcall hphase he
  | read hcall hphase he =>
      refine hinv.advance hcall (Call.position_served hphase) ⟨rfl, rfl, nofun, nofun, nofun⟩ ?_
      simp [Call.isServed, hphase]

/-- A sequence of moves. -/
abbrev Moves (n : Nat) (allowed : List Call → Request → Prop) : Ledger → Ledger → Prop :=
  Relation.ReflTransGen (Move n allowed)

theorem Inv.moves {allowed : List Call → Request → Prop} {l l' : Ledger} (hinv : Inv n l)
    (hmoves : Moves n allowed l l') : Inv n l' := by
  induction hmoves with
  | refl => exact hinv
  | tail _ hmove ih => exact ih.move hmove

/-! ### Steps as moves -/

/-- Every call the rank made has returned. -/
def Ledger.Idle (l : Ledger) (rank : Nat) : Prop :=
  ∀ call ∈ l.calls, call.request.rank = rank → call.hasReturned = true

/-- An idle rank has been served by exactly the operations below its next one. -/
theorem Inv.hasServed_of_idle {l : Ledger} (hinv : Inv n l) {rank : Nat} (hidle : l.Idle rank)
    (op : Nat) : HasServed l.calls rank op ↔ op < (joinedOps l.calls rank).length := by
  constructor
  · rintro ⟨call, hcall, rfl, hjoined, -⟩
    exact hinv.joined_lt hcall hjoined
  · intro hlt
    have hin : some op ∈ joinedOps l.calls rank := by
      rw [hinv.numbered]
      simpa using hlt
    obtain ⟨call, hmem, hjoined⟩ := List.mem_map.mp hin
    obtain ⟨hcall, hrank⟩ := List.mem_filter.mp hmem
    have hrank : call.request.rank = rank := by simpa using hrank
    refine ⟨call, hcall, hrank, hjoined, ?_⟩
    have hreturned := hidle call hcall hrank
    unfold Call.hasReturned at hreturned
    unfold Call.isServed
    split at hreturned
    · next hphase => rw [hphase]
    · cases hreturned

/-- The operation that an idle rank has to join next is there unless it is still
to be created. -/
theorem Inv.next_mem {l : Ledger} (hinv : Inv n l) {rank : Nat} (hrank : rank < n)
    (hidle : l.Idle rank) (hlt : (joinedOps l.calls rank).length < l.flags.length) :
    ∃ e ∈ l.entries, e.event = (joinedOps l.calls rank).length := by
  by_contra hnone
  have hgone : ∀ e ∈ l.entries, e.event ≠ (joinedOps l.calls rank).length :=
    fun e he heq => hnone ⟨e, he, heq⟩
  -- a removed operation has served the rank
  have hserved := hinv.removed _ hlt hgone rank hrank
  exact absurd ((hinv.hasServed_of_idle hidle _).mp hserved) (Nat.lt_irrefl _)

/-- The search selects the operation that the idle rank has to join next. -/
theorem Inv.search_found {l : Ledger} (hinv : Inv n l) {rank idx : Nat} (hrank : rank < n)
    (hidle : l.Idle rank) (hfind : l.entries.findIdx? (Entry.unserved rank) = some idx) :
    ∃ e, l.entries[idx]? = some e ∧ e.event = (joinedOps l.calls rank).length := by
  obtain ⟨hlt, hfound, hfirst⟩ := List.findIdx?_eq_some_iff_getElem.mp hfind
  refine ⟨l.entries[idx], List.getElem?_eq_getElem hlt, ?_⟩
  have hmem := List.getElem_mem hlt
  rw [hinv.unserved_iff hmem hrank, hinv.hasServed_of_idle hidle] at hfound
  -- an earlier operation that the rank has not joined would have been found before
  by_contra hne
  have hcreated := hinv.created _ hmem
  obtain ⟨e, he, hevent⟩ := hinv.next_mem hrank hidle (by omega)
  obtain ⟨j, hj⟩ := List.mem_iff_getElem?.mp he
  obtain ⟨hjlt, hjget⟩ := List.getElem?_eq_some_iff.mp hj
  have hji : j < idx := by
    by_contra hge
    rcases Nat.lt_or_ge idx j with hij | hij
    · have := hinv.increasing.lt (List.getElem?_eq_getElem hlt) hj hij
      omega
    · have hsame : j = idx := by omega
      subst hsame
      exact hne (hjget ▸ hevent)
  apply hfirst j hji
  rw [hjget, hinv.unserved_iff he hrank, hinv.hasServed_of_idle hidle, hevent]
  exact Nat.lt_irrefl _

/-- When the search finds nothing, the next operation of the rank is the one
that is created. -/
theorem Inv.search_none {l : Ledger} (hinv : Inv n l) {rank : Nat} (hrank : rank < n)
    (hidle : l.Idle rank) (hfind : l.entries.findIdx? (Entry.unserved rank) = none) :
    l.flags.length = (joinedOps l.calls rank).length := by
  by_contra hne
  have hcounted := hinv.counted rank
  obtain ⟨e, he, hevent⟩ := hinv.next_mem hrank hidle (by omega)
  have hserved := List.findIdx?_eq_none_iff.mp hfind e he
  have hopen : e.unserved rank = true := by
    rw [hinv.unserved_iff he hrank, hinv.hasServed_of_idle hidle, hevent]
    exact Nat.lt_irrefl _
  rw [hopen] at hserved
  cases hserved

variable {allowed : List Call → Request → Prop}

/-- Cleanup, search and creation lead to a position of the operation that the
rank has to join. -/
theorem Inv.select_moves {entries : List Entry} {flags : List Bool} {calls : List Call}
    {rank : Nat} (hinv : Inv n ⟨entries, flags, calls⟩)
    (allowed : List Call → Request → Prop) (hrank : rank < n)
    (hidle : Ledger.Idle ⟨entries, flags, calls⟩ rank) (hkept : Kept entries calls) :
    ∃ entries' flags' idx e, select n rank entries flags = (entries', flags', idx) ∧
      Moves n allowed ⟨entries, flags, calls⟩ ⟨entries', flags', calls⟩ ∧
      entries'[idx]? = some e ∧ e.event = (joinedOps calls rank).length := by
  have hclean : Moves n allowed ⟨entries, flags, calls⟩
      ⟨entries.filter Entry.isOpen, flags, calls⟩ := .single (.cleanup hkept)
  have hinv' := hinv.cleanup hkept
  unfold select
  cases hfind : (entries.filter Entry.isOpen).findIdx? (Entry.unserved rank) with
  | some idx =>
      obtain ⟨e, he, hevent⟩ := hinv'.search_found hrank hidle hfind
      exact ⟨_, _, idx, e, rfl, hclean, he, hevent⟩
  | none =>
      have hevent := hinv'.search_none hrank hidle hfind
      exact ⟨_, _, _, Entry.fresh n flags.length, rfl, hclean.tail .create, by simp, hevent⟩

/-- A call that joins an operation with a value is served at once. -/
theorem serve_moves {entries : List Entry} (flags : List Bool) {calls : List Call} {idx : Nat}
    {e : Entry} {request : Request} (he : entries[idx]? = some e)
    (hallowed : allowed calls request) (hrank : request.rank < n)
    (hevent : e.event = (joinedOps calls request.rank).length) (hvalue : e.value ≠ none) :
    Moves n allowed ⟨entries, flags, calls⟩
      ⟨entries.set idx (e.mark request.rank), flags,
        calls ++ [⟨request, some e.event, .served idx⟩]⟩ := by
  have hjoin : Move n allowed ⟨entries, flags, calls⟩
      ⟨entries, flags, calls ++ [⟨request, some e.event, .woken idx⟩]⟩ :=
    .join he hallowed hrank hevent (.inr ⟨rfl, hvalue⟩)
  have hmark : Move n allowed
      ⟨entries, flags, calls ++ [(⟨request, some e.event, .woken idx⟩ : Call)]⟩ _ :=
    .mark List.getElem?_concat_length rfl he
  have hlast : (calls ++ [(⟨request, some e.event, .woken idx⟩ : Call)]).set calls.length
      ⟨request, some e.event, .served idx⟩ = calls ++ [⟨request, some e.event, .served idx⟩] := by
    simp
  rw [← hlast]
  exact (Relation.ReflTransGen.single hjoin).tail hmark

/-- The first locked section of a call is a sequence of moves. -/
theorem Inv.startCall_moves {entries : List Entry} {flags : List Bool} {calls : List Call}
    {request : Request} (hinv : Inv n ⟨entries, flags, calls⟩) (hworkers : request.numWorkers = n)
    (hrank : request.rank < n) (hidle : Ledger.Idle ⟨entries, flags, calls⟩ request.rank)
    (hkept : Kept entries calls) (hallowed : allowed calls request) :
    ∃ l : Ledger, (⟨(startCall (ofEntries entries flags) request).1,
        calls ++ [(startCall (ofEntries entries flags) request).2]⟩ : System) = l.system ∧
      Moves n allowed ⟨entries, flags, calls⟩ l := by
  have hrows : ∀ e ∈ entries, request.rank < e.row.length := by
    intro e he
    rw [hinv.rows e he]
    exact hrank
  have henter := enter_apply flags hrows
  obtain ⟨entries', flags', idx, e, hselect, hmoves, he, hevent⟩ :=
    hinv.select_moves allowed hrank hidle hkept
  rw [hworkers, hselect] at henter
  have hlt : request.rank < e.row.length := by
    rw [(hinv.moves hmoves).rows e (List.mem_of_getElem? he)]
    exact hrank
  have hidx : idx < entries'.length := (List.getElem?_eq_some_iff.mp he).1
  -- the three ways in which the first section ends
  by_cases hroot : request.rank = request.root
  · -- the root fills the operation and is served
    rw [serve_root _ hroot he hlt] at henter
    have hfill : Move n allowed ⟨entries', flags', calls⟩ _ :=
      .fill he hallowed hroot hevent
    have hfilled : (entries'.set idx (e.fill request.value))[idx]? =
        some (e.fill request.value) := by simp [hidx]
    have hserve := serve_moves (flags'.set e.event true) hfilled hallowed hrank hevent
      (by simp)
    rw [List.set_set] at hserve
    refine ⟨_, ?_, (hmoves.tail hfill).trans hserve⟩
    simp [startCall, henter, Ledger.system, hidx]
  · by_cases hvalue : e.value = none
    · rw [serve_wait hroot he hvalue] at henter
      refine ⟨⟨entries', flags', calls ++ [⟨request, some e.event, .waiting idx e.event⟩]⟩, ?_,
        hmoves.tail (.join he hallowed hrank hevent (.inl rfl))⟩
      simp [startCall, henter, Ledger.system, he]
    · rw [serve_pick hroot he hvalue hlt] at henter
      refine ⟨_, ?_, hmoves.trans (serve_moves flags' he hallowed hrank hevent hvalue)⟩
      simp [startCall, henter, Ledger.system, hidx]

/-- Every later piece of a call is one move. -/
theorem Inv.resumeCall_move {entries : List Entry} {flags : List Bool} {calls : List Call}
    {i : Nat} {call call' : Call} {state' : State} (hinv : Inv n ⟨entries, flags, calls⟩)
    (hcall : calls[i]? = some call)
    (hresume : resumeCall (ofEntries entries flags) call = some (state', call')) :
    ∃ l : Ledger, (⟨state', calls.set i call'⟩ : System) = l.system ∧
      Move n allowed ⟨entries, flags, calls⟩ l := by
  have hmem := List.mem_of_getElem? hcall
  unfold resumeCall at hresume
  cases hphase : call.phase with
  | waiting idx event =>
      by_cases hflag : flags[event]? = some true
      · simp only [hphase, ofEntries_eventFlags, hflag, if_true, Option.some.injEq,
          Prod.mk.injEq] at hresume
        obtain ⟨rfl, rfl⟩ := hresume
        exact ⟨_, rfl, .wake hcall hphase hflag⟩
      · simp [hphase, hflag] at hresume
  | woken idx =>
      obtain ⟨e, he, -⟩ := hinv.positions call hmem idx (Call.position_woken hphase)
      have hlt : call.request.rank < e.row.length := by
        rw [hinv.rows e (List.mem_of_getElem? he)]
        exact hinv.ranks call hmem
      simp only [hphase, markServed_apply flags he hlt, Option.some.injEq, Prod.mk.injEq] at hresume
      obtain ⟨rfl, rfl⟩ := hresume
      exact ⟨_, rfl, .mark hcall hphase he⟩
  | served idx =>
      obtain ⟨e, he, -⟩ := hinv.positions call hmem idx (Call.position_served hphase)
      simp only [hphase, readValue_apply flags he, Option.some.injEq, Prod.mk.injEq] at hresume
      obtain ⟨rfl, rfl⟩ := hresume
      exact ⟨_, rfl, .read hcall hphase he⟩
  | returned value => simp [hphase] at hresume
  | raised error => simp [hphase] at hresume

/-- **Every step of the system is a sequence of moves**, as long as a call that
enters is allowed to and keeps the positions of the others. -/
theorem Inv.step_moves {l : Ledger} {action : Action} {s' : System} (hinv : Inv n l)
    (allowed : List Call → Request → Prop)
    (henter : ∀ request, action = .enter request → request.numWorkers = n ∧ request.rank < n ∧
      l.Idle request.rank ∧ allowed l.calls request ∧ Kept l.entries l.calls)
    (hstep : step l.system action = some s') :
    ∃ l' : Ledger, s' = l'.system ∧ Moves n allowed l l' := by
  cases action with
  | enter request =>
      obtain ⟨hworkers, hrank, hidle, hallowed, hkept⟩ := henter request rfl
      obtain ⟨l', hl', hmoves⟩ := hinv.startCall_moves hworkers hrank hidle hkept hallowed
      refine ⟨l', ?_, hmoves⟩
      rw [← hl']
      exact (Option.some.inj hstep).symm
  | resume index =>
      simp only [step, Ledger.system] at hstep
      cases hcall : l.calls[index]? with
      | none => simp [hcall] at hstep
      | some call =>
          cases hresume : resumeCall (ofEntries l.entries l.flags) call with
          | none => simp [hcall, hresume] at hstep
          | some result =>
              obtain ⟨state', call'⟩ := result
              simp only [hcall, hresume, Option.some.injEq] at hstep
              obtain ⟨l', hl', hmove⟩ := hinv.resumeCall_move hcall hresume
              exact ⟨l', by rw [← hl', hstep], .single hmove⟩

end Broadcast
end Controller
end FlashReduce
