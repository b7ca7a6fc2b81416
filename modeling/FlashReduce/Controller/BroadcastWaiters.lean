import FlashReduce.Controller.BroadcastLedger

/-!
# Waiters of Broadcast are not orphaned

All calls name the same root, and each rank has at most one call in progress; a
call that raised is over, and its rank may go on.  Nothing is assumed about the
cleanup loop, so a rank that wakes up may mark an operation that it did not join,
or raise.

* `Rooted` is the invariant: the operations that the root has filled are the first
  ones that were created, as many as the root has made calls; the others are still
  in the lists; and the operation a call waits for has not served the rank of the
  call, so that no cleanup removes it.  A misplaced mark does not break it: it sets
  the bit of a rank that is not the root and does not wait.
* `broadcast_no_orphan` states the three consequences for every reachable state,
  and what one further call does.
-/

namespace FlashReduce
namespace Controller
namespace Broadcast

open Library

/-- The call is over: it returned or raised. -/
def Call.isFinished (call : Call) : Bool :=
  match call.phase with
  | .returned _ | .raised _ => true
  | _ => false

/-- Each of `n` ranks has at most one call in progress, and all calls name the same
root. -/
def FixedRootCalls (n root : Nat) (s : System) : Action → Prop
  | .enter request =>
      request.numWorkers = n ∧ request.rank < n ∧ request.root = root ∧
        ∀ call ∈ s.calls, call.request.rank = request.rank → call.isFinished = true
  | .resume _ => True

instance (n root : Nat) (s : System) : ∀ action, Decidable (FixedRootCalls n root s action)
  | .enter request => inferInstanceAs (Decidable
      (request.numWorkers = n ∧ request.rank < n ∧ request.root = root ∧
        ∀ call ∈ s.calls, call.request.rank = request.rank → call.isFinished = true))
  | .resume _ => inferInstanceAs (Decidable True)

/-- The call has selected an operation and has not been served there. -/
def Call.isPending (call : Call) : Bool :=
  match call.phase with
  | .waiting _ _ | .woken _ => true
  | _ => false

theorem Call.isFinished_of_isPending {call : Call} (h : call.isPending = true) :
    call.isFinished = false := by
  unfold Call.isPending at h
  unfold Call.isFinished
  cases hphase : call.phase <;> simp_all

theorem Call.isPending_of_waiting {call : Call} {idx event : Nat}
    (h : call.phase = .waiting idx event) : call.isPending = true := by
  simp [Call.isPending, h]

/-- How many calls the root has made. -/
def Ledger.rootCalls (l : Ledger) (root : Nat) : Nat := (joinedOps l.calls root).length

/-- The invariant of runs with one root. -/
structure Rooted (n root : Nat) (l : Ledger) : Prop where
  rows : ∀ e ∈ l.entries, e.row.length = n
  increasing : Increasing l.entries
  created : ∀ e ∈ l.entries, e.event < l.flags.length
  ranks : ∀ call ∈ l.calls, call.request.rank < n
  counted : l.rootCalls root ≤ l.flags.length
  numbered : joinedOps l.calls root = (List.range (l.rootCalls root)).map some
  flagged : ∀ op, l.flags[op]? = some true ↔ op < l.rootCalls root
  marked : ∀ e ∈ l.entries, e.row[root]? = some true ↔ e.event < l.rootCalls root
  kept : ∀ op, l.rootCalls root ≤ op → op < l.flags.length → ∃ e ∈ l.entries, e.event = op
  root_served : ∀ call ∈ l.calls, call.request.rank = root → call.isPending = false
  waits : ∀ call ∈ l.calls, ∀ idx event, call.phase = .waiting idx event →
    ∃ e ∈ l.entries, e.event = event ∧ e.unserved call.request.rank = true
  alone : ∀ (i j : Nat) (c d : Call), l.calls[i]? = some c → l.calls[j]? = some d →
    c.request.rank = d.request.rank → c.isFinished = false → d.isFinished = false → i = j

variable {n root : Nat}

theorem Rooted.initial : Rooted n root ⟨[], [], []⟩ := by
  constructor <;> simp [joinedOps, Increasing, Ledger.rootCalls]

theorem Rooted.unserved_iff {l : Ledger} (h : Rooted n root l) {e : Entry} (he : e ∈ l.entries)
    {rank : Nat} (hrank : rank < n) : e.unserved rank = true ↔ e.row[rank]? ≠ some true := by
  have hlt : rank < e.row.length := by rw [h.rows e he]; exact hrank
  rw [Entry.unserved, List.getElem?_eq_getElem hlt]
  cases e.row[rank] <;> simp

/-- The operations that the root has not filled yet have not served it. -/
theorem Rooted.root_unserved_iff {l : Ledger} (h : Rooted n root l) (hroot : root < n)
    {e : Entry} (he : e ∈ l.entries) : e.unserved root = true ↔ l.rootCalls root ≤ e.event := by
  rw [h.unserved_iff he hroot, ne_eq, h.marked e he, Nat.not_lt]

/-- An operation that has not served some rank is not removed. -/
theorem Entry.isOpen_of_unserved {e : Entry} {rank : Nat} (h : e.unserved rank = true) :
    e.isOpen = true := by
  have hget : e.row[rank]? = some false := by simpa [Entry.unserved] using h
  have hmem : false ∈ e.row := List.mem_of_getElem? hget
  rw [Entry.isOpen, Bool.not_eq_true', List.all_eq_false]
  exact ⟨false, hmem, by simp⟩

/-! ### Cleanup and search -/

theorem Rooted.cleanup {entries : List Entry} {flags : List Bool} {calls : List Call}
    (h : Rooted n root ⟨entries, flags, calls⟩) (hroot : root < n) :
    Rooted n root ⟨entries.filter Entry.isOpen, flags, calls⟩ where
  rows := fun e he => h.rows e (List.mem_of_mem_filter he)
  increasing := h.increasing.filter _
  created := fun e he => h.created e (List.mem_of_mem_filter he)
  ranks := h.ranks
  counted := h.counted
  numbered := h.numbered
  flagged := h.flagged
  marked := fun e he => h.marked e (List.mem_of_mem_filter he)
  kept := by
    intro op hle hlt
    obtain ⟨e, he, rfl⟩ := h.kept op hle hlt
    have hopen := Entry.isOpen_of_unserved ((h.root_unserved_iff hroot he).mpr hle)
    exact ⟨e, List.mem_filter.mpr ⟨he, hopen⟩, rfl⟩
  root_served := h.root_served
  waits := by
    intro call hcall idx event hphase
    obtain ⟨e, he, hevent, hunserved⟩ := h.waits call hcall idx event hphase
    exact ⟨e, List.mem_filter.mpr ⟨he, Entry.isOpen_of_unserved hunserved⟩, hevent, hunserved⟩
  alone := h.alone

theorem Rooted.create {entries : List Entry} {flags : List Bool} {calls : List Call}
    (h : Rooted n root ⟨entries, flags, calls⟩) (hroot : root < n) :
    Rooted n root ⟨entries ++ [Entry.fresh n flags.length], flags ++ [false], calls⟩ where
  rows := forall_mem_snoc h.rows (by simp [Entry.fresh])
  increasing := by
    have hbelow : ∀ a ∈ entries.map Entry.event, a < flags.length := by
      intro a ha
      obtain ⟨e, he, rfl⟩ := List.mem_map.mp ha
      exact h.created e he
    have hsnoc : (entries.map Entry.event ++ [flags.length]).Pairwise (· < ·) :=
      List.pairwise_append.mpr ⟨h.increasing, List.pairwise_singleton _ _, by simpa using hbelow⟩
    simpa [Increasing, Entry.fresh] using hsnoc
  created := by
    apply forall_mem_snoc
    · intro e he
      have hlt : e.event < flags.length := h.created e he
      simp only [List.length_append, List.length_singleton]
      omega
    · simp [Entry.fresh]
  ranks := h.ranks
  counted := Nat.le_trans h.counted (by simp)
  numbered := h.numbered
  flagged := by
    intro op
    have hcounted := h.counted
    show (flags ++ [false])[op]? = some true ↔ op < (joinedOps calls root).length
    simp only [Ledger.rootCalls] at hcounted
    rcases Nat.lt_trichotomy op flags.length with hop | hop | hop
    · rw [List.getElem?_append_left hop]
      exact h.flagged op
    · subst hop
      simp only [List.getElem?_concat_length, Option.some.injEq, Bool.false_eq_true, false_iff]
      omega
    · rw [List.getElem?_eq_none (by simp; omega)]
      simp only [reduceCtorEq, false_iff]
      omega
  marked := by
    apply forall_mem_snoc h.marked
    have hcounted := h.counted
    have hfresh : (Entry.fresh n flags.length).row[root]? = some false := by
      simp [Entry.fresh, hroot]
    rw [hfresh]
    simp only [Entry.fresh, Option.some.injEq, Bool.false_eq_true, false_iff]
    exact Nat.not_lt.mpr hcounted
  kept := by
    intro op hle hlt
    rcases Nat.lt_or_ge op flags.length with hop | hop
    · obtain ⟨e, he, hevent⟩ := h.kept op hle hop
      exact ⟨e, List.mem_append_left _ he, hevent⟩
    · refine ⟨Entry.fresh n flags.length, by simp, ?_⟩
      simp only [List.length_append, List.length_singleton] at hlt
      simp only [Entry.fresh]
      omega
  root_served := h.root_served
  waits := by
    intro call hcall idx event hphase
    obtain ⟨e, he, hfacts⟩ := h.waits call hcall idx event hphase
    exact ⟨e, List.mem_append_left _ he, hfacts⟩
  alone := h.alone

/-- The search of the root selects the first operation that it has not filled. -/
theorem Rooted.root_found {l : Ledger} (h : Rooted n root l) (hroot : root < n) {idx : Nat}
    (hfind : l.entries.findIdx? (Entry.unserved root) = some idx) {e : Entry}
    (he : l.entries[idx]? = some e) : e.event = l.rootCalls root := by
  obtain ⟨hlt, hfound, hfirst⟩ := List.findIdx?_eq_some_iff_getElem.mp hfind
  have hmem := List.mem_of_getElem? he
  obtain ⟨_, rfl⟩ := List.getElem?_eq_some_iff.mp he
  have hle := (h.root_unserved_iff hroot hmem).mp hfound
  by_contra hne
  -- otherwise the next operation of the root lies before
  have hcreated := h.created _ hmem
  obtain ⟨e', he', hevent⟩ := h.kept (l.rootCalls root) (Nat.le_refl _) (by omega)
  obtain ⟨j, hj⟩ := List.mem_iff_getElem?.mp he'
  obtain ⟨hjlt, rfl⟩ := List.getElem?_eq_some_iff.mp hj
  have hji : j < idx := by
    rcases Nat.lt_trichotomy j idx with hlt' | heq | hgt
    · exact hlt'
    · subst heq
      exact absurd hevent hne
    · have := h.increasing.lt (List.getElem?_eq_getElem hlt) hj hgt
      omega
  apply hfirst j hji
  rw [h.root_unserved_iff hroot he']
  exact Nat.le_of_eq hevent.symm

/-- When the search of the root finds nothing, it has filled all operations. -/
theorem Rooted.root_not_found {l : Ledger} (h : Rooted n root l) (hroot : root < n)
    (hfind : l.entries.findIdx? (Entry.unserved root) = none) :
    l.flags.length = l.rootCalls root := by
  by_contra hne
  have hcounted := h.counted
  obtain ⟨e, he, hevent⟩ := h.kept (l.rootCalls root) (Nat.le_refl _) (by omega)
  have hserved := List.findIdx?_eq_none_iff.mp hfind e he
  have hunserved : e.unserved root = true := by
    rw [h.root_unserved_iff hroot he]
    exact Nat.le_of_eq hevent.symm
  rw [hunserved] at hserved
  cases hserved

/-- Cleanup, search and creation lead to an operation that has not served the rank;
for the root it is the next one that it has to fill. -/
theorem Rooted.select {entries : List Entry} {flags : List Bool} {calls : List Call} {rank : Nat}
    (h : Rooted n root ⟨entries, flags, calls⟩) (hroot : root < n) (hrank : rank < n) :
    ∃ entries' flags' idx e, Broadcast.select n rank entries flags = (entries', flags', idx) ∧
      Rooted n root ⟨entries', flags', calls⟩ ∧ entries'[idx]? = some e ∧
      e.unserved rank = true ∧ (rank = root → e.event = (joinedOps calls root).length) := by
  have hclean := h.cleanup hroot
  unfold Broadcast.select
  cases hfind : (entries.filter Entry.isOpen).findIdx? (Entry.unserved rank) with
  | some idx =>
      obtain ⟨hlt, hfound, -⟩ := List.findIdx?_eq_some_iff_getElem.mp hfind
      have he := List.getElem?_eq_getElem hlt
      refine ⟨_, _, idx, _, rfl, hclean, he, hfound, ?_⟩
      rintro rfl
      exact hclean.root_found hroot hfind he
  | none =>
      refine ⟨_, _, _, Entry.fresh n flags.length, rfl, hclean.create hroot, by simp, ?_, ?_⟩
      · simp [Entry.unserved, Entry.fresh, hrank]
      · rintro rfl
        exact hclean.root_not_found hroot hfind

/-! ### Marks and calls that move on -/

/-- A mark at any position, for a rank that is not the root and does not wait. -/
theorem Rooted.mark {entries : List Entry} {flags : List Bool} {calls : List Call}
    (h : Rooted n root ⟨entries, flags, calls⟩) {rank idx : Nat} {e : Entry} (hne : rank ≠ root)
    (he : entries[idx]? = some e)
    (hquiet : ∀ call ∈ calls, ∀ idx event, call.phase = .waiting idx event →
      call.request.rank ≠ rank) :
    Rooted n root ⟨entries.set idx (e.mark rank), flags, calls⟩ where
  rows := by
    have hlength := h.rows e (List.mem_of_getElem? he)
    exact forall_mem_set h.rows (by simpa using hlength)
  increasing := by
    have hevents : (entries.set idx (e.mark rank)).map Entry.event = entries.map Entry.event :=
      map_set_same he rfl
    simpa only [Increasing, hevents] using h.increasing
  created := forall_mem_set h.created (h.created e (List.mem_of_getElem? he))
  ranks := h.ranks
  counted := h.counted
  numbered := h.numbered
  flagged := h.flagged
  marked := by
    apply forall_mem_set h.marked
    rw [Entry.mark_row, List.getElem?_set_ne hne]
    exact h.marked e (List.mem_of_getElem? he)
  kept := by
    intro op hle hlt
    obtain ⟨e', he', hevent⟩ := h.kept op hle hlt
    obtain ⟨j, hj⟩ := List.mem_iff_getElem?.mp he'
    obtain ⟨e'', he'', hsame⟩ := exists_getElem?_set he (Entry.mark_event e rank) hj
    exact ⟨e'', List.mem_of_getElem? he'', hsame.trans hevent⟩
  root_served := h.root_served
  waits := by
    intro call hcall i event hphase
    obtain ⟨e', he', hevent, hunserved⟩ := h.waits call hcall i event hphase
    have hother := hquiet call hcall i event hphase
    obtain ⟨j, hj⟩ := List.mem_iff_getElem?.mp he'
    by_cases hij : idx = j
    · -- the mark is at the operation the call waits for, in the bit of another rank
      subst hij
      obtain rfl := Option.some.inj (he.symm.trans hj)
      refine ⟨e.mark rank, List.mem_set (List.getElem?_eq_some_iff.mp he).1 _, hevent, ?_⟩
      rw [Entry.unserved, Entry.mark_row, List.getElem?_set_ne hother.symm]
      exact hunserved
    · have hget : (entries.set idx (e.mark rank))[j]? = some e' := by
        rw [List.getElem?_set_ne hij]
        exact hj
      exact ⟨e', List.mem_of_getElem? hget, hevent, hunserved⟩
  alone := h.alone

/-- A call moves on without waiting, pending or running more than before. -/
theorem Rooted.advance {entries : List Entry} {flags : List Bool} {calls : List Call}
    (h : Rooted n root ⟨entries, flags, calls⟩) {i : Nat} {call : Call} {phase : Phase}
    (hcall : calls[i]? = some call) (hrunning : call.isFinished = false)
    (hpending : ({ call with phase := phase } : Call).isPending = true → call.isPending = true)
    (hwaiting : ∀ idx event, phase ≠ .waiting idx event) :
    Rooted n root ⟨entries, flags, calls.set i { call with phase := phase }⟩ where
  rows := h.rows
  increasing := h.increasing
  created := h.created
  ranks := forall_mem_set h.ranks (h.ranks call (List.mem_of_getElem? hcall))
  counted := by simpa only [Ledger.rootCalls, joinedOps_set hcall] using h.counted
  numbered := by simpa only [Ledger.rootCalls, joinedOps_set hcall] using h.numbered
  flagged := by simpa only [Ledger.rootCalls, joinedOps_set hcall] using h.flagged
  marked := by simpa only [Ledger.rootCalls, joinedOps_set hcall] using h.marked
  kept := by simpa only [Ledger.rootCalls, joinedOps_set hcall] using h.kept
  root_served := by
    apply forall_mem_set h.root_served
    intro hrank
    have hold := h.root_served call (List.mem_of_getElem? hcall) hrank
    by_contra hnew
    rw [hpending (by simpa using hnew)] at hold
    cases hold
  waits := by
    intro c hc idx event hphase
    rcases mem_set_cases hc with rfl | hold
    · exact absurd hphase (hwaiting idx event)
    · exact h.waits c hold idx event hphase
  alone := by
    -- the running calls of the new list run in the old one under the same positions
    have hback (j : Nat) (c : Call) (hc : (calls.set i { call with phase := phase })[j]? = some c)
        (hfinished : c.isFinished = false) :
        ∃ old, calls[j]? = some old ∧ old.request = c.request ∧ old.isFinished = false := by
      by_cases hij : i = j
      · subst hij
        obtain ⟨hlt, -⟩ := List.getElem?_eq_some_iff.mp hcall
        rw [List.getElem?_set_self hlt] at hc
        obtain rfl := Option.some.inj hc
        exact ⟨call, hcall, rfl, hrunning⟩
      · rw [List.getElem?_set_ne hij] at hc
        exact ⟨c, hc, rfl, hfinished⟩
    intro j k c d hc hd hrank hcrun hdrun
    obtain ⟨c', hc', hcrequest, hcrun'⟩ := hback j c hc hcrun
    obtain ⟨d', hd', hdrequest, hdrun'⟩ := hback k d hd hdrun
    exact h.alone j k c' d' hc' hd' (by rw [hcrequest, hdrequest, hrank]) hcrun' hdrun'

/-! ### Calls that join -/

/-- A new call of a rank that has no other call in progress is alone. -/
theorem Rooted.alone_snoc {l : Ledger} (h : Rooted n root l) {call : Call}
    (hidle : ∀ c ∈ l.calls, c.request.rank = call.request.rank → c.isFinished = true) :
    ∀ (i j : Nat) (c d : Call), (l.calls ++ [call])[i]? = some c →
      (l.calls ++ [call])[j]? = some d → c.request.rank = d.request.rank →
      c.isFinished = false → d.isFinished = false → i = j := by
  -- an element of the longer list is an old call or the new one at the end
  have hcases (i : Nat) (c : Call) (hc : (l.calls ++ [call])[i]? = some c) :
      l.calls[i]? = some c ∨ i = l.calls.length ∧ c = call := by
    rcases Nat.lt_trichotomy i l.calls.length with hi | rfl | hi
    · rw [List.getElem?_append_left hi] at hc
      exact .inl hc
    · rw [List.getElem?_concat_length] at hc
      exact .inr ⟨rfl, (Option.some.inj hc).symm⟩
    · rw [List.getElem?_eq_none (by simp; omega)] at hc
      cases hc
  intro i j c d hc hd hrank hcrun hdrun
  rcases hcases i c hc with hold | ⟨rfl, rfl⟩
  · rcases hcases j d hd with hold' | ⟨rfl, rfl⟩
    · exact h.alone i j c d hold hold' hrank hcrun hdrun
    · rw [hidle c (List.mem_of_getElem? hold) hrank] at hcrun
      cases hcrun
  · rcases hcases j d hd with hold' | ⟨rfl, rfl⟩
    · rw [hidle d (List.mem_of_getElem? hold') hrank.symm] at hdrun
      cases hdrun
    · rfl

/-- A rank that is not the root joins; if it waits, then for an operation that has not
served it. -/
theorem Rooted.join {entries : List Entry} {flags : List Bool} {calls : List Call}
    (h : Rooted n root ⟨entries, flags, calls⟩) {call : Call} (hne : call.request.rank ≠ root)
    (hrank : call.request.rank < n)
    (hidle : ∀ c ∈ calls, c.request.rank = call.request.rank → c.isFinished = true)
    (hwaits : ∀ idx event, call.phase = .waiting idx event →
      ∃ e ∈ entries, e.event = event ∧ e.unserved call.request.rank = true) :
    Rooted n root ⟨entries, flags, calls ++ [call]⟩ := by
  have hsame : joinedOps (calls ++ [call]) root = joinedOps calls root := by
    rw [joinedOps_snoc, if_neg hne, List.append_nil]
  constructor
  · exact h.rows
  · exact h.increasing
  · exact h.created
  · exact forall_mem_snoc h.ranks hrank
  · simpa only [Ledger.rootCalls, hsame] using h.counted
  · simpa only [Ledger.rootCalls, hsame] using h.numbered
  · simpa only [Ledger.rootCalls, hsame] using h.flagged
  · simpa only [Ledger.rootCalls, hsame] using h.marked
  · simpa only [Ledger.rootCalls, hsame] using h.kept
  · exact forall_mem_snoc h.root_served fun hroot => absurd hroot hne
  · exact forall_mem_snoc h.waits hwaits
  · exact h.alone_snoc hidle

/-- The root fills its next operation and joins it. -/
theorem Rooted.rootJoin {entries : List Entry} {flags : List Bool} {calls : List Call}
    (h : Rooted n root ⟨entries, flags, calls⟩) (hroot : root < n) {idx : Nat} {e : Entry}
    {request : Request} (hrank : request.rank = root) (he : entries[idx]? = some e)
    (hevent : e.event = (joinedOps calls root).length)
    (hidle : ∀ c ∈ calls, c.request.rank = request.rank → c.isFinished = true) :
    Rooted n root ⟨entries.set idx ((e.fill request.value).mark root), flags.set e.event true,
      calls ++ [⟨request, some e.event, .served idx⟩]⟩ := by
  have hmem := List.mem_of_getElem? he
  have hcreated : e.event < flags.length := h.created e hmem
  have hlength : (joinedOps (calls ++ [⟨request, some e.event, .served idx⟩]) root).length =
      (joinedOps calls root).length + 1 := by
    rw [joinedOps_snoc, if_pos hrank, List.length_append, List.length_singleton]
  have hevents : (entries.set idx ((e.fill request.value).mark root)).map Entry.event =
      entries.map Entry.event := map_set_same he rfl
  have hrow : e.row.length = n := h.rows e hmem
  constructor
  · exact forall_mem_set h.rows (by simpa using hrow)
  · simpa only [Increasing, hevents] using h.increasing
  · show ∀ e' ∈ entries.set idx ((e.fill request.value).mark root),
      e'.event < (flags.set e.event true).length
    rw [List.length_set]
    exact forall_mem_set h.created hcreated
  · exact forall_mem_snoc h.ranks (by rw [hrank]; exact hroot)
  · show (joinedOps _ root).length ≤ (flags.set e.event true).length
    rw [hlength, List.length_set]
    omega
  · show joinedOps _ root = (List.range (joinedOps _ root).length).map some
    have hnumbered : joinedOps calls root = (List.range (joinedOps calls root).length).map some :=
      h.numbered
    rw [hlength, List.range_succ, List.map_append, ← hnumbered, joinedOps_snoc, if_pos hrank,
      hevent]
    rfl
  · intro op
    have hflagged : flags[op]? = some true ↔ op < (joinedOps calls root).length := h.flagged op
    show (flags.set e.event true)[op]? = some true ↔ op < (joinedOps _ root).length
    rw [hlength]
    by_cases hop : e.event = op
    · subst hop
      rw [List.getElem?_set_self hcreated]
      exact iff_of_true rfl (by omega)
    · rw [List.getElem?_set_ne hop, hflagged]
      omega
  · intro e' he'
    show e'.row[root]? = some true ↔ e'.event < (joinedOps _ root).length
    rw [hlength]
    rcases h.increasing.mem_set he he' with rfl | ⟨hother, hne⟩
    · have hbit : ((e.fill request.value).mark root).row[root]? = some true := by
        rw [Entry.mark_row, Entry.fill_row, List.getElem?_set_self (by omega)]
      rw [hbit, Entry.mark_event, Entry.fill_event]
      exact iff_of_true rfl (by omega)
    · have hmarked : e'.row[root]? = some true ↔ e'.event < (joinedOps calls root).length :=
        h.marked e' hother
      rw [hmarked]
      omega
  · intro op
    show (joinedOps _ root).length ≤ op → op < (flags.set e.event true).length → _
    rw [hlength, List.length_set]
    intro hle hlt
    obtain ⟨e', he', hop⟩ := h.kept op (show (joinedOps calls root).length ≤ op by omega) hlt
    obtain ⟨j, hj⟩ := List.mem_iff_getElem?.mp he'
    obtain ⟨e'', he'', hsame⟩ := exists_getElem?_set he
      (show ((e.fill request.value).mark root).event = e.event from rfl) hj
    exact ⟨e'', List.mem_of_getElem? he'', hsame.trans hop⟩
  · exact forall_mem_snoc h.root_served fun _ => rfl
  · apply forall_mem_snoc
    · -- a call that waits is not a call of the root, so its bit is still not set
      intro call hcall i event hphase
      obtain ⟨e', he', hop, hunserved⟩ := h.waits call hcall i event hphase
      have hother : root ≠ call.request.rank := by
        intro hsame
        have hserved := h.root_served call hcall hsame.symm
        rw [Call.isPending_of_waiting hphase] at hserved
        cases hserved
      obtain ⟨j, hj⟩ := List.mem_iff_getElem?.mp he'
      by_cases hij : idx = j
      · subst hij
        obtain rfl := Option.some.inj (he.symm.trans hj)
        refine ⟨(e.fill request.value).mark root,
          List.mem_set (List.getElem?_eq_some_iff.mp he).1 _, hop, ?_⟩
        rw [Entry.unserved, Entry.mark_row, Entry.fill_row, List.getElem?_set_ne hother]
        exact hunserved
      · have hget : (entries.set idx ((e.fill request.value).mark root))[j]? = some e' := by
          rw [List.getElem?_set_ne hij]
          exact hj
        exact ⟨e', List.mem_of_getElem? hget, hop, hunserved⟩
    · intro i event hphase
      cases hphase
  · exact h.alone_snoc hidle

/-! ### Steps -/

theorem markServed_out {es : List Entry} (flags : List Bool) {idx : Nat} (rank : Nat)
    (he : es[idx]? = none) :
    markServed idx rank (ofEntries es flags) = (.error .indexError, ofEntries es flags) := by
  simp [markServed, he]

theorem readValue_out {es : List Entry} (flags : List Bool) {idx : Nat} (he : es[idx]? = none) :
    readValue idx (ofEntries es flags) = (.error .indexError, ofEntries es flags) := by
  simp [readValue, he]

/-- The first locked section of a call.  A call of the root fills the next operation of
the root. -/
theorem Rooted.start {entries : List Entry} {flags : List Bool} {calls : List Call}
    {request : Request} (h : Rooted n root ⟨entries, flags, calls⟩) (hroot : root < n)
    (hworkers : request.numWorkers = n) (hrank : request.rank < n)
    (hrequest : request.root = root)
    (hidle : ∀ c ∈ calls, c.request.rank = request.rank → c.isFinished = true) :
    ∃ entries' flags' call, startCall (ofEntries entries flags) request =
        (ofEntries entries' flags', call) ∧
      Rooted n root ⟨entries', flags', calls ++ [call]⟩ ∧
      (request.rank = root → ∃ e ∈ entries', e.event = (joinedOps calls root).length ∧
        e.value = some request.value ∧ flags'[e.event]? = some true) := by
  have hrows : ∀ e ∈ entries, request.rank < e.row.length := by
    intro e he
    rw [h.rows e he]
    exact hrank
  have henter := enter_apply flags hrows
  obtain ⟨entries', flags', idx, e, hselect, hnext, he, hunserved, hevent⟩ :=
    h.select hroot hrank
  rw [hworkers, hselect] at henter
  have hlt : request.rank < e.row.length := by
    rw [hnext.rows e (List.mem_of_getElem? he)]
    exact hrank
  have hidx : idx < entries'.length := (List.getElem?_eq_some_iff.mp he).1
  by_cases hsame : request.rank = root
  · -- the root fills the operation
    rw [serve_root _ (hsame.trans hrequest.symm) he hlt] at henter
    have hcreated : e.event < flags'.length := hnext.created e (List.mem_of_getElem? he)
    refine ⟨_, _, _, ?_, hnext.rootJoin hroot hsame he (hevent hsame) hidle, ?_⟩
    · simp [startCall, henter, hidx, hsame]
    · intro _
      exact ⟨(e.fill request.value).mark root, List.mem_set hidx _, hevent hsame, rfl,
        List.getElem?_set_self hcreated⟩
  · have hother : request.rank ≠ request.root := by
      rw [hrequest]
      exact hsame
    by_cases hvalue : e.value = none
    · -- the rank waits for the operation, which has not served it
      rw [serve_wait hother he hvalue] at henter
      refine ⟨entries', flags', ⟨request, some e.event, .waiting idx e.event⟩, ?_, ?_, ?_⟩
      · simp [startCall, henter, he]
      · apply hnext.join hsame hrank hidle
        intro i event hphase
        cases hphase
        exact ⟨e, List.mem_of_getElem? he, rfl, hunserved⟩
      · intro h'
        exact absurd h' hsame
    · -- the rank is served at once; it has no other call that could wait
      rw [serve_pick hother he hvalue hlt] at henter
      have hquiet : ∀ call ∈ calls, ∀ i event, call.phase = .waiting i event →
          call.request.rank ≠ request.rank := by
        intro call hcall i event hphase heq
        have hfinished := hidle call hcall heq
        rw [Call.isFinished_of_isPending (Call.isPending_of_waiting hphase)] at hfinished
        cases hfinished
      have hmarked := hnext.mark hsame he hquiet
      refine ⟨_, flags', ⟨request, some e.event, .served idx⟩, ?_,
        hmarked.join hsame hrank hidle ?_, ?_⟩
      · simp [startCall, henter, hidx]
      · intro i event hphase
        cases hphase
      · intro h'
        exact absurd h' hsame

/-- A later piece of a call, also one that raises. -/
theorem Rooted.resume {entries : List Entry} {flags : List Bool} {calls : List Call} {i : Nat}
    {call call' : Call} {state' : State} (h : Rooted n root ⟨entries, flags, calls⟩)
    (hcall : calls[i]? = some call)
    (hresume : resumeCall (ofEntries entries flags) call = some (state', call')) :
    ∃ entries' flags', state' = ofEntries entries' flags' ∧
      Rooted n root ⟨entries', flags', calls.set i call'⟩ := by
  have hmem := List.mem_of_getElem? hcall
  unfold resumeCall at hresume
  cases hphase : call.phase with
  | waiting idx event =>
      have hrunning : call.isFinished = false := by simp [Call.isFinished, hphase]
      by_cases hflag : flags[event]? = some true
      · simp only [hphase, ofEntries_eventFlags, hflag, if_true, Option.some.injEq,
          Prod.mk.injEq] at hresume
        obtain ⟨rfl, rfl⟩ := hresume
        refine ⟨entries, flags, rfl, h.advance hcall hrunning ?_ nofun⟩
        intro _
        exact Call.isPending_of_waiting hphase
      · simp [hphase, hflag] at hresume
  | woken idx =>
      have hrunning : call.isFinished = false := by simp [Call.isFinished, hphase]
      have hpending : call.isPending = true := by simp [Call.isPending, hphase]
      cases he : entries[idx]? with
      | none =>
          simp only [hphase, markServed_out flags _ he, Option.some.injEq, Prod.mk.injEq] at hresume
          obtain ⟨rfl, rfl⟩ := hresume
          exact ⟨entries, flags, rfl, h.advance hcall hrunning (fun _ => hpending) nofun⟩
      | some e =>
          have hlt : call.request.rank < e.row.length := by
            rw [h.rows e (List.mem_of_getElem? he)]
            exact h.ranks call hmem
          have hne : call.request.rank ≠ root := by
            intro hroot
            rw [h.root_served call hmem hroot] at hpending
            cases hpending
          -- the other calls of the rank are over, so none of them waits
          have hquiet : ∀ c ∈ calls.set i { call with phase := .served idx }, ∀ j event,
              c.phase = .waiting j event → c.request.rank ≠ call.request.rank := by
            intro c hc j event hwait hrank
            rcases mem_set_cases hc with rfl | hold
            · cases hwait
            · obtain ⟨k, hk⟩ := List.mem_iff_getElem?.mp hold
              have hcrun := Call.isFinished_of_isPending (Call.isPending_of_waiting hwait)
              have hki := h.alone k i c call hk hcall hrank hcrun hrunning
              rw [hki, hcall] at hk
              cases hk
              rw [hphase] at hwait
              cases hwait
          simp only [hphase, markServed_apply flags he hlt, Option.some.injEq,
            Prod.mk.injEq] at hresume
          obtain ⟨rfl, rfl⟩ := hresume
          have hmoved : Rooted n root
              ⟨entries, flags, calls.set i { call with phase := .served idx }⟩ :=
            h.advance hcall hrunning nofun nofun
          exact ⟨_, flags, rfl, hmoved.mark hne he hquiet⟩
  | served idx =>
      have hrunning : call.isFinished = false := by simp [Call.isFinished, hphase]
      cases he : entries[idx]? with
      | none =>
          simp only [hphase, readValue_out flags he, Option.some.injEq, Prod.mk.injEq] at hresume
          obtain ⟨rfl, rfl⟩ := hresume
          exact ⟨entries, flags, rfl, h.advance hcall hrunning nofun nofun⟩
      | some e =>
          simp only [hphase, readValue_apply flags he, Option.some.injEq, Prod.mk.injEq] at hresume
          obtain ⟨rfl, rfl⟩ := hresume
          exact ⟨entries, flags, rfl, h.advance hcall hrunning nofun nofun⟩
  | returned value => simp [hphase] at hresume
  | raised error => simp [hphase] at hresume

/-- Every reachable state is described by a ledger with the invariant. -/
theorem reachable_rooted (hroot : root < n) {s : System}
    (hreach : machine.Reachable (FixedRootCalls n root) s) :
    ∃ l : Ledger, s = l.system ∧ Rooted n root l := by
  refine hreach.invariant (fun s => ∃ l : Ledger, s = l.system ∧ Rooted n root l) ?_ ?_
  · intro s hinit
    exact ⟨⟨[], [], []⟩, hinit, Rooted.initial⟩
  · rintro _ action t ⟨⟨entries, flags, calls⟩, rfl, h⟩ hguard hnext
    cases action with
    | enter request =>
        obtain ⟨hworkers, hrank, hrequest, hidle⟩ := hguard
        obtain ⟨entries', flags', call, hstart, hnew, -⟩ :=
          h.start hroot hworkers hrank hrequest hidle
        refine ⟨⟨entries', flags', calls ++ [call]⟩, ?_, hnew⟩
        simpa [machine, step, Ledger.system, hstart] using hnext.symm
    | resume index =>
        simp only [machine, step, Ledger.system] at hnext
        cases hcall : calls[index]? with
        | none => simp [hcall] at hnext
        | some call =>
            cases hresume : resumeCall (ofEntries entries flags) call with
            | none => simp [hcall, hresume] at hnext
            | some result =>
                obtain ⟨state', call'⟩ := result
                simp only [hcall, hresume, Option.some.injEq] at hnext
                obtain ⟨entries', flags', rfl, hnew⟩ := h.resume hcall hresume
                exact ⟨⟨entries', flags', _⟩, hnext.symm, hnew⟩

/-- The calls of the root, counted in the system. -/
theorem length_callsOf (l : Ledger) (root : Nat) :
    (l.system.callsOf root).length = l.rootCalls root := by
  simp [System.callsOf, Ledger.system, Ledger.rootCalls, joinedOps]

/-- The events that are set are those of the operations the root has filled. -/
theorem flag_iff (hroot : root < n) {s : System}
    (hreach : machine.Reachable (FixedRootCalls n root) s) (op : Nat) :
    s.state.eventFlags[op]? = some true ↔ op < (s.callsOf root).length := by
  obtain ⟨l, rfl, h⟩ := reachable_rooted hroot hreach
  rw [length_callsOf]
  exact h.flagged op

/-! ### No waiter is orphaned -/

/-- The three lists hold the operation at one position. -/
def State.HasOp (state : State) (e : Entry) : Prop :=
  ∃ i : Nat, state.values[i]? = some e.value ∧ state.bitmap[i]? = some e.row ∧
    state.events[i]? = some e.event

theorem hasOp_of_mem {entries : List Entry} (flags : List Bool) {e : Entry} (he : e ∈ entries) :
    (ofEntries entries flags).HasOp e := by
  obtain ⟨i, hi⟩ := List.mem_iff_getElem?.mp he
  exact ⟨i, by simp [hi], by simp [hi], by simp [hi]⟩

/-- **No waiter is orphaned.**  In every reachable state, with `k` the number of calls
the root has made so far:

* the operation a call waits for is in the lists, and the cleanup loop keeps it;
* the calls of the root joined the operations `0`, …, `k - 1`, and its next call stores
  its value in operation `k` and sets the event of that operation;
* the events that are set are those of the operations below `k`, so that a call that
  waits for an event that is not set waits for an operation the root has not reached. -/
theorem broadcast_no_orphan (hroot : root < n) {s : System}
    (hreach : machine.Reachable (FixedRootCalls n root) s) :
    (∀ call ∈ s.calls, ∀ idx event, call.phase = .waiting idx event →
      ∃ e : Entry, e.event = event ∧ s.state.HasOp e ∧
        (cleanupBelow s.state.bitmap.length s.state).1 = .ok () ∧
        (cleanupBelow s.state.bitmap.length s.state).2.HasOp e) ∧
    ((s.callsOf root).map Call.joined = (List.range (s.callsOf root).length).map some ∧
      ∀ request, FixedRootCalls n root s (.enter request) → request.rank = root →
        ∃ s' row, machine.step s (.enter request) = some s' ∧
          s'.state.HasOp ⟨some request.value, row, (s.callsOf root).length⟩ ∧
          s.state.eventFlags[(s.callsOf root).length]? ≠ some true ∧
          s'.state.eventFlags[(s.callsOf root).length]? = some true) ∧
    (∀ event, s.state.eventFlags[event]? = some true ↔ event < (s.callsOf root).length) ∧
    (∀ call ∈ s.calls, ∀ idx event, call.phase = .waiting idx event →
      s.state.eventFlags[event]? = some false → (s.callsOf root).length < event + 1) := by
  have hflag_iff := flag_iff hroot hreach
  obtain ⟨⟨entries, flags, calls⟩, rfl, h⟩ := reachable_rooted hroot hreach
  have hcleanup : cleanupBelow entries.length (ofEntries entries flags) =
      (.ok (), ofEntries (entries.filter Entry.isOpen) flags) := by
    simpa using cleanupBelow_apply entries [] flags
  rw [length_callsOf] at hflag_iff ⊢
  refine ⟨?_, ⟨h.numbered, ?_⟩, hflag_iff, ?_⟩
  · intro call hcall idx event hphase
    obtain ⟨e, he, hevent, hunserved⟩ := h.waits call hcall idx event hphase
    have hkept := List.mem_filter.mpr ⟨he, Entry.isOpen_of_unserved hunserved⟩
    simp only [Ledger.system, ofEntries_bitmap, List.length_map, hcleanup]
    exact ⟨e, hevent, hasOp_of_mem flags he, trivial, hasOp_of_mem flags hkept⟩
  · rintro request ⟨hworkers, hrank, hrequest, hidle⟩ hsame
    obtain ⟨entries', flags', call, hstart, -, hfilled⟩ :=
      h.start hroot hworkers hrank hrequest hidle
    obtain ⟨e, he, hevent, hvalue, hflag⟩ := hfilled hsame
    have hnumber : e.event = Ledger.rootCalls ⟨entries, flags, calls⟩ root := hevent
    refine ⟨⟨ofEntries entries' flags', calls ++ [call]⟩, e.row, ?_, ?_, ?_, ?_⟩
    · simp [machine, step, Ledger.system, hstart]
    · rw [← hnumber, ← hvalue]
      exact hasOp_of_mem flags' he
    · intro hset
      exact absurd ((hflag_iff _).mp hset) (Nat.lt_irrefl _)
    · rw [← hnumber]
      exact hflag
  · intro call hcall idx event hphase hunset
    have hset : ¬ event < Ledger.rootCalls ⟨entries, flags, calls⟩ root := by
      rw [← hflag_iff event, hunset]
      intro heq
      cases heq
    omega

/-- A schedule of three ranks in which a call raises: rank `1` waits for the second
operation while the first one is removed, so the position it marks is out of range.
Its next call is served by the second operation, and the one after that waits. -/
def raisingSchedule : List Action :=
  [.enter ⟨7, 0, 3, 0⟩, .resume 0, .enter ⟨0, 1, 3, 0⟩, .resume 1, .enter ⟨0, 1, 3, 0⟩,
    .enter ⟨0, 2, 3, 0⟩, .enter ⟨8, 0, 3, 0⟩, .resume 2, .resume 2, .enter ⟨0, 1, 3, 0⟩,
    .resume 5, .enter ⟨0, 1, 3, 0⟩]

/-- The state after it. -/
def raisedState : System :=
  ⟨⟨[some 8, none], [[true, true, false], [false, false, false]], [1, 2], [true, true, false]⟩,
    [⟨⟨7, 0, 3, 0⟩, some 0, .returned 7⟩, ⟨⟨0, 1, 3, 0⟩, some 0, .returned 7⟩,
      ⟨⟨0, 1, 3, 0⟩, some 1, .raised .indexError⟩, ⟨⟨0, 2, 3, 0⟩, some 0, .served 0⟩,
      ⟨⟨8, 0, 3, 0⟩, some 1, .served 0⟩, ⟨⟨0, 1, 3, 0⟩, some 1, .returned 8⟩,
      ⟨⟨0, 1, 3, 0⟩, some 2, .waiting 1 2⟩]⟩

/-- There the call that waits has its operation, and the next call of the root is the
third one. -/
theorem broadcast_no_orphan_raised :
    (∃ call ∈ raisedState.calls, call.phase = .raised .indexError) ∧
      (∃ e : Entry, e.event = 2 ∧ raisedState.state.HasOp e) ∧
      (raisedState.callsOf 0).length < 3 := by
  have hexec : machine.exec (FixedRootCalls 3 0) ⟨.initial, []⟩ raisingSchedule =
      some raisedState := by decide +kernel
  have hrun := Machine.run_of_exec machine _ _ _ (show machine.init ⟨.initial, []⟩ from rfl) hexec
  have horphan := broadcast_no_orphan (show 0 < 3 by decide) hrun.reachable
  have hwaits : (⟨⟨0, 1, 3, 0⟩, some 2, .waiting 1 2⟩ : Call) ∈ raisedState.calls := by decide
  obtain ⟨e, hevent, hop, -⟩ := horphan.1 _ hwaits 1 2 rfl
  have hnext := horphan.2.2.2 _ hwaits 1 2 rfl rfl
  exact ⟨by decide, ⟨e, hevent, hop⟩, hnext⟩

end Broadcast
end Controller
end FlashReduce
