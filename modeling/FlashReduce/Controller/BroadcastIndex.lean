import FlashReduce.Controller.BroadcastLedger

/-!
# The saved index of Broadcast

A call of `Broadcast` keeps the position it selected across the release of its
lock, while the cleanup loop of every other call may remove operations in front
of that position.

* `IndexValid` is the property under study: a position held by a call is in
  range and denotes the operation the call joined, no call raises, and a rank is
  marked only in operations that a call of the rank joined.
* `broadcast_index_valid` shows that it holds in every run in which a call
  starts only while no operation at or before a held position has served every
  rank.
* `broadcast_index_shifted` is a run of two ranks in which the cleanup of one
  rank shifts the operation another rank waits for.
-/

namespace FlashReduce
namespace Controller
namespace Broadcast

open Library

/-- Each of `n` ranks makes its calls one at a time. -/
def RankCalls (n : Nat) (s : System) : Action → Prop
  | .enter request =>
      request.numWorkers = n ∧ request.rank < n ∧ request.root < n ∧ s.Idle request.rank
  | .resume _ => True

/-- No operation at or before the position of the call has served every rank. -/
def Call.keeps (bitmap : List (List Bool)) (call : Call) : Bool :=
  match call.position with
  | some idx => (bitmap.take (idx + 1)).all fun row => !row.all id
  | none => true

/-- A call starts only while the cleanup loop keeps every held position. -/
def PositionsKept (s : System) : Action → Prop
  | .enter _ => ∀ call ∈ s.calls, call.keeps s.state.bitmap = true
  | .resume _ => True

instance (n : Nat) (s : System) : ∀ action, Decidable (RankCalls n s action)
  | .enter request => inferInstanceAs (Decidable
      (request.numWorkers = n ∧ request.rank < n ∧ request.root < n ∧ s.Idle request.rank))
  | .resume _ => inferInstanceAs (Decidable True)

instance (s : System) : ∀ action, Decidable (PositionsKept s action)
  | .enter _ => inferInstanceAs (Decidable (∀ call ∈ s.calls, call.keeps s.state.bitmap = true))
  | .resume _ => inferInstanceAs (Decidable True)

/-- Held positions are in range and denote the operations that were joined, no
call raises, and a rank is marked only in operations that it joined. -/
structure IndexValid (s : System) : Prop where
  in_range : ∀ call ∈ s.calls, ∀ idx, call.position = some idx →
    idx < s.state.bitmap.length ∧ idx < s.state.values.length
  denotes : ∀ call ∈ s.calls, ∀ idx, call.position = some idx →
    ∃ op, call.joined = some op ∧ s.state.events[idx]? = some op
  no_error : ∀ call ∈ s.calls, ∀ error, call.phase ≠ .raised error
  marked : ∀ (idx : Nat) (row : List Bool) (rank : Nat), s.state.bitmap[idx]? = some row →
    row[rank]? = some true →
    ∃ call ∈ s.calls, call.request.rank = rank ∧ call.joined = s.state.events[idx]? ∧
      call.isServed = true

/-- The condition on positions, in terms of the operations. -/
theorem kept_of_positionsKept {l : Ledger} {request : Request}
    (h : PositionsKept l.system (.enter request)) : Kept l.entries l.calls := by
  intro call hcall idx hidx e he
  have hkeeps := h call hcall
  simp only [Call.keeps, hidx, Ledger.system, ofEntries_bitmap, List.all_eq_true] at hkeeps
  have hrow := hkeeps e.row (by rw [← List.map_take]; exact List.mem_map_of_mem he)
  simpa [Entry.isOpen] using hrow

theorem Inv.indexValid {n : Nat} {l : Ledger} (hinv : Inv n l) : IndexValid l.system where
  in_range := by
    intro call hcall idx hidx
    obtain ⟨e, he, -⟩ := hinv.positions call hcall idx hidx
    have hlt : idx < l.entries.length := (List.getElem?_eq_some_iff.mp he).1
    simpa [Ledger.system] using hlt
  denotes := by
    intro call hcall idx hidx
    obtain ⟨e, he, hjoined⟩ := hinv.positions call hcall idx hidx
    exact ⟨e.event, hjoined, by simp [Ledger.system, he]⟩
  no_error := hinv.no_error
  marked := by
    intro idx row rank hrow hbit
    simp only [Ledger.system, ofEntries_bitmap, List.getElem?_map, Option.map_eq_some_iff] at hrow
    obtain ⟨e, he, rfl⟩ := hrow
    have hmem := List.mem_of_getElem? he
    have hrank : rank < n := by
      rw [← hinv.rows e hmem]
      exact (List.getElem?_eq_some_iff.mp hbit).1
    obtain ⟨call, hcall, hcaller, hjoined, hserved⟩ := (hinv.marked e hmem rank hrank).mp hbit
    exact ⟨call, hcall, hcaller, by simp [Ledger.system, he, hjoined], hserved⟩

/-- The initial system is the empty ledger. -/
theorem eq_system_of_init {s : System} (h : machine.init s) :
    s = Ledger.system ⟨[], [], []⟩ := h

/-- The state of every such run is a ledger that meets the invariant. -/
theorem reachable_inv {n : Nat} {s : System}
    (hreach : machine.Reachable (fun s action => RankCalls n s action ∧ PositionsKept s action) s) :
    ∃ l : Ledger, s = l.system ∧ Inv n l := by
  refine hreach.invariant (fun s => ∃ l : Ledger, s = l.system ∧ Inv n l) ?_ ?_
  · exact fun s hinit => ⟨_, eq_system_of_init hinit, Inv.initial n⟩
  · rintro _ action s' ⟨l, rfl, hinv⟩ ⟨hcalls, hkept⟩ hstep
    have henter : ∀ request, action = .enter request → request.numWorkers = n ∧
        request.rank < n ∧ l.Idle request.rank ∧ True ∧ Kept l.entries l.calls := by
      rintro request rfl
      obtain ⟨hworkers, hrank, -, hidle⟩ := hcalls
      exact ⟨hworkers, hrank, hidle, trivial, kept_of_positionsKept hkept⟩
    obtain ⟨l', hl', hmoves⟩ := hinv.step_moves (fun _ _ => True) henter hstep
    exact ⟨l', hl', hinv.moves hmoves⟩

/-- **The saved index stays valid** in every run in which a call starts only
while no operation at or before a held position has served every rank. -/
theorem broadcast_index_valid (n : Nat) {s : System}
    (hreach : machine.Reachable (fun s action => RankCalls n s action ∧ PositionsKept s action) s) :
    IndexValid s := by
  obtain ⟨l, rfl, hinv⟩ := reachable_inv hreach
  exact hinv.indexValid

/-- Two ranks: rank `0` waits at position `1`, and rank `1` has been served at
position `0` but has not read its value yet. -/
theorem broadcast_index_valid_two_ranks :
    ∃ s : System, s.calls.map Call.position = [none, some 1, some 0] ∧
      s.state.bitmap = [[true, true], [false, false]] ∧ IndexValid s := by
  have hrun := Machine.run_of_exec machine
    (fun s action => RankCalls 2 s action ∧ PositionsKept s action) ⟨.initial, []⟩
    [.enter ⟨7, 0, 2, 0⟩, .resume 0, .enter ⟨0, 0, 2, 1⟩, .enter ⟨0, 1, 2, 0⟩] rfl rfl
  exact ⟨_, rfl, rfl, broadcast_index_valid 2 hrun.reachable⟩

/-- Without the condition the index does not stay valid: rank `1` waits at
position `1`, the cleanup of rank `0` moves its operation to position `0`, and
rank `1` raises when it marks position `1`. -/
theorem broadcast_index_shifted :
    ¬ ∀ (n : Nat) (s : System), machine.Reachable (RankCalls n) s → IndexValid s := by
  intro h
  have hrun := Machine.run_of_exec machine (RankCalls 2) ⟨.initial, []⟩
    [.enter ⟨3, 1, 2, 1⟩, .resume 0, .enter ⟨0, 1, 2, 0⟩, .enter ⟨0, 0, 2, 1⟩, .resume 2,
      .enter ⟨4, 0, 2, 0⟩, .resume 3, .resume 1, .resume 1] rfl rfl
  have hvalid := h 2 _ hrun.reachable
  exact hvalid.no_error ⟨⟨0, 1, 2, 0⟩, some 1, .raised .indexError⟩ (by decide) .indexError rfl

end Broadcast
end Controller
end FlashReduce
