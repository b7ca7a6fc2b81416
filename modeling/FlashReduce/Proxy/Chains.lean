import FlashReduce.Library.Linked
import FlashReduce.Proxy.Handler
import Mathlib.Data.List.Nodup
import Mathlib.Data.List.Perm.Basic

/-!
# The queue as a list of channels

The queue is a ring with one operation for each channel that has operations in
it; behind each of them hangs the chain of the channel's later operations.  An
`Entry` is a channel with its operation in the ring and the chain behind it.

`Chains` says how the chains and the channel cells lie in memory.  It does not
depend on the order of the ring (`Chains.perm`).  The lemmas after it say what
happens to the chains when the first operation of a channel leaves
(`Chains.pop`, `Chains.drop`) and when one is appended (`Chains.push`,
`Chains.add`).
-/

namespace FlashReduce
namespace Proxy

open Library

variable {Chan : Type}

/-- A channel with its operation in the ring and the operations behind it. -/
structure Entry (Chan : Type) where
  chan : Chan
  head : Slot
  peers : List Slot

namespace Entry

/-- The operations of the channel, in the order in which they were appended. -/
def slots (e : Entry Chan) : List Slot := e.head :: e.peers

/-- The last operation of the channel. -/
def last (e : Entry Chan) : Slot := e.peers.getLast?.getD e.head

/-- Append an operation to the channel. -/
def push (e : Entry Chan) (s : Slot) : Entry Chan := { e with peers := e.peers ++ [s] }

/-- Remove the first operation; nothing is left when there is no other one. -/
def pop (e : Entry Chan) : Option (Entry Chan) :=
  match e.peers with
  | [] => none
  | peer :: rest => some ⟨e.chan, peer, rest⟩

@[simp] theorem push_chan (e : Entry Chan) (s : Slot) : (e.push s).chan = e.chan := rfl

@[simp] theorem push_head (e : Entry Chan) (s : Slot) : (e.push s).head = e.head := rfl

@[simp] theorem push_slots (e : Entry Chan) (s : Slot) : (e.push s).slots = e.slots ++ [s] := rfl

@[simp] theorem push_last (e : Entry Chan) (s : Slot) : (e.push s).last = s := by
  simp [last, push]

theorem head_mem_slots (e : Entry Chan) : e.head ∈ e.slots := List.mem_cons_self

/-- The operations of a channel end with the last one. -/
theorem exists_slots_eq_snoc (e : Entry Chan) : ∃ front, e.slots = front ++ [e.last] := by
  rcases List.eq_nil_or_concat e.peers with hnil | ⟨front, s, hsnoc⟩
  · exact ⟨[], by simp [slots, last, hnil]⟩
  · refine ⟨e.head :: front, ?_⟩
    simp [slots, last, hsnoc, List.concat_eq_append]

theorem last_mem_slots (e : Entry Chan) : e.last ∈ e.slots := by
  obtain ⟨front, hfront⟩ := e.exists_slots_eq_snoc
  simp [hfront]

theorem slots_of_pop_none {e : Entry Chan} (h : e.pop = none) : e.slots = [e.head] := by
  unfold pop at h
  split at h
  · next hpeers => simp [slots, hpeers]
  · cases h

theorem slots_of_pop_some {e e' : Entry Chan} (h : e.pop = some e') :
    e'.chan = e.chan ∧ e.slots = e.head :: e'.slots ∧ e'.last = e.last := by
  unfold pop at h
  split at h
  · cases h
  · next peer rest hpeers =>
    cases h
    simp [slots, last, hpeers, List.getLast?_cons]

end Entry

/-- The operations in the ring. -/
def heads (ring : List (Entry Chan)) : List Slot := ring.map Entry.head

/-- All queued operations. -/
def queued (ring : List (Entry Chan)) : List Slot := ring.flatMap Entry.slots

@[simp] theorem queued_nil : queued ([] : List (Entry Chan)) = [] := rfl

@[simp] theorem queued_cons (e : Entry Chan) (ring : List (Entry Chan)) :
    queued (e :: ring) = e.slots ++ queued ring := List.flatMap_cons

@[simp] theorem queued_append (front back : List (Entry Chan)) :
    queued (front ++ back) = queued front ++ queued back := List.flatMap_append

@[simp] theorem heads_cons (e : Entry Chan) (ring : List (Entry Chan)) :
    heads (e :: ring) = e.head :: heads ring := rfl

@[simp] theorem heads_append (front back : List (Entry Chan)) :
    heads (front ++ back) = heads front ++ heads back := List.map_append

theorem heads_sublist_queued (ring : List (Entry Chan)) : (heads ring).Sublist (queued ring) := by
  induction ring with
  | nil => exact List.Sublist.slnil
  | cons e ring ih => exact (ih.trans (List.sublist_append_right e.peers _)).cons_cons e.head

theorem mem_queued {ring : List (Entry Chan)} {s : Slot} :
    s ∈ queued ring ↔ ∃ e ∈ ring, s ∈ e.slots := List.mem_flatMap

/-! ### Chains and cells -/

variable [DecidableEq Chan]

/-- How the chains and the channel cells of the entries lie in memory. -/
structure Chains (nextPeer : Slot → Option Slot) (proxyTail : Slot → Option Chan)
    (cell : Chan → Option Slot) (ring : List (Entry Chan)) : Prop where
  chains : ∀ e ∈ ring, Segment nextPeer (some e.head) e.slots none
  tails : ∀ e ∈ ring, ∀ s ∈ e.slots, proxyTail s = some e.chan
  cells : ∀ e ∈ ring, cell e.chan = some e.last
  idle_cells : ∀ c, c ∉ ring.map Entry.chan → cell c = none
  chans : (ring.map Entry.chan).Nodup

variable {nextPeer : Slot → Option Slot} {proxyTail : Slot → Option Chan}
  {cell : Chan → Option Slot} {ring ring' : List (Entry Chan)} {e e' : Entry Chan} {s : Slot}

namespace Chains

omit [DecidableEq Chan] in
/-- The order of the ring does not matter. -/
theorem perm (h : Chains nextPeer proxyTail cell ring) (hperm : ring.Perm ring') :
    Chains nextPeer proxyTail cell ring' where
  chains := fun e he => h.chains e (hperm.mem_iff.mpr he)
  tails := fun e he => h.tails e (hperm.mem_iff.mpr he)
  cells := fun e he => h.cells e (hperm.mem_iff.mpr he)
  idle_cells := fun c hc => h.idle_cells c (fun hmem => hc ((hperm.map _).mem_iff.mp hmem))
  chans := (hperm.map _).nodup_iff.mp h.chans

omit [DecidableEq Chan] in
/-- The chain behind an operation starts at its `nextPeer`. -/
theorem nextPeer_head (h : Chains nextPeer proxyTail cell (e :: ring)) :
    nextPeer e.head = e.pop.map Entry.head := by
  have hpeers := (h.chains e List.mem_cons_self).2
  unfold Entry.pop
  cases hcases : e.peers with
  | nil =>
      rw [hcases] at hpeers
      exact hpeers
  | cons peer rest =>
      rw [hcases] at hpeers
      exact hpeers.1

omit [DecidableEq Chan] in
/-- The first operation of a channel leaves and the next one takes its place. -/
theorem pop (h : Chains nextPeer proxyTail cell (e :: ring)) (hpop : e.pop = some e') :
    Chains nextPeer proxyTail cell (e' :: ring) := by
  obtain ⟨hchan, hslots, hlast⟩ := Entry.slots_of_pop_some hpop
  refine ⟨?_, ?_, ?_, ?_, ?_⟩
  · have hchain := h.chains e List.mem_cons_self
    rw [hslots] at hchain
    have hrest : Segment nextPeer (some e'.head) e'.slots none :=
      ⟨rfl, hchain.2.2⟩
    exact List.forall_mem_cons.mpr
      ⟨hrest, fun f hf => h.chains f (List.mem_cons_of_mem e hf)⟩
  · refine List.forall_mem_cons.mpr ⟨?_, fun f hf => h.tails f (List.mem_cons_of_mem e hf)⟩
    intro s hs
    rw [hchan]
    exact h.tails e List.mem_cons_self s (by rw [hslots]; exact List.mem_cons_of_mem _ hs)
  · refine List.forall_mem_cons.mpr ⟨?_, fun f hf => h.cells f (List.mem_cons_of_mem e hf)⟩
    rw [hchan, hlast]
    exact h.cells e List.mem_cons_self
  · intro c hc
    refine h.idle_cells c ?_
    simpa [hchan] using hc
  · simpa [hchan] using h.chans

/-- The only operation of a channel leaves. -/
theorem drop (h : Chains nextPeer proxyTail cell (e :: ring)) :
    Chains nextPeer proxyTail (Function.update cell e.chan none) ring := by
  have hchans : e.chan ∉ ring.map Entry.chan ∧ (ring.map Entry.chan).Nodup :=
    List.nodup_cons.mp h.chans
  refine ⟨fun f hf => h.chains f (List.mem_cons_of_mem e hf),
    fun f hf => h.tails f (List.mem_cons_of_mem e hf), ?_, ?_, hchans.2⟩
  · intro f hf
    have hne : f.chan ≠ e.chan := fun heq => hchans.1 (heq ▸ List.mem_map_of_mem hf)
    rw [Function.update_of_ne hne]
    exact h.cells f (List.mem_cons_of_mem e hf)
  · intro c hc
    by_cases heq : c = e.chan
    · rw [heq, Function.update_self]
    · rw [Function.update_of_ne heq]
      exact h.idle_cells c (by simp [heq] at hc ⊢; exact hc)

/-- An operation is appended to a channel that has operations. -/
theorem push (h : Chains nextPeer proxyTail cell (e :: ring)) (hnodup : (queued (e :: ring)).Nodup)
    (hs : s ∉ queued (e :: ring)) (hpeer : nextPeer s = none)
    (htail : proxyTail s = some e.chan) :
    Chains (Function.update nextPeer e.last (some s)) proxyTail
      (Function.update cell e.chan (some s)) (e.push s :: ring) := by
  have hchans : e.chan ∉ ring.map Entry.chan ∧ (ring.map Entry.chan).Nodup :=
    List.nodup_cons.mp h.chans
  obtain ⟨hslots, -, hapart⟩ := List.nodup_append.mp hnodup
  obtain ⟨front, hfront⟩ := e.exists_slots_eq_snoc
  have hlast : e.last ∉ front := by
    rw [hfront] at hslots
    exact fun hmem => (List.nodup_append.mp hslots).2.2 e.last hmem e.last (by simp) rfl
  have hne : s ≠ e.last := by
    rintro rfl
    exact hs (by simp [e.last_mem_slots])
  refine ⟨?_, ?_, ?_, ?_, h.chans⟩
  · refine List.forall_mem_cons.mpr ⟨?_, fun f hf => ?_⟩
    · have hchain := h.chains e List.mem_cons_self
      rw [hfront] at hchain
      rw [Entry.push_slots, Entry.push_head, hfront]
      refine segment_append.mpr ⟨some s, hchain.redirect hlast (some s), rfl, ?_⟩
      rw [segment_nil, Function.update_of_ne hne]
      exact hpeer
    · refine (h.chains f (List.mem_cons_of_mem e hf)).frame (fun hmem => ?_) (some s)
      exact hapart e.last e.last_mem_slots e.last (mem_queued.mpr ⟨f, hf, hmem⟩) rfl
  · refine List.forall_mem_cons.mpr ⟨?_, fun f hf => h.tails f (List.mem_cons_of_mem e hf)⟩
    intro x hx
    rw [Entry.push_slots] at hx
    rcases List.mem_append.mp hx with hold | hnew
    · exact h.tails e List.mem_cons_self x hold
    · rw [List.mem_singleton.mp hnew]
      exact htail
  · refine List.forall_mem_cons.mpr ⟨by simp, fun f hf => ?_⟩
    have hchan : f.chan ≠ e.chan := fun heq => hchans.1 (heq ▸ List.mem_map_of_mem hf)
    rw [Function.update_of_ne hchan]
    exact h.cells f (List.mem_cons_of_mem e hf)
  · intro c hc
    have hchan : c ≠ e.chan := fun heq => hc (by simp [heq])
    rw [Function.update_of_ne hchan]
    exact h.idle_cells c hc

/-- An operation is appended to a channel that has none. -/
theorem add {c : Chan} (h : Chains nextPeer proxyTail cell ring)
    (hc : c ∉ ring.map Entry.chan) (hpeer : nextPeer s = none) (htail : proxyTail s = some c) :
    Chains nextPeer proxyTail (Function.update cell c (some s)) (⟨c, s, []⟩ :: ring) := by
  refine ⟨?_, ?_, ?_, ?_, List.nodup_cons.mpr ⟨hc, h.chans⟩⟩
  · exact List.forall_mem_cons.mpr ⟨⟨rfl, hpeer⟩, h.chains⟩
  · exact List.forall_mem_cons.mpr ⟨by simpa [Entry.slots] using htail, h.tails⟩
  · refine List.forall_mem_cons.mpr ⟨by simp [Entry.last], fun f hf => ?_⟩
    have hne : f.chan ≠ c := fun heq => hc (heq ▸ List.mem_map_of_mem hf)
    rw [Function.update_of_ne hne]
    exact h.cells f hf
  · intro d hd
    rw [List.map_cons, List.mem_cons, not_or] at hd
    rw [Function.update_of_ne hd.1]
    exact h.idle_cells d hd.2

end Chains

end Proxy
end FlashReduce
