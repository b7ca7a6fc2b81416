import FlashReduce.Proxy.Invariant

/-!
# The shape of the queue and the places of the slots

Two properties of every reachable state of the proxy, in terms of the pointers in
memory.

* `proxy_queue_shape`: the ring, the chains behind its operations, the channel
  cells and the worker's current operation fit together.
* `proxy_slot_partition`: every slot of every pool block is in exactly one of four
  places, and `allocateArgs` always returns a slot that was free.
-/

namespace FlashReduce
namespace Proxy

open Library Library.Machine

variable {Chan : Type}

/-- `ring` are the operations in the ring, and `chain op` are the operations of the
chain that starts with the ring operation `op`. -/
structure QueueShape (s : System Chan) (ring : List Slot) (chain : Slot → List Slot) : Prop where
  ops_null : s.store.ops = none ↔ ring = []
  cycle : Segment s.store.next s.store.ops ring s.store.ops
  distinct : ring.Nodup
  chain_end : ∀ op ∈ ring, Segment s.store.nextPeer (some op) (chain op) none
  chain_distinct : ∀ op ∈ ring, (chain op).Nodup
  chain_cell : ∀ op ∈ ring, ∃ c, ∀ x ∈ chain op, s.store.proxyTail x = some c
  chains_disjoint : ∀ a ∈ ring, ∀ b ∈ ring, a ≠ b → ∀ x ∈ chain a, x ∉ chain b
  cells_distinct : ∀ a ∈ ring, ∀ b ∈ ring, a ≠ b → s.store.proxyTail a ≠ s.store.proxyTail b
  cell_last : ∀ op ∈ ring, ∀ c, s.store.proxyTail op = some c →
    s.store.cell c = (chain op).getLast?
  cell_null : ∀ c, s.store.cell c = none ↔ ∀ op ∈ ring, s.store.proxyTail op ≠ some c
  cursor_mem : ∀ op, s.worker.pc.op = some op → op ∈ ring
  cursor_null : ring = [] → s.worker.pc.op = none

/-- The operations of the entry with the given head. -/
def chainOf (ring : List (Entry Chan)) (op : Slot) : List Slot :=
  ((ring.find? fun e => e.head = op).map Entry.slots).getD []

theorem chainOf_head {ring : List (Entry Chan)} (hnodup : (heads ring).Nodup) {e : Entry Chan}
    (he : e ∈ ring) : chainOf ring e.head = e.slots := by
  have hfind : ring.find? (fun f => f.head = e.head) = some e := by
    obtain ⟨front, back, rfl⟩ := List.append_of_mem he
    rw [heads_append, heads_cons, List.nodup_append] at hnodup
    have hfront : ∀ f ∈ front, f.head ≠ e.head := fun f hf =>
      hnodup.2.2 f.head (List.mem_map_of_mem hf) e.head List.mem_cons_self
    rw [List.find?_append, List.find?_eq_none.mpr (by simpa using hfront)]
    simp
  simp [chainOf, hfind]

theorem Entry.slots_getLast? (e : Entry Chan) : e.slots.getLast? = some e.last := by
  simp [Entry.slots, Entry.last, List.getLast?_cons]

/-- A channel determines its entry. -/
theorem Chains.eq_of_chan {nextPeer : Slot → Option Slot} {proxyTail : Slot → Option Chan}
    {cell : Chan → Option Slot} {ring : List (Entry Chan)}
    (h : Chains nextPeer proxyTail cell ring) {e f : Entry Chan} (he : e ∈ ring) (hf : f ∈ ring)
    (hchan : e.chan = f.chan) : e = f :=
  List.inj_on_of_nodup_map h.chans he hf hchan

theorem Inv.queueShape {s : System Chan} {ring : List (Entry Chan)} {free : List Slot}
    (hinv : Inv ⟨s, ring, free⟩) : QueueShape s (heads ring) (chainOf ring) := by
  have h := hinv.represents
  have hqueued : (queued ring).Nodup := (List.nodup_append.mp h.nodup).2.1
  have hheads : (heads ring).Nodup := (heads_sublist_queued ring).nodup hqueued
  have hentry : ∀ op ∈ heads ring, ∃ e ∈ ring, e.head = op ∧ chainOf ring op = e.slots := by
    intro op hop
    obtain ⟨e, he, rfl⟩ := List.mem_map.mp hop
    exact ⟨e, he, rfl, chainOf_head hheads he⟩
  refine ⟨?_, ?_, hheads, ?_, ?_, ?_, ?_, ?_, ?_, ?_, hinv.cursor, ?_⟩
  · rw [h.ops, List.head?_eq_none_iff]
  · rw [h.ops]
    exact h.links
  · intro op hop
    obtain ⟨e, he, rfl, hchain⟩ := hentry op hop
    rw [hchain]
    exact h.chains.chains e he
  · intro op hop
    obtain ⟨e, he, rfl, hchain⟩ := hentry op hop
    rw [hchain]
    exact (List.nodup_flatMap.mp hqueued).1 e he
  · intro op hop
    obtain ⟨e, he, rfl, hchain⟩ := hentry op hop
    rw [hchain]
    exact ⟨e.chan, h.chains.tails e he⟩
  · intro a ha b hb hne x hxa hxb
    obtain ⟨e, he, rfl, hchain⟩ := hentry a ha
    obtain ⟨f, hf, rfl, hchain'⟩ := hentry b hb
    rw [hchain] at hxa
    rw [hchain'] at hxb
    have hchan := (h.chains.tails e he x hxa).symm.trans (h.chains.tails f hf x hxb)
    exact hne (congrArg Entry.head (h.chains.eq_of_chan he hf (Option.some.inj hchan)))
  · intro a ha b hb hne hsame
    obtain ⟨e, he, rfl, -⟩ := hentry a ha
    obtain ⟨f, hf, rfl, -⟩ := hentry b hb
    rw [h.chains.tails e he _ e.head_mem_slots, h.chains.tails f hf _ f.head_mem_slots] at hsame
    exact hne (congrArg Entry.head (h.chains.eq_of_chan he hf (Option.some.inj hsame)))
  · intro op hop c hc
    obtain ⟨e, he, rfl, hchain⟩ := hentry op hop
    rw [h.chains.tails e he _ e.head_mem_slots] at hc
    rw [hchain, e.slots_getLast?, ← Option.some.inj hc]
    exact h.chains.cells e he
  · intro c
    constructor
    · intro hnull op hop hc
      obtain ⟨e, he, rfl, -⟩ := hentry op hop
      rw [h.chains.tails e he _ e.head_mem_slots] at hc
      rw [← Option.some.inj hc, h.chains.cells e he] at hnull
      cases hnull
    · intro hout
      refine h.chains.idle_cells c (fun hmem => ?_)
      obtain ⟨e, he, rfl⟩ := List.mem_map.mp hmem
      exact hout e.head (List.mem_map_of_mem he) (h.chains.tails e he _ e.head_mem_slots)
  · intro hempty
    cases hop : s.worker.pc.op with
    | none => rfl
    | some op =>
        have hmem := hinv.cursor op hop
        rw [hempty] at hmem
        cases hmem

/-! ### Places -/

/-- `free`, `ring` and `behind` are the slots of the free list, of the ring and of
the chains behind it.  Together with the slots in the hands of the callers they
are all slots of all pool blocks, each of them once. -/
structure SlotPartition (s : System Chan) (free ring behind : List Slot) : Prop where
  free_list : Segment s.store.next s.store.pool free none
  cycle : Segment s.store.next s.store.ops ring s.store.ops
  ops_null : s.store.ops = none ↔ ring = []
  mem_behind : ∀ x, x ∈ behind ↔ ∃ op ∈ ring, ∃ chain,
    Segment s.store.nextPeer (s.store.nextPeer op) chain none ∧ x ∈ chain
  once : (free ++ ((s.returning ++ s.held) ++ (ring ++ behind))).Nodup
  all : ∀ x, x ∈ free ++ ((s.returning ++ s.held) ++ (ring ++ behind)) ↔
    x.block ∈ s.store.pools
  blocks : s.store.pools.Nodup

/-- What `allocateArgs` returns is neither in the hands of a caller nor queued nor
the worker's current operation. -/
structure AllocatesFree (s : System Chan) (ring behind : List Slot) : Prop where
  succeeds : ∃ elem store, s.store.allocateArgs = some (elem, store)
  not_used : ∀ elem store, s.store.allocateArgs = some (elem, store) →
    elem ∉ s.returning ∧ elem ∉ s.held ∧ elem ∉ ring ∧ elem ∉ behind ∧
      s.worker.pc.op ≠ some elem

/-- The queued operations are those of the ring and those behind it. -/
theorem queued_perm (ring : List (Entry Chan)) :
    (queued ring).Perm (heads ring ++ ring.flatMap Entry.peers) := by
  induction ring with
  | nil => exact .refl _
  | cons e ring ih =>
      have htail : (e.peers ++ queued ring).Perm
          (heads ring ++ (e.peers ++ ring.flatMap Entry.peers)) :=
        (ih.append_left e.peers).trans (List.perm_append_comm_assoc ..)
      simpa [queued, heads, Entry.slots] using htail.cons e.head

theorem Inv.slotPartition {s : System Chan} {ring : List (Entry Chan)} {free : List Slot}
    (hinv : Inv ⟨s, ring, free⟩) :
    SlotPartition s free (heads ring) (ring.flatMap Entry.peers) := by
  have h := hinv.represents
  have hperm : (free ++ ((s.returning ++ s.held) ++ (heads ring ++ ring.flatMap Entry.peers))).Perm
      (Config.slots ⟨s, ring, free⟩) := by
    refine List.Perm.append_left free ?_
    rw [List.append_assoc]
    exact ((queued_perm ring).symm.append_left s.held).append_left s.returning
  refine ⟨h.pool, ?_, ?_, ?_, hperm.nodup_iff.mpr hinv.slots_nodup, ?_, hinv.blocks_nodup⟩
  · rw [h.ops]
    exact h.links
  · rw [h.ops, List.head?_eq_none_iff]
  · intro x
    constructor
    · intro hx
      obtain ⟨e, he, hx⟩ := List.mem_flatMap.mp hx
      exact ⟨e.head, List.mem_map_of_mem he, e.peers, (h.chains.chains e he).2, hx⟩
    · rintro ⟨op, hop, chain, hchain, hx⟩
      obtain ⟨e, he, rfl⟩ := List.mem_map.mp hop
      rw [hchain.unique (h.chains.chains e he).2] at hx
      exact List.mem_flatMap.mpr ⟨e, he, hx⟩
  · intro x
    rw [hperm.mem_iff]
    exact hinv.mem_slots x

variable [DecidableEq Chan]

theorem Inv.allocatesFree {s : System Chan} {ring : List (Entry Chan)} {free : List Slot}
    (hinv : Inv ⟨s, ring, free⟩) :
    AllocatesFree s (heads ring) (ring.flatMap Entry.peers) := by
  obtain ⟨elem, store, free', hresult, hmove⟩ := hinv.allocateArgs_move
  refine ⟨⟨elem, store, hresult⟩, fun elem' store' hresult' => ?_⟩
  cases hresult.symm.trans hresult'
  -- after the call the slot is inside `allocateArgs`, and so it is nowhere else
  have hinv' := hinv.move hmove
  obtain ⟨hheld, -, hqueued⟩ := hinv'.returning_apart List.mem_cons_self
  have hreturning : elem ∉ s.returning := by
    have hrest := (List.nodup_append.mp hinv'.slots_nodup).2.1
    exact (List.nodup_cons.mp (List.nodup_append.mp hrest).1).1
  rw [(queued_perm ring).mem_iff, List.mem_append, not_or] at hqueued
  exact ⟨hreturning, hheld, hqueued.1, hqueued.2, fun hop => hqueued.1 (hinv.cursor elem hop)⟩

/-- **The shape of the queue**, in every reachable state. -/
theorem proxy_queue_shape {s : System Chan} (hreach : (machine Chan).Reachable anyMove s) :
    ∃ ring chain, QueueShape s ring chain := by
  obtain ⟨ring, free, hinv⟩ := reachable_inv hreach
  exact ⟨heads ring, chainOf ring, hinv.queueShape⟩

/-- The actions of the examples: two operations are appended to one channel, the
worker runs the first one, which finishes, and removes it. -/
def twoOperations : List (Action Bool) :=
  [.allocateArgs, .allocateArgsReturn ⟨0, 0⟩, .fill ⟨0, 0⟩ .proxyOpReady true,
    .allocateArgs, .allocateArgsReturn ⟨0, 1⟩, .fill ⟨0, 1⟩ .proxyOpReady true,
    .proxyArgsAppend ⟨0, 0⟩, .proxyArgsAppend ⟨0, 1⟩, .worker, .worker, .worker,
    .progressReturn .proxyOpNone false, .worker]

/-- After the removal the second operation is alone in the ring. -/
theorem proxy_queue_shape_promoted :
    ∃ s : System Bool, s.store.ops = some ⟨0, 1⟩ ∧ ∃ ring chain, QueueShape s ring chain := by
  have hrun := Machine.run_of_exec (machine Bool) anyMove (.initial Bool) twoOperations rfl rfl
  exact ⟨_, rfl, proxy_queue_shape hrun.reachable⟩

/-- **Slot ownership is a partition**, in every reachable state. -/
theorem proxy_slot_partition {s : System Chan}
    (hreach : (machine Chan).Reachable anyMove s) :
    ∃ free ring behind, SlotPartition s free ring behind ∧ AllocatesFree s ring behind := by
  obtain ⟨ring, free, hinv⟩ := reachable_inv hreach
  exact ⟨free, _, _, hinv.slotPartition, hinv.allocatesFree⟩

/-- After the removal the first operation heads the free list. -/
theorem proxy_slot_partition_freed :
    ∃ s : System Bool, s.store.pool = some ⟨0, 0⟩ ∧
      ∃ free ring behind, SlotPartition s free ring behind ∧ AllocatesFree s ring behind := by
  have hrun := Machine.run_of_exec (machine Bool) anyMove (.initial Bool) twoOperations rfl rfl
  exact ⟨_, rfl, proxy_slot_partition hrun.reachable⟩

end Proxy
end FlashReduce
