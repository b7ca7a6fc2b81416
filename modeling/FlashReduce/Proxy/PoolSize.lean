import FlashReduce.Proxy.Lifecycle
import FlashReduce.Proxy.Ownership

/-!
# How many pool blocks are allocated

`allocateArgs` allocates a block of 32 slots when the free list is empty, and blocks are
freed only by `ProxyDestroy`.  `length_of_all` counts the slots of the blocks, and
`proxy_pool_size` bounds the blocks by the slots that are in use at the same time: nothing
is lost on the way back to the free list.
-/

namespace FlashReduce
namespace Proxy

open Library Library.Machine

variable {Chan : Type}

/-- A list of the slots of all blocks, each of them once. -/
theorem length_of_all {slots : List Slot} {blocks : List Nat} (hslots : slots.Nodup)
    (hblocks : blocks.Nodup) (hall : ∀ x, x ∈ slots ↔ x.block ∈ blocks) :
    slots.length = blocks.length * proxyArgsAllocateSize := by
  have hnodup : (blocks.flatMap blockSlots).Nodup := by
    refine List.nodup_flatMap.mpr ⟨fun b _ => nodup_blockSlots b, hblocks.imp fun hne => ?_⟩
    intro x hx hx'
    exact hne ((mem_blockSlots.mp hx).symm.trans (mem_blockSlots.mp hx'))
  have hperm : slots.Perm (blocks.flatMap blockSlots) := by
    refine (List.perm_ext_iff_of_nodup hslots hnodup).mpr fun x => ?_
    rw [hall, List.mem_flatMap]
    constructor
    · intro hx
      exact ⟨x.block, hx, mem_blockSlots.mpr rfl⟩
    · rintro ⟨b, hb, hx⟩
      rw [mem_blockSlots.mp hx]
      exact hb
  rw [hperm.length_eq, List.length_flatMap]
  simp [blockSlots]

/-- The number of slots that are in the hands of the callers or queued. -/
def InUse (s : System Chan) (n : Nat) : Prop :=
  ∃ free ring behind, SlotPartition s free ring behind ∧
    n = s.returning.length + s.held.length + ring.length + behind.length

theorem SlotPartition.length {s : System Chan} {free ring behind : List Slot}
    (h : SlotPartition s free ring behind) :
    free.length + (s.returning.length + s.held.length + ring.length + behind.length) =
      s.store.pools.length * proxyArgsAllocateSize := by
  rw [← length_of_all h.once h.blocks h.all]
  simp only [List.length_append]
  omega

/-- Without blocks no slot is in use. -/
theorem InUse.eq_zero {s : System Chan} {n : Nat} (h : InUse s n) (hpools : s.store.pools = []) :
    n = 0 := by
  obtain ⟨free, ring, behind, hpartition, rfl⟩ := h
  have hlength := hpartition.length
  rw [hpools] at hlength
  simp only [List.length_nil, Nat.zero_mul] at hlength
  omega

/-- The action calls `allocateArgs`. -/
def Action.isAllocateArgs : Action Chan → Bool
  | .allocateArgs => true
  | _ => false

variable [DecidableEq Chan]

/-- `allocateArgs` is called only while fewer than `n` slots are in use. -/
def AtMost (n : Nat) (s : System Chan) (action : Action Chan) : Prop :=
  action = .allocateArgs → ∀ m, InUse s m → m < n

/-- The blocks are no more than `n` slots need. -/
def Fits (n : Nat) (s : System Chan) : Prop :=
  s.store.pools.length * proxyArgsAllocateSize < n + proxyArgsAllocateSize

/-- Slots are allocated only while there is no block. -/
def FirstBlock (s : System Chan) (action : Action Chan) : Prop :=
  action.isAllocateArgs = true → s.store.pools = []

instance (s : System Chan) (action : Action Chan) : Decidable (FirstBlock s action) :=
  inferInstanceAs (Decidable (action.isAllocateArgs = true → s.store.pools = []))

end Proxy
end FlashReduce
