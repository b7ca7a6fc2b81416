import FlashReduce.Proxy.Chains
import Mathlib.Data.List.FinRange

/-!
# What the memory of the proxy represents

`Represents st ring free` relates the memory to the entries of the queue, in the
order in which the ring is walked from `handler->ops` on, and to the slots of the
free list.

`Represents.append`, `Represents.advance_keep` and `Represents.advance_remove` say
what `ProxyArgsAppend` and the locked section of `persistentThread` do to the
entries; later modules use only these and never look at a write.
-/

namespace FlashReduce
namespace Proxy

open Library

variable {Chan : Type} [DecidableEq Chan]

/-- The memory holds the entries of the queue and the free slots. -/
structure Represents (st : Store Chan) (ring : List (Entry Chan)) (free : List Slot) : Prop where
  links : Ring st.next (heads ring)
  chains : Chains st.nextPeer st.proxyTail st.cell ring
  ops : st.ops = (heads ring).head?
  pool : Segment st.next st.pool free none
  nodup : (free ++ queued ring).Nodup
  finished : ∀ s ∈ free, st.state s = .proxyOpNone

omit [DecidableEq Chan] in
theorem Represents.initial : Represents (.initial : Store Chan) [] [] where
  links := rfl
  chains := ⟨nofun, nofun, nofun, fun _ _ => rfl, List.nodup_nil⟩
  ops := rfl
  pool := rfl
  nodup := List.nodup_nil
  finished := nofun

/-! ### Memory that writes leave alone -/

section Writes

/-- The fields that no write changes. -/
def Store.rest (st : Store Chan) :=
  (st.state, st.idle, st.proxyTail, st.stop, st.abortFlag, st.pools, st.nextBlock)

variable (st : Store Chan) (ws : List (Write Chan))

theorem writes_rest : (st.writes ws).rest = st.rest := by
  induction ws generalizing st with
  | nil => rfl
  | cons w ws ih =>
      rw [Store.writes_cons, ih]
      cases w <;> rfl

@[simp] theorem writes_state : (st.writes ws).state = st.state :=
  congrArg (fun r => r.1) (writes_rest st ws)

@[simp] theorem writes_proxyTail : (st.writes ws).proxyTail = st.proxyTail :=
  congrArg (fun r => r.2.2.1) (writes_rest st ws)

@[simp] theorem writes_stop : (st.writes ws).stop = st.stop :=
  congrArg (fun r => r.2.2.2.1) (writes_rest st ws)

@[simp] theorem writes_abortFlag : (st.writes ws).abortFlag = st.abortFlag :=
  congrArg (fun r => r.2.2.2.2.1) (writes_rest st ws)

@[simp] theorem writes_pools : (st.writes ws).pools = st.pools :=
  congrArg (fun r => r.2.2.2.2.2.1) (writes_rest st ws)

@[simp] theorem writes_nextBlock : (st.writes ws).nextBlock = st.nextBlock :=
  congrArg (fun r => r.2.2.2.2.2.2) (writes_rest st ws)

end Writes

/-! ### Appending -/

variable {st : Store Chan} {ring front back : List (Entry Chan)} {free : List Slot}
  {e : Entry Chan} {s op : Slot} {c : Chan}

/-- The entries after an operation was appended: behind the other operations of
its channel, or as a new channel after the first one. -/
def enqueue (c : Chan) (s : Slot) (ring : List (Entry Chan)) : List (Entry Chan) :=
  if c ∈ ring.map Entry.chan then ring.map fun e => if e.chan = c then e.push s else e
  else
    match ring with
    | [] => [⟨c, s, []⟩]
    | e :: rest => e :: ⟨c, s, []⟩ :: rest

theorem enqueue_of_mem (hc : c ∈ ring.map Entry.chan) :
    enqueue c s ring = ring.map fun e => if e.chan = c then e.push s else e := by
  unfold enqueue
  rw [if_pos hc]

theorem enqueue_cons (hc : c ∉ (e :: ring).map Entry.chan) :
    enqueue c s (e :: ring) = e :: ⟨c, s, []⟩ :: ring := by
  unfold enqueue
  rw [if_neg hc]

theorem enqueue_split (hchans : ((front ++ e :: back).map Entry.chan).Nodup) :
    enqueue e.chan s (front ++ e :: back) = front ++ e.push s :: back := by
  have hkeep (l : List (Entry Chan)) (hl : e.chan ∉ l.map Entry.chan) :
      (l.map fun f => if f.chan = e.chan then f.push s else f) = l := by
    conv_rhs => rw [← List.map_id l]
    refine List.map_congr_left (fun f hf => if_neg (fun heq => hl ?_))
    exact heq ▸ List.mem_map_of_mem hf
  rw [List.map_append, List.map_cons, List.nodup_append, List.nodup_cons] at hchans
  obtain ⟨-, ⟨hback, -⟩, hfront⟩ := hchans
  have hfront' : e.chan ∉ front.map Entry.chan :=
    fun hmem => hfront e.chan hmem e.chan (by simp) rfl
  rw [enqueue_of_mem (by simp), List.map_append, List.map_cons, hkeep front hfront',
    hkeep back hback, if_pos rfl]

/-- Up to the order of the ring, appending changes the entry of the channel or
adds one. -/
theorem enqueue_perm (hchans : (ring.map Entry.chan).Nodup) (c : Chan) (s : Slot) :
    (∃ e rest, e.chan = c ∧ ring.Perm (e :: rest) ∧
        (enqueue c s ring).Perm (e.push s :: rest)) ∨
      c ∉ ring.map Entry.chan ∧ (enqueue c s ring).Perm (⟨c, s, []⟩ :: ring) := by
  by_cases hc : c ∈ ring.map Entry.chan
  · obtain ⟨e, he, rfl⟩ := List.mem_map.mp hc
    obtain ⟨front, back, rfl⟩ := List.append_of_mem he
    rw [enqueue_split hchans]
    exact .inl ⟨e, front ++ back, rfl, List.perm_middle, List.perm_middle⟩
  · refine .inr ⟨hc, ?_⟩
    cases ring with
    | nil => exact .refl _
    | cons e rest =>
        rw [enqueue_cons hc]
        exact List.Perm.swap ..

theorem queued_enqueue (hchans : (ring.map Entry.chan).Nodup) :
    (queued (enqueue c s ring)).Perm (s :: queued ring) := by
  rcases enqueue_perm hchans c s with ⟨e, rest, -, hring, hnew⟩ | ⟨-, hnew⟩
  · have hbefore : (queued ring).Perm (e.slots ++ queued rest) := hring.flatMap_right _
    calc queued (enqueue c s ring)
      _ |>.Perm (e.slots ++ [s] ++ queued rest) := hnew.flatMap_right _
      _ = e.slots ++ s :: queued rest := by simp
      _ |>.Perm (s :: (e.slots ++ queued rest)) := List.perm_middle
      _ |>.Perm (s :: queued ring) := hbefore.symm.cons s
  · exact hnew.flatMap_right _

theorem heads_enqueue_of_mem (hc : c ∈ ring.map Entry.chan) :
    heads (enqueue c s ring) = heads ring := by
  rw [enqueue_of_mem hc, heads, List.map_map]
  refine List.map_congr_left (fun e _ => ?_)
  by_cases he : e.chan = c <;> simp [he]

omit [DecidableEq Chan] in
/-- An operation that is nowhere stays apart from the others when it is queued. -/
theorem nodup_append_queued {ring' : List (Entry Chan)} (hs : s ∉ free ++ queued ring)
    (hnodup : (free ++ queued ring).Nodup) (hperm : (queued ring').Perm (s :: queued ring)) :
    (free ++ queued ring').Nodup := by
  have hall : (free ++ queued ring').Perm (s :: (free ++ queued ring)) :=
    (hperm.append_left free).trans List.perm_middle
  exact hall.nodup_iff.mpr (List.nodup_cons.mpr ⟨hs, hnodup⟩)

/-- On a busy channel the operation goes behind the last one. -/
theorem Represents.append_behind (h : Represents st ring free) (hs : s ∉ free ++ queued ring)
    (hpeer : st.nextPeer s = none) (he : e ∈ ring) (htail : st.proxyTail s = some e.chan) :
    ∃ ws, st.appendWrites s = some ws ∧
      Represents (st.writes ws) (enqueue e.chan s ring) free ∧
      ∀ x, x ∉ queued ring → (st.writes ws).nextPeer x = st.nextPeer x := by
  have hqueued : s ∉ queued ring := fun hmem => hs (List.mem_append_right free hmem)
  have hdistinct : (queued ring).Nodup := (List.nodup_append.mp h.nodup).2.1
  have hcell := h.chains.cells e he
  have hheads := heads_enqueue_of_mem (s := s) (List.mem_map_of_mem he : e.chan ∈ _)
  refine ⟨[.nextPeer e.last (some s), .cell e.chan (some s)], ?_, ?_, ?_⟩
  · simp [Store.appendWrites, htail, hcell]
  · have hchains : Chains (Function.update st.nextPeer e.last (some s)) st.proxyTail
        (Function.update st.cell e.chan (some s)) (enqueue e.chan s ring) := by
      -- the order of the entries does not matter for the chains
      obtain ⟨front, back, rfl⟩ := List.append_of_mem he
      have hmiddle : (front ++ e :: back).Perm (e :: (front ++ back)) := List.perm_middle
      have hqueue : (queued (front ++ e :: back)).Perm (queued (e :: (front ++ back))) :=
        hmiddle.flatMap_right _
      rw [enqueue_split h.chains.chans]
      refine Chains.perm (Chains.push (h.chains.perm hmiddle) (hqueue.nodup_iff.mp hdistinct)
        (fun hmem => hqueued (hqueue.mem_iff.mpr hmem)) hpeer htail) List.perm_middle.symm
    have hlinks : Ring st.next (heads (enqueue e.chan s ring)) := by
      rw [hheads]
      exact h.links
    have hops : st.ops = (heads (enqueue e.chan s ring)).head? := by
      rw [hheads]
      exact h.ops
    exact ⟨hlinks, hchains, hops, h.pool,
      nodup_append_queued hs h.nodup (queued_enqueue h.chains.chans), h.finished⟩
  · intro x hx
    have hlast : e.last ∈ queued ring := mem_queued.mpr ⟨e, he, e.last_mem_slots⟩
    have hne : x ≠ e.last := fun heq => hx (heq ▸ hlast)
    exact Function.update_of_ne hne _ _

/-- Into the empty queue the operation goes as a ring of one. -/
theorem Represents.append_first (h : Represents st [] free) (hs : s ∉ free)
    (hpeer : st.nextPeer s = none) (htail : st.proxyTail s = some c) :
    ∃ ws, st.appendWrites s = some ws ∧ Represents (st.writes ws) [⟨c, s, []⟩] free ∧
      (st.writes ws).nextPeer = st.nextPeer := by
  have hidle : c ∉ ([] : List (Entry Chan)).map Entry.chan := List.not_mem_nil
  have hcell := h.chains.idle_cells c hidle
  have hops : st.ops = none := h.ops
  have hnodup : (free ++ queued [(⟨c, s, []⟩ : Entry Chan)]).Nodup :=
    nodup_append_queued (by simpa using hs) h.nodup (.refl _)
  refine ⟨[.next s (some s), .ops (some s), .cell c (some s)], ?_, ?_, rfl⟩
  · simp [Store.appendWrites, htail, hcell, hops]
  · exact ⟨ring_singleton st.next s, h.chains.add hidle hpeer htail, rfl, h.pool.frame hs _,
      hnodup, h.finished⟩

/-- On an idle channel the operation goes after the first one of the ring. -/
theorem Represents.append_after (h : Represents st (e :: ring) free)
    (hs : s ∉ free ++ queued (e :: ring)) (hc : c ∉ (e :: ring).map Entry.chan)
    (hpeer : st.nextPeer s = none) (htail : st.proxyTail s = some c) :
    ∃ ws, st.appendWrites s = some ws ∧
      Represents (st.writes ws) (e :: ⟨c, s, []⟩ :: ring) free ∧
      (st.writes ws).nextPeer = st.nextPeer := by
  obtain ⟨-, hdistinct, hapart⟩ := List.nodup_append.mp h.nodup
  have hfree : s ∉ free := fun hmem => hs (List.mem_append_left _ hmem)
  have hhead : e.head ∉ free := by
    intro hmem
    exact hapart e.head hmem e.head (by simp [e.head_mem_slots]) rfl
  have hheads : s ∉ heads (e :: ring) := fun hmem =>
    hs (List.mem_append_right _ ((heads_sublist_queued _).subset hmem))
  have hcell := h.chains.idle_cells c hc
  have hops : st.ops = some e.head := h.ops
  refine ⟨[.next s (st.next e.head), .next e.head (some s), .cell c (some s)], ?_, ?_, rfl⟩
  · simp [Store.appendWrites, htail, hcell, hops]
  · have hlinks := h.links.insert ((heads_sublist_queued _).nodup hdistinct) hheads
    have hchains := (h.chains.add hc hpeer htail).perm (List.Perm.swap e ⟨c, s, []⟩ ring)
    have hperm : (queued (e :: ⟨c, s, []⟩ :: ring)).Perm (s :: queued (e :: ring)) :=
      List.perm_middle
    exact ⟨hlinks, hchains, hops, (h.pool.frame hfree _).frame hhead _,
      nodup_append_queued hs h.nodup hperm, h.finished⟩

/-- **Appending.**  An operation that is nowhere in the queue or on the free list
is appended to the entries, and the chain pointers of other operations stay. -/
theorem Represents.append (h : Represents st ring free) (hs : s ∉ free ++ queued ring)
    (hpeer : st.nextPeer s = none) (htail : st.proxyTail s = some c) :
    ∃ ws, st.appendWrites s = some ws ∧ Represents (st.writes ws) (enqueue c s ring) free ∧
      ∀ x, x ∉ queued ring → (st.writes ws).nextPeer x = st.nextPeer x := by
  by_cases hc : c ∈ ring.map Entry.chan
  · obtain ⟨e, he, rfl⟩ := List.mem_map.mp hc
    exact h.append_behind hs hpeer he htail
  · cases ring with
    | nil =>
        obtain ⟨ws, hws, hrepresents, hsame⟩ := h.append_first (by simpa using hs) hpeer htail
        exact ⟨ws, hws, hrepresents, fun x _ => congrFun hsame x⟩
    | cons e rest =>
        obtain ⟨ws, hws, hrepresents, hsame⟩ := h.append_after hs hc hpeer htail
        rw [enqueue_cons hc]
        exact ⟨ws, hws, hrepresents, fun x _ => congrFun hsame x⟩

/-! ### Allocating -/

/-- The slots of a pool block, in order. -/
def blockSlots (block : Nat) : List Slot := List.ofFn fun i => ⟨block, i⟩

theorem mem_blockSlots {block : Nat} {x : Slot} : x ∈ blockSlots block ↔ x.block = block := by
  rw [blockSlots, List.mem_ofFn]
  constructor
  · rintro ⟨i, rfl⟩
    rfl
  · rintro rfl
    exact ⟨x.elem, rfl⟩

theorem nodup_blockSlots (block : Nat) : (blockSlots block).Nodup :=
  List.nodup_ofFn.mpr fun _ _ h => congrArg Slot.elem h

/-- The links of a new block visit its slots in order. -/
theorem segment_blockSlots {next : Slot → Option Slot} {block : Nat}
    (hnext : ∀ i, next ⟨block, i⟩ = elemNext block i) :
    Segment next (some ⟨block, 0⟩) (blockSlots block) none := by
  have hlinks : ∀ i x, (blockSlots block)[i]? = some x → next x = (blockSlots block)[i + 1]? := by
    intro i x hx
    rw [blockSlots, List.getElem?_ofFn] at hx
    split at hx
    · next hi =>
      cases hx
      rw [hnext, blockSlots, List.getElem?_ofFn]
      rfl
    · cases hx
  exact segment_of_links hlinks

omit [DecidableEq Chan] in
/-- A new block when the free list is empty. -/
theorem Represents.addPool (h : Represents st ring [])
    (hfresh : ∀ x ∈ queued ring, x.block ≠ st.nextBlock) :
    Represents st.addPool ring (blockSlots st.nextBlock) := by
  have hheads : ∀ x ∈ heads ring, x.block ≠ st.nextBlock :=
    fun x hx => hfresh x ((heads_sublist_queued ring).subset hx)
  refine ⟨?_, ⟨?_, ?_, h.chains.cells, h.chains.idle_cells, h.chains.chans⟩, h.ops, ?_, ?_, ?_⟩
  · exact h.links.congr (fun x hx => if_neg (hheads x hx))
  · intro e he
    refine (h.chains.chains e he).congr (fun x hx => if_neg ?_)
    exact hfresh x (mem_queued.mpr ⟨e, he, hx⟩)
  · intro e he x hx
    have hold := hfresh x (mem_queued.mpr ⟨e, he, hx⟩)
    rw [← h.chains.tails e he x hx]
    exact if_neg hold
  · exact segment_blockSlots (fun i => if_pos rfl)
  · refine List.nodup_append.mpr ⟨nodup_blockSlots _, (List.nodup_append.mp h.nodup).2.1, ?_⟩
    rintro x hx y hy rfl
    exact hfresh x hy (mem_blockSlots.mp hx)
  · intro x hx
    exact if_pos (mem_blockSlots.mp hx)

omit [DecidableEq Chan] in
/-- Taking the first slot of the free list. -/
theorem Represents.take (h : Represents st ring (s :: free)) :
    Represents { st with pool := st.next s } ring free :=
  ⟨h.links, h.chains, h.ops, h.pool.2, (List.nodup_cons.mp h.nodup).2,
    fun x hx => h.finished x (List.mem_cons_of_mem s hx)⟩

/-! ### Removing -/

/-- On the way round the ring, `e` comes right after the operation `op`, and
`rest` are the other entries from there on. -/
def Follows (op : Slot) (e : Entry Chan) (rest : List (Entry Chan)) : Prop :=
  (heads (e :: rest)).getLast? = some op

variable {rest : List (Entry Chan)}

omit [DecidableEq Chan] in
theorem exists_follows (hop : op ∈ heads ring) :
    ∃ front e back, ring = front ++ e :: back ∧ Follows op e (back ++ front) := by
  obtain ⟨o, ho, rfl⟩ := List.mem_map.mp hop
  obtain ⟨front, back, rfl⟩ := List.append_of_mem ho
  cases back with
  | cons e back =>
      exact ⟨front ++ [o], e, back, by simp, by simp [Follows, heads, List.getLast?_cons]⟩
  | nil =>
      -- the operation is the last one, so the first one follows it
      cases front with
      | nil => exact ⟨[], o, [], rfl, by simp [Follows, heads]⟩
      | cons e front =>
          exact ⟨[], e, front ++ [o], by simp, by simp [Follows, heads, List.getLast?_cons]⟩

omit [DecidableEq Chan] in
theorem Follows.cases (h : Follows op e rest) :
    rest = [] ∧ op = e.head ∨ ∃ init o, rest = init ++ [o] ∧ op = o.head := by
  rcases List.eq_nil_or_concat rest with rfl | ⟨init, o, rfl⟩
  · refine .inl ⟨rfl, ?_⟩
    simpa [Follows, heads] using h.symm
  · refine .inr ⟨init, o, List.concat_eq_append, ?_⟩
    simpa [Follows, heads, List.concat_eq_append, List.getLast?_cons] using h.symm

omit [DecidableEq Chan] in
/-- The successor pointer of an operation leads to the entry that follows it. -/
theorem Follows.next_eq {next : Slot → Option Slot} (h : Follows op e rest)
    (hlinks : Ring next (heads (e :: rest))) : next op = some e.head := by
  rcases h.cases with ⟨rfl, rfl⟩ | ⟨init, o, rfl, rfl⟩
  · exact ring_cons.mp hlinks
  · have hrotated : Ring next (heads (o :: (e :: init))) := by
      have hsplit : heads (e :: (init ++ [o])) = heads (e :: init) ++ heads [o] := by
        simp [heads]
      rw [hsplit] at hlinks
      exact hlinks.rotate
    exact (ring_cons.mp hrotated).1

/-- The memory after the first operation of the entry `e` was taken out of the
queue: the way round the ring goes on with the entry's next operation, if it has
one, and the rest. -/
structure Unlinked (st st' : Store Chan) (e : Entry Chan) (rest : List (Entry Chan)) : Prop where
  links : Ring st'.next (heads (e.pop.toList ++ rest))
  chains : Chains st'.nextPeer st'.proxyTail st'.cell (e.pop.toList ++ rest)
  nextPeer : st'.nextPeer = st.nextPeer
  ops : st'.ops = st.ops
  pool : st'.pool = st.pool
  outside : ∀ x, x ∉ queued (e :: rest) → st'.next x = st.next x

omit [DecidableEq Chan] in
theorem heads_cons_snoc (e o : Entry Chan) (init : List (Entry Chan)) :
    heads (e :: (init ++ [o])) = e.head :: (heads init ++ [o.head]) := by
  simp [heads]

omit [DecidableEq Chan] in
theorem last_head_ne {o : Entry Chan} {init : List (Entry Chan)}
    (hdistinct : (heads (e :: (init ++ [o]))).Nodup) : o.head ≠ e.head := by
  rintro heq
  rw [heads_cons, List.nodup_cons, ← heq] at hdistinct
  exact hdistinct.1 (by simp [heads])

/-- The next operation of the channel is promoted: it takes the place of the removed
one, alone in the ring or behind the current operation. -/
theorem unlinkWrites_promote {e' : Entry Chan} (hlinks : Ring st.next (heads (e :: rest)))
    (hchains : Chains st.nextPeer st.proxyTail st.cell (e :: rest))
    (hnodup : (queued (e :: rest)).Nodup) (hfollows : Follows op e rest)
    (hpop : e.pop = some e') :
    ∃ ws, st.unlinkWrites op e.head = some (ws, some e'.head) ∧
      Unlinked st (st.writes ws) e rest := by
  have hpeer := hchains.nextPeer_head
  have hdistinct : (heads (e :: rest)).Nodup := (heads_sublist_queued _).nodup hnodup
  have hqueued : queued (e :: rest) = e.head :: (e'.slots ++ queued rest) := by
    simp [(Entry.slots_of_pop_some hpop).2.1]
  have hnew : e'.head ∈ queued (e :: rest) := by
    simp [hqueued, e'.head_mem_slots]
  have hpromoted := hchains.pop hpop
  rw [hpop, Option.map_some] at hpeer
  rcases hfollows.cases with ⟨rfl, rfl⟩ | ⟨init, o, rfl, rfl⟩
  · refine ⟨[.next e'.head (some e'.head)], by simp [Store.unlinkWrites, hpeer], ?_⟩
    refine ⟨?_, by rw [hpop]; exact hpromoted, rfl, rfl, rfl, fun x hx => ?_⟩
    · rw [hpop]
      exact ring_singleton st.next e'.head
    · have hne : x ≠ e'.head := fun heq => hx (heq ▸ hnew)
      exact Function.update_of_ne hne _ _
  · have hne := last_head_ne hdistinct
    -- the promoted operation was only in the chain
    have hout : e'.head ∉ heads init ++ [o.head] := by
      intro hmem
      rw [hqueued, List.nodup_cons, List.nodup_append] at hnodup
      have hrest : e'.head ∈ queued (init ++ [o]) :=
        (heads_sublist_queued _).subset (by simpa [heads] using hmem)
      exact hnodup.2.2.2 e'.head e'.head_mem_slots e'.head hrest rfl
    rw [heads_cons_snoc] at hlinks hdistinct
    have hring := hlinks.replace (List.nodup_cons.mp hdistinct).2 hout
    refine ⟨[.next e'.head (st.next e.head), .next o.head (some e'.head)], ?_, ?_⟩
    · simp [Store.unlinkWrites, hpeer, hne]
    · refine ⟨?_, by rw [hpop]; exact hpromoted, rfl, rfl, rfl, fun x hx => ?_⟩
      · rw [hpop]
        simpa [heads, Store.write] using hring
      · have hold : o.head ∈ queued (e :: (init ++ [o])) := by simp [o.head_mem_slots]
        have hxo : x ≠ o.head := fun heq => hx (heq ▸ hold)
        have hxe : x ≠ e'.head := fun heq => hx (heq ▸ hnew)
        exact (Function.update_of_ne hxo _ _).trans (Function.update_of_ne hxe _ _)

/-- The last operation of its channel leaves the ring, and the channel cell becomes
`NULL`. -/
theorem unlinkWrites_drop (hlinks : Ring st.next (heads (e :: rest)))
    (hchains : Chains st.nextPeer st.proxyTail st.cell (e :: rest))
    (hnodup : (queued (e :: rest)).Nodup) (hfollows : Follows op e rest) (hpop : e.pop = none) :
    ∃ ws, st.unlinkWrites op e.head = some (ws, (heads rest).head?) ∧
      Unlinked st (st.writes ws) e rest := by
  have hpeer := hchains.nextPeer_head
  have htail := hchains.tails e List.mem_cons_self e.head e.head_mem_slots
  have hdistinct : (heads (e :: rest)).Nodup := (heads_sublist_queued _).nodup hnodup
  have hdropped := hchains.drop
  rw [hpop, Option.map_none] at hpeer
  rcases hfollows.cases with ⟨rfl, rfl⟩ | ⟨init, o, rfl, rfl⟩
  · refine ⟨[.cell e.chan none], by simp [Store.unlinkWrites, hpeer, htail, heads], ?_⟩
    refine ⟨?_, by rw [hpop]; exact hdropped, rfl, rfl, rfl, fun _ _ => rfl⟩
    rw [hpop]
    rfl
  · have hne := last_head_ne hdistinct
    rw [heads_cons_snoc] at hlinks hdistinct
    have hstart : st.next e.head = (heads (init ++ [o])).head? := by
      have hstart := (ring_cons.mp hlinks).start (by simp)
      simpa [heads] using hstart
    have hring := hlinks.unlink (List.nodup_cons.mp hdistinct).2
    refine ⟨[.cell e.chan none, .next o.head (st.next e.head)], ?_, ?_⟩
    · simp [Store.unlinkWrites, hpeer, htail, hne, hstart]
    · refine ⟨?_, by rw [hpop]; exact hdropped, rfl, rfl, rfl, fun x hx => ?_⟩
      · rw [hpop]
        simpa [heads, Store.write] using hring
      · have hold : o.head ∈ queued (e :: (init ++ [o])) := by simp [o.head_mem_slots]
        have hxo : x ≠ o.head := fun heq => hx (heq ▸ hold)
        exact Function.update_of_ne hxo _ _

/-- All four branches of the removal unlink the operation. -/
theorem unlinkWrites_spec (hlinks : Ring st.next (heads (e :: rest)))
    (hchains : Chains st.nextPeer st.proxyTail st.cell (e :: rest))
    (hnodup : (queued (e :: rest)).Nodup) (hfollows : Follows op e rest) :
    ∃ ws, st.unlinkWrites op e.head =
        some (ws, (heads (e.pop.toList ++ rest)).head?) ∧
      Unlinked st (st.writes ws) e rest := by
  cases hpop : e.pop with
  | some e' => exact unlinkWrites_promote hlinks hchains hnodup hfollows hpop
  | none => exact unlinkWrites_drop hlinks hchains hnodup hfollows hpop

omit [DecidableEq Chan] in
theorem queued_pop (e : Entry Chan) : e.slots = e.head :: queued e.pop.toList := by
  cases hpop : e.pop with
  | none => simpa using Entry.slots_of_pop_none hpop
  | some e' => simpa using (Entry.slots_of_pop_some hpop).2.1

omit [DecidableEq Chan] in
theorem perm_rotate (front back : List (Entry Chan)) (e : Entry Chan) :
    (front ++ e :: back).Perm (e :: (back ++ front)) := by
  rw [← List.cons_append]
  exact List.perm_append_comm

omit [DecidableEq Chan] in
/-- The freed operation goes from the queue to the free list. -/
theorem queued_freed (front back : List (Entry Chan)) (e : Entry Chan) (free : List Slot) :
    (e.head :: free ++ queued (front ++ e.pop.toList ++ back)).Perm
      (free ++ queued (front ++ e :: back)) := by
  simp only [queued_append, queued_cons, queued_pop e, List.cons_append, List.append_assoc]
  calc e.head :: (free ++ (queued front ++ (queued e.pop.toList ++ queued back)))
      = e.head :: ((free ++ queued front) ++ (queued e.pop.toList ++ queued back)) := by simp
    _ |>.Perm ((free ++ queued front) ++ e.head :: (queued e.pop.toList ++ queued back)) :=
        List.perm_middle.symm
    _ = free ++ (queued front ++ e.head :: (queued e.pop.toList ++ queued back)) := by simp

/-- The rest of the locked section: `handler->ops` moves on when it pointed to
the removed operation, and the operation goes to the free list. -/
theorem Represents.free_head {st' : Store Chan}
    (h : Represents st (front ++ e :: back) free) (hstate : st.state e.head = .proxyOpNone)
    (hunlinked : Unlinked st st' e (back ++ front)) (hsame : st'.state = st.state) :
    Represents
      (st'.writes (st.freeWrites e.head (heads (e.pop.toList ++ (back ++ front))).head?))
      (front ++ e.pop.toList ++ back) (e.head :: free) := by
  have hnodup := (queued_freed front back e free).nodup_iff.mpr h.nodup
  have hmember : e.head ∈ queued (front ++ e :: back) := by simp [e.head_mem_slots]
  have hfree : e.head ∉ free := fun hmem =>
    (List.nodup_append.mp h.nodup).2.2 e.head hmem e.head hmember rfl
  have hgone : e.head ∉ heads (front ++ e.pop.toList ++ back) := by
    rw [List.cons_append, List.nodup_cons] at hnodup
    exact fun hmem => hnodup.1
      (List.mem_append_right _ ((heads_sublist_queued _).subset hmem))
  have hrotate : (e.pop.toList ++ (back ++ front)).Perm (front ++ e.pop.toList ++ back) := by
    rw [← List.append_assoc]
    refine List.perm_append_comm.trans ?_
    rw [List.append_assoc]
  have hlinks : Ring (Function.update st'.next e.head st.pool)
      (heads (front ++ e.pop.toList ++ back)) := by
    refine Ring.frame hgone ?_ st.pool
    have hring := hunlinked.links
    rw [← List.append_assoc, heads_append] at hring
    simpa [heads] using hring.rotate
  have hpool : Segment (Function.update st'.next e.head st.pool) (some e.head)
      (e.head :: free) none := by
    refine ⟨rfl, ?_⟩
    rw [Function.update_self]
    refine Segment.frame hfree (h.pool.congr (fun x hx => hunlinked.outside x (fun hmem => ?_))) _
    have hperm : (queued (e :: (back ++ front))).Perm (queued (front ++ e :: back)) :=
      (perm_rotate front back e).symm.flatMap_right _
    exact (List.nodup_append.mp h.nodup).2.2 x hx x (hperm.mem_iff.mp hmem) rfl
  have hchains := hunlinked.chains.perm hrotate
  have hfinished : ∀ s ∈ e.head :: free, st'.state s = .proxyOpNone := by
    rw [hsame]
    exact List.forall_mem_cons.mpr ⟨hstate, h.finished⟩
  -- `handler->ops` points to the first entry
  cases front with
  | nil =>
      have hops : st.ops = some e.head := h.ops
      rw [Store.freeWrites, if_pos hops.symm]
      exact ⟨hlinks, hchains, by simp [Store.write], hpool, hnodup, hfinished⟩
  | cons g front =>
      have hops : st.ops = some g.head := h.ops
      have hne : some e.head ≠ st.ops := by
        rw [hops]
        rintro heq
        exact hgone (by simp [Option.some.inj heq])
      rw [Store.freeWrites, if_neg hne]
      exact ⟨hlinks, hchains, hunlinked.ops.trans hops, hpool, hnodup, hfinished⟩

omit [DecidableEq Chan] in
/-- Walking on from the current operation leads to the entry that follows it. -/
theorem Represents.next_eq (h : Represents st (front ++ e :: back) free)
    (hfollows : Follows op e (back ++ front)) : st.next op = some e.head := by
  have hring := h.links
  rw [heads_append] at hring
  exact hfollows.next_eq (by simpa [heads] using hring.rotate)

omit [DecidableEq Chan] in
/-- The locked section of the worker leaves an unfinished entry alone. -/
theorem Represents.advance_keep (h : Represents st (front ++ e :: back) free)
    (hfollows : Follows op e (back ++ front)) (hstate : st.state e.head ≠ .proxyOpNone) :
    st.advanceWrites op = some ([], some e.head) := by
  simp [Store.advanceWrites, h.next_eq hfollows, hstate]

/-- **Removing.**  The locked section of the worker moves the first operation of a
finished entry to the free list.  The next operation is the one that follows
then. -/
theorem Represents.advance_remove (h : Represents st (front ++ e :: back) free)
    (hfollows : Follows op e (back ++ front)) (hstate : st.state e.head = .proxyOpNone) :
    ∃ ws, st.advanceWrites op = some (ws, (heads (e.pop.toList ++ (back ++ front))).head?) ∧
      Represents (st.writes ws) (front ++ e.pop.toList ++ back) (e.head :: free) ∧
      (st.writes ws).nextPeer = st.nextPeer := by
  have hrotate := perm_rotate front back e
  have hlinks : Ring st.next (heads (e :: (back ++ front))) := by
    have hring := h.links
    rw [heads_append] at hring
    simpa [heads] using hring.rotate
  have hnodup : (queued (e :: (back ++ front))).Nodup := by
    have hperm : (queued (front ++ e :: back)).Perm (queued (e :: (back ++ front))) :=
      hrotate.flatMap_right _
    exact hperm.nodup_iff.mp (List.nodup_append.mp h.nodup).2.1
  obtain ⟨ws, hws, hunlinked⟩ :=
    unlinkWrites_spec hlinks (h.chains.perm hrotate) hnodup hfollows
  refine ⟨ws ++ st.freeWrites e.head (heads (e.pop.toList ++ (back ++ front))).head?, ?_, ?_, ?_⟩
  · simp only [Store.advanceWrites, h.next_eq hfollows, hstate, hws, Option.bind_eq_bind,
      Option.bind_some, if_true, Option.pure_def]
  · rw [Store.writes_append]
    exact h.free_head hstate hunlinked (writes_state st ws)
  · rw [Store.writes_append, ← hunlinked.nextPeer, Store.freeWrites]
    split <;> rfl

end Proxy
end FlashReduce
