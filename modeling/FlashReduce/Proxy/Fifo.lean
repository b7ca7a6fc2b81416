import FlashReduce.Library.ChannelFifo
import FlashReduce.Proxy.Invariant

/-!
# The proxy refines per-channel FIFO queues

The abstract system is `ChannelFifo`: one FIFO queue of slots for each channel
cell, and a server that starts only the first operation of a queue that is not
done.

* `fifoEvent` says which steps of the proxy are abstract events: the locked
  section of `ProxyArgsAppend`, the call and the return of a progress callback,
  and the locked section of the worker when it frees a slot.
* `Implements` is the abstraction relation: the queue of a channel is the chain of
  the channel's operation in the ring.
* `proxy_refines_fifo` is the forward simulation, and what it says about whole
  runs.
-/

namespace FlashReduce
namespace Proxy

open Library Library.Machine

variable {Chan : Type}

/-- The operation whose progress callback is running. -/
def Pc.running? : Pc → Option Slot
  | .running op => some op
  | _ => none

/-- The abstract event of a step. -/
def fifoEvent (s : System Chan) : Action Chan → Option (ChannelFifo.Event Chan Slot)
  | .proxyArgsAppend slot =>
      (s.store.proxyTail slot).map fun c =>
        .enqueue c slot (s.store.state slot = .proxyOpNone)
  | .worker =>
      match s.worker.pc with
      | .visit op =>
          if s.store.state op ≠ .proxyOpNone then
            (s.store.proxyTail op).map fun c => .start c op
          else none
      | .advance op =>
          match s.store.next op with
          | none => none
          | some freeOp =>
              if s.store.state freeOp = .proxyOpNone then
                (s.store.proxyTail freeOp).map fun c => .dequeue c freeOp
              else none
      | _ => none
  | .progressReturn state _ =>
      match s.worker.pc with
      | .running op =>
          (s.store.proxyTail op).map fun c => .report c op (state = .proxyOpNone)
      | _ => none
  | _ => none

/-- The queue of each channel consists of the operations of its entry. -/
def Reads (ring : List (Entry Chan)) (queue : Chan → List Slot) : Prop :=
  (∀ e ∈ ring, queue e.chan = e.slots) ∧ ∀ c, c ∉ ring.map Entry.chan → queue c = []

/-- A configuration and the abstract state that it implements. -/
structure Tracks (cfg : Config Chan) (f : ChannelFifo Chan Slot) : Prop where
  inv : Inv cfg
  reads : Reads cfg.ring f.queue
  done : ∀ x ∈ queued cfg.ring, f.done x = (cfg.sys.store.state x = .proxyOpNone : Bool)
  active : f.active = cfg.sys.worker.pc.running?

/-- The state of the proxy implements the abstract state. -/
def Implements (s : System Chan) (f : ChannelFifo Chan Slot) : Prop :=
  ∃ ring free, Tracks ⟨s, ring, free⟩ f

section Reads

variable {ring ring' rest : List (Entry Chan)} {queue : Chan → List Slot} {e e' : Entry Chan}

theorem Reads.perm (h : Reads ring queue) (hperm : ring.Perm ring') : Reads ring' queue :=
  ⟨fun e he => h.1 e (hperm.mem_iff.mpr he),
    fun c hc => h.2 c (fun hmem => hc ((hperm.map _).mem_iff.mp hmem))⟩

variable [DecidableEq Chan]

/-- The entry of a channel changes. -/
theorem Reads.set (h : Reads (e :: rest) queue) (hchans : ((e :: rest).map Entry.chan).Nodup)
    (hchan : e'.chan = e.chan) :
    Reads (e' :: rest) (Function.update queue e.chan e'.slots) := by
  have hrest := (List.nodup_cons.mp hchans).1
  refine ⟨List.forall_mem_cons.mpr ⟨?_, fun f hf => ?_⟩, fun c hc => ?_⟩
  · rw [hchan, Function.update_self]
  · have hne : f.chan ≠ e.chan := fun heq => hrest (heq ▸ List.mem_map_of_mem hf)
    rw [Function.update_of_ne hne]
    exact h.1 f (List.mem_cons_of_mem e hf)
  · rw [List.map_cons, List.mem_cons, not_or, hchan] at hc
    rw [Function.update_of_ne hc.1]
    exact h.2 c (by simpa using hc)

/-- A channel gets its first operation. -/
theorem Reads.add (h : Reads ring queue) (hc : e.chan ∉ ring.map Entry.chan) :
    Reads (e :: ring) (Function.update queue e.chan e.slots) := by
  refine ⟨List.forall_mem_cons.mpr ⟨Function.update_self .., fun f hf => ?_⟩, fun c hc' => ?_⟩
  · have hne : f.chan ≠ e.chan := fun heq => hc (heq ▸ List.mem_map_of_mem hf)
    rw [Function.update_of_ne hne]
    exact h.1 f hf
  · rw [List.map_cons, List.mem_cons, not_or] at hc'
    rw [Function.update_of_ne hc'.1]
    exact h.2 c hc'.2

/-- The only operation of a channel leaves. -/
theorem Reads.drop (h : Reads (e :: rest) queue) (hchans : ((e :: rest).map Entry.chan).Nodup) :
    Reads rest (Function.update queue e.chan []) := by
  have hrest := (List.nodup_cons.mp hchans).1
  refine ⟨fun f hf => ?_, fun c hc => ?_⟩
  · have hne : f.chan ≠ e.chan := fun heq => hrest (heq ▸ List.mem_map_of_mem hf)
    rw [Function.update_of_ne hne]
    exact h.1 f (List.mem_cons_of_mem e hf)
  · by_cases heq : c = e.chan
    · rw [heq, Function.update_self]
    · rw [Function.update_of_ne heq]
      exact h.2 c (by simpa [heq] using hc)

/-- What is not queued is in no queue. -/
theorem Reads.notMem (h : Reads ring queue) {x : Slot} (hx : x ∉ queued ring) (c : Chan) :
    x ∉ queue c := by
  by_cases hc : c ∈ ring.map Entry.chan
  · obtain ⟨e, he, rfl⟩ := List.mem_map.mp hc
    rw [h.1 e he]
    exact fun hmem => hx (mem_queued.mpr ⟨e, he, hmem⟩)
  · rw [h.2 c hc]
    exact List.not_mem_nil

end Reads

/-! ### The simulation -/

variable [DecidableEq Chan] {s s' : System Chan} {ring front back : List (Entry Chan)}
  {free free' : List Slot} {f : ChannelFifo Chan Slot} {e : Entry Chan} {op slot : Slot}

omit [DecidableEq Chan] in
theorem Tracks.initial (hidle : f.Idle) : Tracks ⟨.initial Chan, [], []⟩ f :=
  ⟨Inv.initial, ⟨nofun, fun c _ => hidle.1 c⟩, nofun, hidle.2⟩

omit [DecidableEq Chan] in
/-- A step that touches neither the queue nor the callback. -/
theorem Tracks.quiet (h : Tracks ⟨s, ring, free⟩ f) (hinv : Inv ⟨s', ring, free'⟩)
    (hstate : ∀ x ∈ queued ring, s'.store.state x = s.store.state x)
    (hactive : s'.worker.pc.running? = s.worker.pc.running?) :
    Tracks ⟨s', ring, free'⟩ f :=
  ⟨hinv, h.reads, fun x hx => by rw [hstate x hx]; exact h.done x hx, h.active.trans hactive.symm⟩

theorem Worker.signal_running? (w : Worker) : w.signal.pc.running? = w.pc.running? := by
  unfold Worker.signal
  split
  · next hpc => simp [hpc, Pc.running?]
  · rfl

omit [DecidableEq Chan] in
/-- Every operation of the ring is the first one of its channel. -/
theorem Tracks.head (h : Tracks ⟨s, ring, free⟩ f) (hop : op ∈ heads ring) :
    ∃ c, s.store.proxyTail op = some c ∧ (f.queue c).head? = some op ∧ op ∈ queued ring := by
  obtain ⟨e, he, rfl⟩ := List.mem_map.mp hop
  refine ⟨e.chan, h.inv.represents.chains.tails e he _ e.head_mem_slots, ?_,
    mem_queued.mpr ⟨e, he, e.head_mem_slots⟩⟩
  rw [h.reads.1 e he]
  rfl

/-- Appending enqueues at the end of the channel's queue. -/
theorem Tracks.append {c : Chan} {ws : List (Write Chan)} (h : Tracks ⟨s, ring, free⟩ f)
    (hmem : slot ∈ s.held) (htail : s.store.proxyTail slot = some c)
    (hws : s.store.appendWrites slot = some ws) :
    ∃ g, ChannelFifo.Step f (.enqueue c slot (s.store.state slot = .proxyOpNone : Bool)) g ∧
      Tracks ⟨{ s with store := s.store.writes ws, held := s.held.erase slot },
        enqueue c slot ring, free⟩ g := by
  have hout : slot ∉ queued ring := fun hq =>
    (h.inv.held_apart hmem).2 (List.mem_append_right free hq)
  have hchans := h.inv.represents.chains.chans
  refine ⟨_, .enqueue (h.reads.notMem hout), h.inv.append hmem htail hws, ?_, ?_, h.active⟩
  · rcases enqueue_perm hchans c slot with ⟨e, rest, rfl, hring, hnew⟩ | ⟨hc, hnew⟩
    · have hreads := h.reads.perm hring
      have hchans' := (hring.map Entry.chan).nodup_iff.mp hchans
      have hset := hreads.set hchans' (e.push_chan slot)
      rw [Entry.push_slots, ← hreads.1 e List.mem_cons_self] at hset
      exact hset.perm hnew.symm
    · have hadd := h.reads.add (e := ⟨c, slot, []⟩) hc
      refine Reads.perm ?_ hnew.symm
      simpa [h.reads.2 c hc, Entry.slots] using hadd
  · intro x hx
    rcases List.mem_cons.mp ((queued_enqueue hchans).mem_iff.mp hx) with rfl | hold
    · simp
    · have hne : x ≠ slot := fun heq => hout (heq ▸ hold)
      have hdone := h.done x hold
      simpa [Function.update_of_ne hne] using hdone

/-- Freeing a slot dequeues the first operation of its channel. -/
theorem Tracks.remove {ws : List (Write Chan)} (h : Tracks ⟨s, front ++ e :: back, free⟩ f)
    (hpc : s.worker.pc = .advance op) (hfollows : Follows op e (back ++ front))
    (hstate : s.store.state e.head = .proxyOpNone)
    (hws : s.store.advanceWrites op =
      some (ws, (heads (e.pop.toList ++ (back ++ front))).head?)) :
    ∃ g, ChannelFifo.Step f (.dequeue e.chan e.head) g ∧
      Tracks ⟨{ s with
        store := s.store.writes ws
        worker := s.worker.endIteration (heads (e.pop.toList ++ (back ++ front))).head?
          (s.store.writes ws).ops }, front ++ e.pop.toList ++ back, e.head :: free⟩ g := by
  have hchans := h.inv.represents.chains.chans
  have hrotate := perm_rotate front back e
  have hreads := h.reads.perm hrotate
  have hchans' := (hrotate.map Entry.chan).nodup_iff.mp hchans
  have hqueue : f.queue e.chan = e.head :: queued e.pop.toList := by
    rw [hreads.1 e List.mem_cons_self, queued_pop]
  have hhead : f.done e.head = true := by
    have hdone := h.done e.head (by simp [e.head_mem_slots])
    simpa [hstate] using hdone
  have hactive : f.active = none := by
    rw [h.active, hpc]
    rfl
  refine ⟨_, .dequeue hqueue hhead hactive, h.inv.remove hfollows hstate hws, ?_, ?_, ?_⟩
  · have hnew : (e.pop.toList ++ (back ++ front)).Perm (front ++ e.pop.toList ++ back) := by
      rw [← List.append_assoc]
      exact List.perm_append_comm.trans (by rw [List.append_assoc])
    refine Reads.perm ?_ hnew
    cases hpop : e.pop with
    | none => simpa using hreads.drop hchans'
    | some e' =>
        have hchan := (Entry.slots_of_pop_some hpop).1
        simpa using hreads.set hchans' hchan
  · intro x hx
    have hold : x ∈ queued (front ++ e :: back) := by
      have hmem : x ∈ e.head :: free ++ queued (front ++ e.pop.toList ++ back) :=
        List.mem_append_right _ hx
      simp only [queued_append, queued_cons, queued_pop e, List.mem_append,
        List.mem_cons] at hx ⊢
      tauto
    have hdone := h.done x hold
    simpa using hdone
  · rw [hactive, Worker.endIteration_pc]
    rfl

/-- **Every move is silent or an abstract step.** -/
theorem Tracks.move {action : Action Chan} {ring' : List (Entry Chan)}
    (h : Tracks ⟨s, ring, free⟩ f) (hmove : Move ⟨s, ring, free⟩ action ⟨s', ring', free'⟩) :
    fifoEvent s action = none ∧ Tracks ⟨s', ring', free'⟩ f ∨
      ∃ event g, fifoEvent s action = some event ∧ ChannelFifo.Step f event g ∧
        Tracks ⟨s', ring', free'⟩ g := by
  have hinv := h.inv.move hmove
  cases hmove with
  | allocate => exact .inl ⟨rfl, h.quiet hinv (fun _ _ => rfl) rfl⟩
  | allocateBlock hblock =>
      refine .inl ⟨rfl, h.quiet hinv (fun x hx => if_neg ?_) rfl⟩
      -- queued slots are in older blocks
      have hold := (h.inv.mem_slots x).mp (by simp [Config.slots, hx])
      exact Nat.ne_of_lt (h.inv.blocks_lt _ hold)
  | allocateReturn hmem => exact .inl ⟨rfl, h.quiet hinv (fun _ _ => rfl) rfl⟩
  | @fill _ _ _ slot state proxyTail hmem =>
      refine .inl ⟨rfl, h.quiet hinv (fun x hx => ?_) rfl⟩
      have hne : x ≠ slot := by
        rintro rfl
        exact (h.inv.held_apart hmem).2 (List.mem_append_right free hx)
      exact Function.update_of_ne hne _ _
  | @append _ _ _ slot c ws hmem htail hws =>
      obtain ⟨g, hstep, htracks⟩ := h.append hmem htail hws
      exact .inr ⟨_, g, by simp [fifoEvent, htail], hstep, htracks⟩
  | crash hmem htail =>
      exact .inl ⟨by simp [fifoEvent, htail], h.quiet hinv (fun _ _ => rfl) rfl⟩
  | start hops => exact .inl ⟨rfl, h.quiet hinv (fun _ _ => rfl) (Worker.signal_running? _)⟩
  | startEmpty hops => exact .inl ⟨rfl, h⟩
  | requestStop => exact .inl ⟨rfl, h.quiet hinv (fun _ _ => rfl) (Worker.signal_running? _)⟩
  | setAbortFlag => exact .inl ⟨rfl, h.quiet hinv (fun _ _ => rfl) rfl⟩
  | abort hpc hflag =>
      exact .inl ⟨by simp [fifoEvent, hpc], h.quiet hinv (fun _ _ => rfl) (by rw [hpc]; rfl)⟩
  | topFetch hpc hflag =>
      exact .inl ⟨by simp [fifoEvent, hpc], h.quiet hinv (fun _ _ => rfl) (by rw [hpc]; rfl)⟩
  | topVisit hpc hflag =>
      exact .inl ⟨by simp [fifoEvent, hpc], h.quiet hinv (fun _ _ => rfl) (by rw [hpc]; rfl)⟩
  | stop hpc hops hstop =>
      exact .inl ⟨by simp [fifoEvent, hpc], h.quiet hinv (fun _ _ => rfl) (by rw [hpc]; rfl)⟩
  | sleep hpc hops hstop =>
      exact .inl ⟨by simp [fifoEvent, hpc], h.quiet hinv (fun _ _ => rfl) (by rw [hpc]; rfl)⟩
  | fetchVisit hpc hops =>
      exact .inl ⟨by simp [fifoEvent, hpc], h.quiet hinv (fun _ _ => rfl) (by rw [hpc]; rfl)⟩
  | wake hpc =>
      exact .inl ⟨by simp [fifoEvent, hpc], h.quiet hinv (fun _ _ => rfl) (by rw [hpc]; rfl)⟩
  | @run _ _ _ op hpc hstate =>
      -- the current operation is in the ring, so it is the first one of its channel
      obtain ⟨c, htail, hhead, hqueued⟩ := h.head (h.inv.cursor op (by simp [hpc, Pc.op]))
      have hdone : f.done op = false := by simpa [hstate] using h.done op hqueued
      have hactive : f.active = none := by
        rw [h.active, hpc]
        rfl
      refine .inr ⟨.start c op, _, by simp [fifoEvent, hpc, hstate, htail],
        .start hhead hdone hactive, hinv, h.reads, h.done, rfl⟩
  | skip hpc hstate =>
      exact .inl ⟨by simp [fifoEvent, hpc, hstate],
        h.quiet hinv (fun _ _ => rfl) (by rw [hpc]; rfl)⟩
  | @keep _ front e back _ op hpc hfollows hstate =>
      have hnext : s.store.next op = some e.head := h.inv.represents.next_eq hfollows
      refine .inl ⟨by simp [fifoEvent, hpc, hnext, hstate], h.quiet hinv (fun _ _ => rfl) ?_⟩
      rw [Worker.endIteration_pc, hpc]
      rfl
  | @remove _ front e back _ op ws hpc hfollows hstate hws =>
      have hnext : s.store.next op = some e.head := h.inv.represents.next_eq hfollows
      have htail : s.store.proxyTail e.head = some e.chan :=
        h.inv.represents.chains.tails e (by simp) _ e.head_mem_slots
      obtain ⟨g, hstep, htracks⟩ := h.remove hpc hfollows hstate hws
      exact .inr ⟨_, g, by simp [fifoEvent, hpc, hnext, hstate, htail], hstep, htracks⟩
  | @progressReturn _ _ _ op state idle hpc =>
      obtain ⟨c, htail, hhead, hqueued⟩ := h.head (h.inv.cursor op (by simp [hpc, Pc.op]))
      have hactive : f.active = some op := by
        rw [h.active, hpc]
        rfl
      refine .inr ⟨.report c op (state = .proxyOpNone : Bool), _, by simp [fifoEvent, hpc, htail],
        .report hhead hactive, hinv, h.reads, fun x hx => ?_, rfl⟩
      by_cases hx' : x = op
      · simp [hx']
      · have hdone := h.done x hx
        simpa [Function.update_of_ne hx'] using hdone
  | spuriousWakeup hpc =>
      exact .inl ⟨rfl, h.quiet hinv (fun _ _ => rfl) (by rw [hpc]; rfl)⟩

/-- What a history says about the queues: on every channel, what was appended was
removed or is still queued, in that order; the operation that is run is always the
oldest one of its channel that was not removed; and an operation that finished is
not run again before it is appended again. -/
structure InOrder (events : List (ChannelFifo.Event Chan Slot)) (f : ChannelFifo Chan Slot) :
    Prop where
  conserved : ∀ c, ChannelFifo.enqueued c events = ChannelFifo.dequeued c events ++ f.queue c
  oldest : ∀ first c op second, events = first ++ .start c op :: second →
    (ChannelFifo.enqueued c first)[(ChannelFifo.dequeued c first).length]? = some op
  finished : ∀ first c op middle d second,
    events = first ++ .report c op true :: (middle ++ .start d op :: second) →
    ∃ b done, .enqueue b op done ∈ middle

theorem fifo_simulation :
    Simulation (machine Chan) anyMove fifoEvent ChannelFifo.Idle ChannelFifo.Step Implements where
  init := by
    rintro s rfl
    have hidle : (⟨fun _ => [], fun _ => false, none⟩ : ChannelFifo Chan Slot).Idle :=
      ⟨fun _ => rfl, rfl⟩
    exact ⟨_, hidle, [], [], .initial hidle⟩
  silent := by
    rintro s action t f ⟨ring, free, h⟩ - hstep hsilent
    obtain ⟨ring', free', hmove⟩ := h.inv.step_move hstep
    rcases h.move hmove with ⟨-, h'⟩ | ⟨event, g, hevent, -, -⟩
    · exact ⟨ring', free', h'⟩
    · rw [hsilent] at hevent
      cases hevent
  matched := by
    rintro s action t f event ⟨ring, free, h⟩ - hstep hevent
    obtain ⟨ring', free', hmove⟩ := h.inv.step_move hstep
    rcases h.move hmove with ⟨hsilent, -⟩ | ⟨event', g, hevent', hnext, h'⟩
    · rw [hsilent] at hevent
      cases hevent
    · cases hevent.symm.trans hevent'
      exact ⟨g, hnext, ring', free', h'⟩

/-- **The proxy refines per-channel FIFO queues**: every step is silent or an
abstract step, and in every run the operations of each channel are run in the
order in which they were appended. -/
theorem proxy_refines_fifo :
    Simulation (machine Chan) anyMove fifoEvent ChannelFifo.Idle ChannelFifo.Step Implements ∧
      ∀ history s, (machine Chan).Run anyMove history s →
        ∃ f, Implements s f ∧ InOrder (eventsOf fifoEvent history) f := by
  refine ⟨fifo_simulation, fun history s hrun => ?_⟩
  obtain ⟨f₀, f, hidle, htrace, himplements⟩ := fifo_simulation.trace hrun
  refine ⟨f, himplements, ChannelFifo.conserved hidle htrace, ?_, ?_⟩
  · intro first c op second hevents
    exact ChannelFifo.start_oldest hidle (hevents ▸ htrace)
  · intro first c op middle d second hevents
    exact ChannelFifo.no_start_after_done (hevents ▸ htrace)

end Proxy
end FlashReduce
