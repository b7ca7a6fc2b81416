import FlashReduce.WriteTest.Synchronised

/-!
# What a write finds

* `Linked`: a queue pair is connected to the other host's when its host has run
  `modify_qp_to_rts`.
* `Counted` bounds what is posted and on its way by the scripts.
* `Test.safe`: in every interleaving, and whatever is lost, each write that arrives
  finds a connected queue pair and a posted receive, and no queue overflows.
-/

namespace FlashReduce
namespace WriteTest

open Library Controller Rdma Benchmark Socket

variable {σ τ : Type} {t : Test σ τ} {hosts : Hosts} {ibvModifyQp : ModifyQp}
  {s s' : State σ τ} {side : Side} {command : Command} {n : Nat}

/-! ### The queue pairs -/

/-- The queue pairs are connected when `modify_qp_to_rts` has returned, and before that as
`modify_qp_to_init` has left them. -/
structure Linked (hosts : Hosts) (s : State σ τ) : Prop where
  connected : ∀ side, .modifyQpToRts ∈ s.done side → Connected (hosts.info side.peer) 0 (s.qp side)
  init : ∀ side, .modifyQpToRts ∉ s.done side → (s.qp side).qpState = .init

theorem Linked.congr (h : Linked hosts s) (hdone : s'.done = s.done) (hqp : s'.qp = s.qp) :
    Linked hosts s' := by
  refine ⟨fun side hmem => ?_, fun side hmem => ?_⟩
  · rw [hqp]
    exact h.connected side (hdone ▸ hmem)
  · rw [hqp]
    exact h.init side (hdone ▸ hmem)

/-- A script connects the queue pair after the first `sync`. -/
theorem Synced.done_of_modify (h : Synced t hosts s) {rest : List Command}
    (hleft : s.left side = .modifyQpToRts :: rest) : s.done side = [.sync] := by
  have hscript := h.script side
  rw [hleft, Test.script] at hscript
  rcases hdone : s.done side with _ | ⟨first, _ | ⟨second, done⟩⟩ <;> rw [hdone] at hscript
  · cases hscript
  · rw [(List.cons.inj hscript).1]
  · have hrest := (List.cons.inj (List.cons.inj hscript).2).2
    refine absurd ?_ (t.connects side)
    rw [← hrest]
    simp

/-- Where a script is before the queue pair is connected. -/
theorem Synced.of_not_modify (h : Synced t hosts s) (hmodify : .modifyQpToRts ∉ s.done side) :
    s.done side = [] ∨ s.done side = [.sync] ∧ (s.left side).head? = some .modifyQpToRts := by
  have hscript := h.script side
  rw [Test.script] at hscript
  rcases hdone : s.done side with _ | ⟨first, _ | ⟨second, done⟩⟩ <;> rw [hdone] at hscript
  · exact .inl rfl
  · obtain ⟨hfirst, htail⟩ := List.cons.inj hscript
    refine .inr ⟨by rw [hfirst], ?_⟩
    rw [show s.left side = _ from htail]
    rfl
  · refine absurd ?_ hmodify
    rw [hdone, (List.cons.inj (List.cons.inj hscript).2).1]
    simp

/-- What the first call on the socket has brought is the other host's `QpInfo`. -/
theorem Synced.neighbor (h : Synced t hosts s) {rest : List Command}
    (hleft : s.left side = .modifyQpToRts :: rest) {info : QpInfo}
    (hinfo : s.neighborQpInfo hosts side = some info) : info = hosts.info side.peer := by
  have hdone := h.done_of_modify hleft
  have hindex := ((h.positioned side).between (by rw [hleft]; simp)).2
  have hopen : (s.conn.endpoint .daemon).closed = false := by
    by_contra hclosed
    obtain ⟨hclose, hcalls⟩ := h.daemon_closed (by simpa using hclosed)
    cases side with
    | daemon => simp [hdone] at hclose
    | client =>
        have htwo := t.daemon_syncs
        rw [hindex, hdone] at hcalls
        simp only [Test.script, Test.rest, syncs_cons, syncs_nil, reduceCtorEq, if_true,
          if_false] at hcalls
        omega
  obtain ⟨hinv, hhealthy⟩ := h.daemon_open hopen
  obtain ⟨⟨rc, inBuf⟩, hreturned, rfl⟩ := Option.map_eq_some_iff.mp hinfo
  obtain rfl : rc = 0 := hhealthy side _ (List.mem_of_getElem? hreturned)
  rw [((hinv side).exchanged 0 inBuf hreturned).1]
  exact hosts.repr.ofBytes_bytes _

/-- A host changes its queue pair only by `modify_qp_to_rts`, and refuses nothing itself. -/
theorem execute_same (h : s.execute t hosts ibvModifyQp n side command = some s') :
    (command ≠ .modifyQpToRts → s'.qp = s.qp) ∧ s'.refused = s.refused := by
  cases command with
  | modifyQpToRts =>
      obtain ⟨_, _, _, -, -, rfl⟩ := execute_modifyQpToRts h
      exact ⟨fun hcommand => absurd rfl hcommand, rfl⟩
  | sync =>
      rw [execute_sync] at h
      obtain ⟨-, heq⟩ := Option.ite_none_right_eq_some.mp h
      rw [← Option.some.inj heq]
      exact ⟨fun _ => rfl, rfl⟩
  | postRecv wrId =>
      cases side with
      | daemon =>
          rw [← Option.some.inj h]
          exact ⟨fun _ => rfl, rfl⟩
      | client => cases h
  | postSend wrId =>
      cases side with
      | daemon => cases h
      | client =>
          rw [← Option.some.inj h]
          exact ⟨fun _ => rfl, rfl⟩
  | waitCompletion =>
      cases side with
      | daemon =>
          obtain ⟨-, heq⟩ := Option.ite_none_right_eq_some.mp h
          rw [← Option.some.inj heq]
          exact ⟨fun _ => rfl, rfl⟩
      | client =>
          obtain ⟨-, heq⟩ := Option.ite_none_right_eq_some.mp h
          rw [← Option.some.inj heq]
          exact ⟨fun _ => rfl, rfl⟩
  | benchmark =>
      cases side with
      | daemon =>
          rw [← Option.some.inj h, State.receive]
          split <;> exact ⟨fun _ => rfl, rfl⟩
      | client =>
          rw [← Option.some.inj h, State.send]
          split <;> exact ⟨fun _ => rfl, rfl⟩
  | closeSocket =>
      cases side with
      | daemon =>
          rw [← Option.some.inj h]
          exact ⟨fun _ => rfl, rfl⟩
      | client =>
          rw [← Option.some.inj h]
          exact ⟨fun _ => rfl, rfl⟩

theorem Moved.mem {c : Command} (h : Moved s side command s') {other : Side}
    (hmem : c ∈ s'.done other) : c ∈ s.done other ∨ other = side ∧ c = command := by
  have hadvance (hdone : s'.done = (s.advance side command).done) :
      c ∈ s.done other ∨ other = side ∧ c = command := by
    rw [hdone] at hmem
    rcases eq_or_ne other side with rfl | hne
    · rw [advance_done] at hmem
      rcases List.mem_append.mp hmem with hold | hnew
      · exact .inl hold
      · exact .inr ⟨rfl, List.mem_singleton.mp hnew⟩
    · rw [(advance_peer hne).1] at hmem
      exact .inl hmem
  cases h with
  | stays _ hconn hdone hleft => exact .inl (hdone ▸ hmem)
  | advances _ _ hconn hdone hleft hopen hsync => exact hadvance hdone
  | closes _ hconn hdone hleft => exact hadvance hdone

theorem Moved.mem_of_mem {c : Command} (h : Moved s side command s') {other : Side}
    (hmem : c ∈ s.done other) : c ∈ s'.done other := by
  cases h with
  | stays _ hconn hdone hleft => exact hdone ▸ hmem
  | advances _ _ hconn hdone hleft hopen hsync => exact hdone ▸ mem_advance hmem
  | closes _ hconn hdone hleft => exact hdone ▸ mem_advance hmem

/-- A host that is about to call `modify_qp_to_rts` will not fail there. -/
theorem Linked.modify (hlinked : Linked hosts s) (hsynced : Synced t hosts s)
    (happlies : AppliesMask ibvModifyQp) (hconforms : Conforms t.qpType ibvModifyQp)
    {rest : List Command} (hleft : s.left side = .modifyQpToRts :: rest) :
    ∃ qp', modifyQpToRts ibvModifyQp (s.qp side) (hosts.info side.peer) t.mtu t.reliable =
      some (0, qp') := by
  refine modifyQpToRts_of_names happlies hconforms (hlinked.init side ?_) t.names
  simp [hsynced.done_of_modify hleft]

theorem Linked.execute (hlinked : Linked hosts s) (hsynced : Synced t hosts s)
    (happlies : AppliesMask ibvModifyQp) (hconforms : Conforms t.qpType ibvModifyQp)
    {rest : List Command} (hleft : s.left side = command :: rest)
    (h : s.execute t hosts ibvModifyQp n side command = some s') : Linked hosts s' := by
  have hmoved := execute_moved h
  by_cases hcommand : command = .modifyQpToRts
  · subst hcommand
    obtain ⟨info, ret, qp, hinfo, hmodify, rfl⟩ := execute_modifyQpToRts h
    obtain rfl := hsynced.neighbor hleft hinfo
    obtain ⟨qp', hsome⟩ := hlinked.modify hsynced happlies hconforms hleft
    rw [hsome] at hmodify
    obtain ⟨rfl, rfl⟩ := Prod.mk.inj (Option.some.inj hmodify)
    have hconnected := modifyQpToRts_connected happlies hsome
    rw [expectedPsn, hosts.psn_zero, ite_self] at hconnected
    constructor
    · intro other hmem
      rcases eq_or_ne other side with rfl | hne
      · change Connected _ 0 (Function.update s.qp other qp' other)
        rw [Function.update_self]
        exact hconnected
      · change Connected _ 0 (Function.update s.qp side qp' other)
        rw [Function.update_of_ne hne]
        refine hlinked.connected other ?_
        rcases hmoved.mem hmem with hold | ⟨heq, -⟩
        · exact hold
        · exact absurd heq hne
    · intro other hmem
      have hne : other ≠ side := by
        rintro rfl
        refine hmem ?_
        change _ ∈ (s.advance other .modifyQpToRts).done other
        simp
      change (Function.update s.qp side qp' other).qpState = .init
      rw [Function.update_of_ne hne]
      exact hlinked.init other fun hold => hmem (hmoved.mem_of_mem hold)
  · have hqp := (execute_same h).1 hcommand
    constructor
    · intro other hmem
      rw [hqp]
      refine hlinked.connected other ?_
      rcases hmoved.mem hmem with hold | ⟨-, heq⟩
      · exact hold
      · exact absurd heq.symm hcommand
    · intro other hmem
      rw [hqp]
      exact hlinked.init other fun hold => hmem (hmoved.mem_of_mem hold)

/-! ### What is posted and on its way -/

/-- The rounds that the benchmark of the client has made, as long as it is running. -/
def running (t : Test σ τ) (s : State σ τ) : Nat :=
  if benchmarks (s.left .client) then t.sender.spent s.sender else 0

structure Counted (t : Test σ τ) (s : State σ τ) : Prop where
  recvs_ge : weight Command.recvs (s.done .daemon) ≤ (t.receiver.recvs s.receiver).posted.length
  recvs_le : (t.receiver.recvs s.receiver).posted.length ≤
    weight Command.recvs (s.done .daemon) + s.taken
  sends_le : (t.sender.sends s.sender).posted.length ≤
    weight Command.sends (s.done .client) + running t s
  spent_le : t.sender.spent s.sender ≤ 10
  flow : s.arrived + s.inFlight ≤ (t.sender.sends s.sender).posted.length
  taken_le : s.taken ≤ s.arrived
  completed_le : s.completed ≤ (t.sender.sends s.sender).posted.length
  polled_le : (t.sender.sends s.sender).polled ≤ s.completed

theorem Counted.initial (h : Initial t s) : Counted t s := by
  rw [h.2]
  have hposted : (t.receiver.recvs t.receiver.start).posted.length = 0 := by
    rw [t.receiver.recvs_start]
    rfl
  have hsends : (t.sender.sends t.sender.start).posted.length = 0 ∧
      (t.sender.sends t.sender.start).polled = 0 := by
    rw [t.sender.sends_start]
    exact ⟨rfl, rfl⟩
  have hspent := t.sender.spent_start
  refine ⟨?_, ?_, ?_, ?_, ?_, ?_, ?_, ?_⟩ <;> simp [hposted, hsends, hspent]

theorem foldl_postRecv_length (wcs : List UInt64) (queue : RecvQueue) :
    (wcs.foldl RecvQueue.postRecv queue).posted.length = queue.posted.length + wcs.length := by
  induction wcs generalizing queue with
  | nil => rfl
  | cons wrId wcs ih =>
      rw [List.foldl_cons, ih, List.length_cons]
      simp only [RecvQueue.postRecv, List.length_append, List.length_singleton]
      omega

theorem weight_advance (w : Command → Nat) {other : Side} :
    weight w ((s.advance side command).done other) =
      weight w (s.done other) + if other = side then w command else 0 := by
  rcases eq_or_ne other side with rfl | hne
  · rw [advance_done, weight_append, if_pos rfl]
    simp
  · rw [(advance_peer hne).1, if_neg hne, Nat.add_zero]

theorem weight_advance_self (w : Command → Nat) (s : State σ τ) (side : Side) (command : Command) :
    weight w ((s.advance side command).done side) = weight w (s.done side) + w command := by
  rw [weight_advance, if_pos rfl]

/-- A command that posts nothing and polls nothing, and does not end the benchmark with less
than it may send. -/
theorem Counted.advance (h : Counted t s) (hrecvs : command.recvs = 0)
    (hsends : benchmarks (s.left side) = false ∨ benchmarks (s.left side).tail = true ∨
      10 ≤ command.sends) :
    Counted t (s.advance side command) where
  recvs_ge := by
    rw [weight_advance, hrecvs, ite_self]
    exact h.recvs_ge
  recvs_le := by
    rw [weight_advance, hrecvs, ite_self]
    exact h.recvs_le
  sends_le := by
    have hle := h.sends_le
    have hspent := h.spent_le
    rw [weight_advance]
    unfold running at hle ⊢
    cases side with
    | daemon =>
        rw [if_neg nofun, Nat.add_zero]
        exact hle
    | client =>
        rw [if_pos rfl, advance_left]
        change (t.sender.sends s.sender).posted.length ≤
          _ + if benchmarks (s.left .client).tail then t.sender.spent s.sender else 0
        rcases hsends with hidle | hnext | hten
        · rw [hidle, if_neg Bool.false_ne_true] at hle
          omega
        · rw [if_pos hnext]
          split at hle <;> omega
        · split at hle <;> omega
  spent_le := h.spent_le
  flow := h.flow
  taken_le := h.taken_le
  completed_le := h.completed_le
  polled_le := h.polled_le

/-- The server posts receives, and polls for writes that have arrived. -/
theorem Counted.daemon (h : Counted t s) (recvs taken : Nat)
    (hposted : (t.receiver.recvs s'.receiver).posted.length =
      (t.receiver.recvs s.receiver).posted.length + recvs)
    (hdone : weight Command.recvs (s'.done .daemon) ≤
      weight Command.recvs (s.done .daemon) + recvs)
    (hbound : weight Command.recvs (s.done .daemon) + recvs ≤
      weight Command.recvs (s'.done .daemon) + (taken - s.taken))
    (htaken : s.taken ≤ taken ∧ taken ≤ s.arrived)
    (hpolled : s'.taken = taken)
    (hclient : s'.done .client = s.done .client ∧ s'.left .client = s.left .client)
    (hsender : s'.sender = s.sender ∧ s'.inFlight = s.inFlight ∧ s'.arrived = s.arrived ∧
      s'.completed = s.completed) : Counted t s' := by
  obtain ⟨hsender, hinFlight, harrived, hcompleted⟩ := hsender
  have hge := h.recvs_ge
  have hle := h.recvs_le
  refine ⟨?_, ?_, ?_, ?_, ?_, ?_, ?_, ?_⟩
  · rw [hposted]
    omega
  · rw [hposted, hpolled]
    omega
  · rw [running, hsender, hclient.1, hclient.2]
    exact h.sends_le
  · rw [hsender]
    exact h.spent_le
  · rw [hsender, harrived, hinFlight]
    exact h.flow
  · rw [hpolled, harrived]
    exact htaken.2
  · rw [hcompleted, hsender]
    exact h.completed_le
  · rw [hcompleted, hsender]
    exact h.polled_le

/-- The client posts sends, and polls for those that have completed. -/
theorem Counted.client (h : Counted t s) (sends polled : Nat)
    (hposted : (t.sender.sends s'.sender).posted.length =
      (t.sender.sends s.sender).posted.length + sends)
    (hpolled : (t.sender.sends s'.sender).polled = (t.sender.sends s.sender).polled + polled)
    (hdone : weight Command.sends (s.done .client) + running t s + sends ≤
      weight Command.sends (s'.done .client) + running t s')
    (hspent : t.sender.spent s'.sender ≤ 10)
    (hcompleted : (t.sender.sends s.sender).polled + polled ≤ s.completed)
    (hinFlight : s'.inFlight = s.inFlight + sends)
    (hserver : s'.done .daemon = s.done .daemon ∧ s'.receiver = s.receiver ∧
      s'.arrived = s.arrived ∧ s'.taken = s.taken ∧ s'.completed = s.completed) :
    Counted t s' := by
  obtain ⟨hdaemon, hreceiver, harrived, htaken, hsame⟩ := hserver
  have hle := h.sends_le
  have hflow := h.flow
  have hcompletedLe := h.completed_le
  refine ⟨?_, ?_, ?_, hspent, ?_, ?_, ?_, ?_⟩
  · rw [hdaemon, hreceiver]
    exact h.recvs_ge
  · rw [hdaemon, hreceiver, htaken]
    exact h.recvs_le
  · omega
  · omega
  · rw [htaken, harrived]
    exact h.taken_le
  · omega
  · omega

theorem pollResult_le (posted : List UInt64) {arrived taken : Nat} (hle : taken ≤ arrived)
    (n : Nat) :
    taken + (pollResult posted arrived taken n).numCompletions ≤ arrived := by
  unfold PollResult.numCompletions pollResult
  simp only [List.length_take, List.length_drop]
  omega

/-- A round of the benchmark of the server posts a receive for each completion it takes. -/
theorem Counted.receive (h : Counted t s) (n : Nat) : Counted t (s.receive t n) := by
  unfold State.receive
  dsimp only
  split
  · next receiver hround =>
    have hrecvs := t.receiver.round_recvs _ _ _ hround
    have hle := pollResult_le (t.receiver.recvs s.receiver).posted h.taken_le n
    by_cases hpolls : t.receiver.polls s.receiver = true
    · rw [if_pos hpolls] at hrecvs
      refine h.daemon
        (pollResult (t.receiver.recvs s.receiver).posted s.arrived s.taken n).numCompletions _ ?_
        (Nat.le_add_right ..) ?_ ⟨Nat.le_add_right .., hle⟩ (if_pos hpolls) ⟨rfl, rfl⟩
        ⟨rfl, rfl, rfl, rfl⟩
      · rw [hrecvs, foldl_postRecv_length]
        rfl
      · exact Nat.add_le_add_left (Nat.le_of_eq (Nat.add_sub_cancel_left ..).symm) _
    · rw [if_neg hpolls] at hrecvs
      refine h.daemon 0 s.taken ?_ (Nat.le_refl _) (Nat.le_add_right ..)
        ⟨Nat.le_refl _, h.taken_le⟩ (if_neg hpolls) ⟨rfl, rfl⟩ ⟨rfl, rfl, rfl, rfl⟩
      rw [hrecvs]
      rfl
  · exact h.advance rfl (.inr (.inr (Nat.le_refl _)))

/-- A round of the benchmark of the client posts one send at most. -/
theorem Counted.send (h : Counted t s) (hhead : benchmarks (s.left .client) = true) (n : Nat) :
    Counted t (s.send t n) := by
  unfold State.send
  dsimp only
  split
  · next sender hround =>
    have hsends := t.sender.round_sends _ _ _ hround
    have hspent := t.sender.round_spent _ _ _ hround h.spent_le
    have hrunning : running t s = t.sender.spent s.sender := if_pos hhead
    have hcompleted := h.polled_le
    have hdone {k : Nat} (hmore : t.sender.spent s.sender + k ≤ t.sender.spent sender) :
        weight Command.sends (s.done .client) + running t s + k ≤
          weight Command.sends (s.done .client) +
            running t { s with sender := sender, inFlight := s.inFlight +
              ((t.sender.sends sender).posted.length -
                (t.sender.sends s.sender).posted.length) } := by
      rw [hrunning, running, if_pos hhead]
      change _ ≤ _ + t.sender.spent sender
      omega
    split at hsends
    · obtain ⟨hsends, hmore⟩ := hsends
      refine h.client 0 (min n (min (s.completed - (t.sender.sends s.sender).polled) 32)) ?_ ?_
        (hdone hmore) hspent ?_ ?_ ⟨rfl, rfl, rfl, rfl, rfl⟩
      · rw [hsends]
        rfl
      · rw [hsends]
        rfl
      · omega
      · simp [hsends]
    · rcases hsends with ⟨hsends, hmore⟩ | ⟨wrId, hsends, hmore⟩
      · refine h.client 0 0 ?_ ?_ (hdone hmore) hspent hcompleted ?_
          ⟨rfl, rfl, rfl, rfl, rfl⟩
        · rw [hsends]
          rfl
        · rw [hsends]
          rfl
        · simp [hsends]
      · refine h.client 1 0 ?_ ?_ (hdone hmore) hspent hcompleted ?_
          ⟨rfl, rfl, rfl, rfl, rfl⟩
        · rw [hsends]
          simp
        · rw [hsends]
          rfl
        · simp [hsends]
  · exact h.advance rfl (.inr (.inr (Nat.le_refl _)))

/-- A round of a benchmark that is running. -/
theorem Counted.benchmark (h : Counted t s) (hbenchmarks : benchmarks (s.left side) = true)
    (hexec : s.execute t hosts ibvModifyQp n side .benchmark = some s') : Counted t s' := by
  cases side with
  | daemon =>
      rw [← Option.some.inj hexec]
      exact h.receive n
  | client =>
      rw [← Option.some.inj hexec]
      exact h.send hbenchmarks n

/-- A command of the client, other than the benchmark, that posts a send or polls for one. -/
theorem Counted.sendCommand (h : Counted t s) (hidle : benchmarks (s.left .client) = false)
    {queue : SendQueue} (polled : Nat)
    (hposted : queue.posted.length = (t.sender.sends s.sender).posted.length + command.sends)
    (hpolled : queue.polled = (t.sender.sends s.sender).polled + polled)
    (hcompleted : (t.sender.sends s.sender).polled + polled ≤ s.completed) :
    Counted t { s.advance .client command with
      sender := t.sender.withSends s.sender queue
      inFlight := s.inFlight + command.sends } := by
  have hrunning : running t s = 0 := if_neg (by simp [hidle])
  have hweight := weight_advance_self Command.sends s .client command
  refine h.client command.sends polled ?_ ?_ ?_ ?_ hcompleted rfl ⟨rfl, rfl, rfl, rfl, rfl⟩
  · rw [t.sender.sends_withSends, hposted]
  · rw [t.sender.sends_withSends, hpolled]
  · rw [hrunning]
    exact Nat.le_add_right_of_le (Nat.le_of_eq hweight.symm)
  · rw [t.sender.spent_withSends]
    exact h.spent_le

/-- Every step of a host keeps to the bounds. -/
theorem Counted.execute (h : Counted t s) {rest : List Command}
    (hleft : s.left side = command :: rest)
    (hexec : s.execute t hosts ibvModifyQp n side command = some s') : Counted t s' := by
  have hidle (hcommand : command ≠ .benchmark) (hopen : command ≠ .closeSocket) :
      benchmarks (s.left side) = false := by
    by_contra hbenchmarks
    rw [hleft] at hbenchmarks
    rcases benchmarks_cons (by simpa using hbenchmarks) with heq | ⟨heq, -⟩
    · exact hcommand heq
    · exact hopen heq
  cases command with
  | sync =>
      rw [execute_sync] at hexec
      obtain ⟨-, heq⟩ := Option.ite_none_right_eq_some.mp hexec
      rw [← Option.some.inj heq]
      exact h.advance rfl (.inl (hidle nofun nofun))
  | modifyQpToRts =>
      obtain ⟨_, _, _, -, -, rfl⟩ := execute_modifyQpToRts hexec
      have hadvance : Counted t (s.advance side .modifyQpToRts) :=
        h.advance rfl (.inl (hidle nofun nofun))
      exact ⟨hadvance.recvs_ge, hadvance.recvs_le, hadvance.sends_le, hadvance.spent_le,
        hadvance.flow, hadvance.taken_le, hadvance.completed_le, hadvance.polled_le⟩
  | closeSocket =>
      -- the worker may be running, and goes on
      have hkept : benchmarks (s.left side) = false ∨ benchmarks (s.left side).tail = true ∨
          10 ≤ Command.closeSocket.sends := by
        by_cases hbenchmarks : benchmarks (s.left side) = true
        · rw [hleft] at hbenchmarks ⊢
          rcases benchmarks_cons hbenchmarks with heq | ⟨-, hhead⟩
          · cases heq
          · exact .inr (.inl (benchmarks_of_head hhead))
        · exact .inl (by simpa using hbenchmarks)
      have hadvance : Counted t (s.advance side .closeSocket) := h.advance rfl hkept
      cases side <;> (rw [← Option.some.inj hexec]
                      exact ⟨hadvance.recvs_ge, hadvance.recvs_le, hadvance.sends_le,
                        hadvance.spent_le, hadvance.flow, hadvance.taken_le,
                        hadvance.completed_le, hadvance.polled_le⟩)
  | postRecv wrId =>
      cases side with
      | daemon =>
          rw [← Option.some.inj hexec]
          have hweight := weight_advance_self Command.recvs s .daemon (.postRecv wrId)
          refine h.daemon 1 s.taken ?_ (Nat.le_of_eq hweight)
            (Nat.le_add_right_of_le (Nat.le_of_eq hweight.symm)) ⟨Nat.le_refl _, h.taken_le⟩ rfl
            ⟨rfl, rfl⟩ ⟨rfl, rfl, rfl, rfl⟩
          rw [t.receiver.recvs_withRecvs]
          simp [RecvQueue.postRecv]
      | client => cases hexec
  | postSend wrId =>
      cases side with
      | daemon => cases hexec
      | client =>
          rw [← Option.some.inj hexec]
          exact h.sendCommand (hidle nofun nofun) 0 (by simp [Command.sends]) rfl h.polled_le
  | waitCompletion =>
      cases side with
      | daemon =>
          obtain ⟨hlt, heq⟩ := Option.ite_none_right_eq_some.mp hexec
          rw [← Option.some.inj heq]
          have hweight := weight_advance_self Command.recvs s .daemon .waitCompletion
          exact h.daemon 0 (s.taken + 1) rfl (Nat.le_of_eq hweight)
            (Nat.le_add_right_of_le (Nat.le_of_eq hweight.symm)) ⟨Nat.le_succ _, hlt⟩ rfl
            ⟨rfl, rfl⟩ ⟨rfl, rfl, rfl, rfl⟩
      | client =>
          obtain ⟨hlt, heq⟩ := Option.ite_none_right_eq_some.mp hexec
          rw [← Option.some.inj heq]
          exact h.sendCommand (hidle nofun nofun) 1 rfl rfl hlt
  | benchmark => exact h.benchmark (benchmarks_of_head (by rw [hleft]; rfl)) hexec

/-! ### Safety -/

/-- The rounds of a running benchmark are within what its command may send. -/
theorem Counted.running_le (h : Counted t s) :
    running t s ≤ weightBefore Command.sends (s.left .client) 0 := by
  unfold running
  split
  · next hbenchmarks =>
    refine h.spent_le.trans ?_
    cases hleft : s.left .client with
    | nil => rw [hleft] at hbenchmarks; cases hbenchmarks
    | cons command rest =>
        rw [hleft] at hbenchmarks
        rcases benchmarks_cons hbenchmarks with rfl | ⟨rfl, hhead⟩
        · exact Nat.le_add_right 10 _
        · obtain ⟨more, rfl⟩ := List.head?_eq_some_iff.mp hhead
          simp [weightBefore, Command.sends]
  · exact Nat.zero_le _

/-- What the client has sent, a receive has been posted for, and before the first write the
queue pair of the server is connected. -/
theorem Counted.covered (h : Counted t s) (hsynced : Synced t hosts s) :
    (t.sender.sends s.sender).posted.length ≤ (t.receiver.recvs s.receiver).posted.length ∧
      (0 < (t.sender.sends s.sender).posted.length → .modifyQpToRts ∈ s.done .daemon) := by
  -- what is sent belongs to the commands before the next `sync` of the client
  have hsent : (t.sender.sends s.sender).posted.length ≤
      weightBefore Command.sends (t.script .client) (syncs (s.done .client)) := by
    have hle := h.sends_le
    have hscript : weight Command.sends (s.done .client) +
        weightBefore Command.sends (s.left .client) 0 =
          weightBefore Command.sends (t.script .client) (syncs (s.done .client)) := by
      rw [← hsynced.script .client]
      exact weight_add_le rfl
    have hrunning := h.running_le
    omega
  have hrecvs := h.recvs_ge
  have hscript (side : Side) (w : Command → Nat) (hmodify : w .modifyQpToRts = 0) (k : Nat) :
      weightBefore w (t.script side) (k + 1) = weightBefore w (t.rest side) k := by
    simp [Test.script, weightBefore, hmodify]
  rcases hsyncs : syncs (s.done .client) with _ | _ | k
  · rw [hsyncs] at hsent
    have hnone : weightBefore Command.sends (t.script .client) 0 = 0 := rfl
    omega
  · rw [hsyncs, hscript .client _ rfl] at hsent
    have hnone : weightBefore Command.sends (t.rest .client) 0 = 0 := t.quiet
    omega
  · rw [hsyncs, hscript .client _ rfl] at hsent
    have hcovered : weightBefore Command.sends (t.rest .client) (k + 1) ≤
        weightBefore Command.recvs (t.rest .daemon) k := t.covered k
    have hentered := hsynced.entered (w := Command.recvs) rfl (k := k + 1) (by omega)
      fun hclosed => (hsynced.of_closed hclosed).2
    rw [hscript .daemon _ rfl] at hentered
    refine ⟨by omega, fun _ => ?_⟩
    by_contra hmodify
    -- the server would still be before its second `sync`
    have hearly := hsynced.of_not_modify hmodify
    have hbefore := hsynced.entered (w := fun c => if c = .modifyQpToRts then 1 else 0) rfl
      (k := 1) (by omega) fun hclosed => by
        rcases hearly with hdone | ⟨hdone, -⟩ <;> simp [hdone] at hclosed
    rcases hearly with hdone | ⟨hdone, -⟩ <;>
      simp [hdone, Test.script, weightBefore] at hbefore

structure Safe (t : Test σ τ) (hosts : Hosts) (ibvModifyQp : ModifyQp) (s : State σ τ) : Prop where
  /-- No `CHECK` of `modify_qp_to_rts` or of its result fails. -/
  checks : ∀ side, (s.left side).head? = some .modifyQpToRts →
    ∃ s', s.connect t hosts ibvModifyQp side = some s'
  /-- Every write that has arrived has consumed a receive. -/
  refused : s.refused = 0
  /-- A receive is posted before the write that needs it. -/
  ahead : (t.sender.sends s.sender).posted.length ≤ (t.receiver.recvs s.receiver).posted.length
  /-- The server is connected before the first write is posted. -/
  established : 0 < (t.sender.sends s.sender).posted.length →
    Connected (hosts.info .client) 0 (s.qp .daemon)
  /-- Two connected queue pairs are connected to each other, with the same packet numbers. -/
  agree : (∀ side, .modifyQpToRts ∈ s.done side) →
    Agree (hosts.info .daemon) (hosts.info .client) (s.qp .daemon) (s.qp .client)
  recvQueue : (t.receiver.recvs s.receiver).posted.length ≤ s.arrived + kReceiveQueueDepth
  sendQueue : (t.sender.sends s.sender).posted.length ≤
    (t.sender.sends s.sender).polled + kSendQueueDepth
  recvCq : s.arrived ≤ s.taken + kCompletionQueueDepth
  sendCq : s.completed ≤ (t.sender.sends s.sender).polled + kCompletionQueueDepth

/-- The invariant of the two hosts. -/
structure Inv (t : Test σ τ) (hosts : Hosts) (s : State σ τ) : Prop where
  synced : Synced t hosts s
  linked : Linked hosts s
  counted : Counted t s
  refused : s.refused = 0

theorem Inv.initial (h : Initial t s) : Inv t hosts s where
  synced := .initial h
  linked := by
    refine ⟨fun side hmem => ?_, fun side _ => h.1 side⟩
    rw [h.2] at hmem
    cases hmem
  counted := .initial h
  refused := by
    rw [h.2]

/-- A write that arrives is taken. -/
theorem Inv.takes (h : Inv t hosts s) (hflight : 0 < s.inFlight) : s.Takes t := by
  obtain ⟨hcovered, hconnected⟩ := h.counted.covered h.synced
  have hflow := h.counted.flow
  exact ⟨(h.linked.connected .daemon (hconnected (by omega))).qpState, by omega⟩

theorem Inv.step (h : Inv t hosts s) (happlies : AppliesMask ibvModifyQp)
    (hconforms : Conforms t.qpType ibvModifyQp) {action : Action}
    (hguard : Delivers hosts s action)
    (hstep : WriteTest.step t hosts ibvModifyQp s action = some s') : Inv t hosts s' := by
  obtain ⟨hsynced, hlinked, hcounted, hrefused⟩ := id h
  have hrecvs := hcounted.recvs_le
  have hflow := hcounted.flow
  have htaken := hcounted.taken_le
  have hpolled := hcounted.polled_le
  have hcompleted := hcounted.completed_le
  cases action with
  | socket action =>
      obtain ⟨hmay, hmap⟩ := Option.ite_none_right_eq_some.mp hstep
      obtain ⟨conn, hsocket, rfl⟩ := Option.map_eq_some_iff.mp hmap
      exact ⟨hsynced.socket hmay hguard hsocket, hlinked.congr rfl rfl,
        ⟨hcounted.recvs_ge, hrecvs, hcounted.sends_le, hcounted.spent_le, hflow, htaken,
          hcompleted, hpolled⟩, hrefused⟩
  | run side n =>
      unfold WriteTest.step at hstep
      dsimp only at hstep
      split at hstep
      · cases hstep
      · next command rest hleft =>
        refine ⟨hsynced.moved hleft (execute_moved hstep),
          hlinked.execute hsynced happlies hconforms hleft hstep, hcounted.execute hleft hstep, ?_⟩
        rw [(execute_same hstep).2, hrefused]
  | visit side n =>
      obtain ⟨rest, hleft, hexecute, hsame⟩ := step_visit hstep
      obtain ⟨hconn, hdone, hleft'⟩ := visit_stays hleft hexecute hsame
      obtain ⟨hqp, hrefused'⟩ := execute_same hexecute
      refine ⟨hsynced.congr hconn hdone hleft', hlinked.congr hdone (hqp nofun), ?_,
        hrefused'.trans hrefused⟩
      exact hcounted.benchmark (by rw [hleft]; rfl) hexecute
  | deliver =>
      obtain ⟨hflight, hif⟩ := Option.ite_none_right_eq_some.mp hstep
      rw [if_pos (h.takes hflight)] at hif
      obtain rfl := Option.some.inj hif
      refine ⟨hsynced.congr rfl rfl rfl, hlinked.congr rfl rfl,
        ⟨hcounted.recvs_ge, hrecvs, hcounted.sends_le, hcounted.spent_le, ?_, ?_, hcompleted,
          hpolled⟩, hrefused⟩
      · change s.arrived + 1 + (s.inFlight - 1) ≤ (t.sender.sends s.sender).posted.length
        omega
      · exact htaken.trans (Nat.le_succ _)
  | lose =>
      obtain ⟨hflight, hsome⟩ := Option.ite_none_right_eq_some.mp hstep
      obtain rfl := Option.some.inj hsome
      refine ⟨hsynced.congr rfl rfl rfl, hlinked.congr rfl rfl,
        ⟨hcounted.recvs_ge, hrecvs, hcounted.sends_le, hcounted.spent_le, ?_, htaken, hcompleted,
          hpolled⟩, hrefused⟩
      change s.arrived + (s.inFlight - 1) ≤ (t.sender.sends s.sender).posted.length
      omega
  | complete =>
      obtain ⟨hlt, hsome⟩ := Option.ite_none_right_eq_some.mp hstep
      obtain rfl := Option.some.inj hsome
      exact ⟨hsynced.congr rfl rfl rfl, hlinked.congr rfl rfl,
        ⟨hcounted.recvs_ge, hrecvs, hcounted.sends_le, hcounted.spent_le, hflow, htaken, hlt,
          hpolled.trans (Nat.le_succ _)⟩, hrefused⟩

theorem Inv.connects (h : Inv t hosts s) (happlies : AppliesMask ibvModifyQp)
    (hconforms : Conforms t.qpType ibvModifyQp)
    (hhead : (s.left side).head? = some .modifyQpToRts) :
    ∃ s', s.connect t hosts ibvModifyQp side = some s' := by
  obtain ⟨rest, hleft⟩ := List.head?_eq_some_iff.mp hhead
  have hindex := ((h.synced.positioned side).between (by rw [hleft]; simp)).2
  rw [h.synced.done_of_modify hleft] at hindex
  have hreturned : 0 < (s.conn.endpoint side).returned.length := by
    rw [show (s.conn.endpoint side).returned.length = _ from hindex]
    decide
  have hsome : ∃ info, s.neighborQpInfo hosts side = some info := by
    rw [State.neighborQpInfo, List.getElem?_eq_getElem hreturned]
    exact ⟨_, rfl⟩
  obtain ⟨info, hinfo⟩ := hsome
  obtain ⟨qp', hmodify⟩ := h.linked.modify h.synced happlies hconforms hleft
  rw [← h.synced.neighbor hleft hinfo] at hmodify
  unfold State.connect
  simp only [hinfo, hmodify, Int.le_refl, if_true]
  exact ⟨_, rfl⟩

theorem Inv.safe (h : Inv t hosts s) (happlies : AppliesMask ibvModifyQp)
    (hconforms : Conforms t.qpType ibvModifyQp) : Safe t hosts ibvModifyQp s := by
  have hconnects {side : Side} (hhead : (s.left side).head? = some .modifyQpToRts) :
      ∃ s', s.connect t hosts ibvModifyQp side = some s' :=
    h.connects happlies hconforms hhead
  obtain ⟨hsynced, ⟨hlinked, -⟩, hcounted, hrefused⟩ := h
  obtain ⟨hcovered, hconnected⟩ := hcounted.covered hsynced
  have hrecvs : weight Command.recvs (s.done .daemon) ≤ kReceiveQueueDepth := by
    have hscript := congrArg (weight Command.recvs) (hsynced.script .daemon)
    have hle := t.recvs_le
    simp only [weight_append, Test.script, Test.rest, weight_cons, Command.recvs] at hscript
    omega
  have hsends : (t.sender.sends s.sender).posted.length ≤ kSendQueueDepth := by
    have hscript := congrArg (weight Command.sends) (hsynced.script .client)
    have hle := t.sends_le
    have hposted := hcounted.sends_le
    have hrunning := hcounted.running_le.trans (weightBefore_le ..)
    simp only [weight_append, Test.script, Test.rest, weight_cons, Command.sends] at hscript
    omega
  have hqueue : kSendQueueDepth ≤ kCompletionQueueDepth := by decide
  have hposted := hcounted.recvs_le
  have hflow := hcounted.flow
  have htaken := hcounted.taken_le
  have hcompleted := hcounted.completed_le
  exact
    { checks := fun side hhead => hconnects hhead
      refused := hrefused
      ahead := hcovered
      established := fun hpos => hlinked .daemon (hconnected hpos)
      agree := fun hall =>
        { psn_a := by rw [(hlinked _ (hall _)).rqPsn, (hlinked _ (hall _)).sqPsn]
          psn_b := by rw [(hlinked _ (hall _)).rqPsn, (hlinked _ (hall _)).sqPsn]
          destQpNum_a := (hlinked _ (hall .daemon)).destQpNum
          destQpNum_b := (hlinked _ (hall .client)).destQpNum
          dgid_a := (hlinked _ (hall .daemon)).dgid
          dgid_b := (hlinked _ (hall .client)).dgid }
      recvQueue := by omega
      sendQueue := by omega
      recvCq := by omega
      sendCq := by omega }

/-- When `ibv_modify_qp` works as documented and each call on the socket transfers its whole
buffer or meets the end of the stream, every state that two hosts reach is safe, in every
order of steps and with any writes lost. -/
theorem Test.safe (happlies : AppliesMask ibvModifyQp) (hconforms : Conforms t.qpType ibvModifyQp)
    (hreach : (machine t hosts ibvModifyQp).Reachable (Delivers hosts) s) :
    Safe t hosts ibvModifyQp s := by
  have hinv : Inv t hosts s := by
    refine hreach.invariant (Inv t hosts) ?_ ?_
    · intro s hinit
      exact .initial hinit
    · intro s action s' h hguard hstep
      exact h.step happlies hconforms hguard hstep
  exact hinv.safe happlies hconforms

end WriteTest
end FlashReduce
