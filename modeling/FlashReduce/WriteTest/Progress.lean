import FlashReduce.WriteTest.Tally

/-!
# What a host waits for

A host that is not at the end of its script can take its next step unless it waits: for the
peer's bytes in a call on the socket, or for a completion.

* `Drained` completes what is known of a closed socket: the client has read everything, so
  that its next `recv` meets the end of the stream.
* `Settled` are the steps of a run in which nothing is lost.
* `State.work` is a measure, and a state `Advances` when such a step lowers it.
* `Synced.advances_busy` is the socket: a call that cannot go on waits for a peer that has not
  sent.
-/

namespace FlashReduce
namespace WriteTest

open Library Controller Rdma Benchmark Socket

variable {σ τ : Type} {t : Test σ τ} {hosts : Hosts} {ibvModifyQp : ModifyQp}
  {s s' : State σ τ} {side : Side} {command : Command} {n : Nat}

/-! ### Closed sockets -/

/-- The bytes up to a message are available when more messages were sent than read. -/
theorem available_length {f : Nat → List UInt8} {stream : ByteStream UInt8} {k m : Nat}
    (hwritten : stream.written = messages f m) (hread : stream.read = offset f k) (hlt : k < m) :
    (f k).length ≤ stream.available.length := by
  have hle : offset f (k + 1) ≤ offset f m := offset_le hlt
  rw [offset_succ] at hle
  rw [ByteStream.available, List.length_drop, hwritten, hread]
  exact Nat.le_sub_of_add_le' hle

theorem available_nil {f : Nat → List UInt8} {stream : ByteStream UInt8} {k m : Nat}
    (hwritten : stream.written = messages f m) (hread : stream.read = offset f k) (hle : m ≤ k) :
    stream.available = [] := by
  rw [ByteStream.available, List.drop_eq_nil_iff, hwritten, hread]
  exact offset_le hle

theorem skip_available {stream : ByteStream UInt8} (hempty : stream.available = []) (n : Nat) :
    (stream.skip n).available = [] := by
  rw [ByteStream.available, List.drop_eq_nil_iff] at hempty ⊢
  change stream.written.length ≤ min (stream.read + n) stream.written.length
  omega

/-- The socket of the server is closed once it has been, and then the client has read
everything. -/
structure Drained (s : State σ τ) : Prop where
  closed : .closeSocket ∈ s.done .daemon → (s.conn.endpoint .daemon).closed = true
  empty : (s.conn.endpoint .daemon).closed = true → (s.conn.stream .daemon).available = []

theorem Drained.initial (h : Initial t s) : Drained s := by
  rw [h.2]
  exact ⟨nofun, nofun⟩

/-- A host that is at a `sync` has its socket open. -/
theorem Synced.open_of_sync (h : Synced t hosts s) (hhead : (s.left side).head? = some .sync) :
    (s.conn.endpoint side).closed = false := by
  by_contra hclosed
  have hclose : .closeSocket ∈ s.done side := by
    cases side with
    | daemon => exact (h.daemon_closed (by simpa using hclosed)).1
    | client => exact h.client_closed (by simpa using hclosed)
  obtain ⟨rest, hleft⟩ := List.head?_eq_some_iff.mp hhead
  have hsyncs := congrArg syncs (h.script side)
  have hall := (h.of_closed hclose).1
  rw [syncs_append, hleft, syncs_cons, if_pos rfl] at hsyncs
  omega

/-- When the server closes its socket, the client has read everything. -/
theorem Synced.drained_of_close (h : Synced t hosts s) {rest : List Command}
    (hleft : s.left .daemon = .closeSocket :: rest)
    (hopen : (s.conn.endpoint .daemon).closed = false) :
    (s.conn.stream .daemon).available = [] := by
  obtain ⟨hinv, hhealthy⟩ := h.daemon_open hopen
  -- the last call has returned, so the client has sent its message and read the server's
  have hidle := ((h.positioned .daemon).between (by rw [hleft]; simp)).1
  have horder := (hinv.order (plan_nonempty hosts) hhealthy).1
  obtain ⟨m, hwritten, hm⟩ := (hinv .daemon).sent
  obtain rfl := hm (hhealthy .daemon)
  refine available_nil hwritten ((hinv .client).read (hhealthy .client)) ?_
  have hsent : done .daemon .send (s.conn.endpoint .daemon) = (s.conn.endpoint .daemon).index := by
    rw [done, hidle, if_neg (by simp)]
  rw [hsent]
  exact horder.trans (index_le_done ..)

theorem Drained.socket (h : Drained s) (hsynced : Synced t hosts s) {action : Socket.Action}
    {c' : Connection} (hmay : s.MayAct action) (hguard : Delivers hosts s (.socket action))
    (hmove : Move hosts.plan s.conn action c') : Drained { s with conn := c' } := by
  obtain ⟨side, e', hendpoint, hclosed, -, -, -⟩ := hsynced.acted hmay hguard hmove
  have hsame : (c'.endpoint .daemon).closed = (s.conn.endpoint .daemon).closed := by
    rw [hendpoint]
    rcases eq_or_ne .daemon side with rfl | hne
    · rw [Function.update_self]
      exact hclosed
    · rw [Function.update_of_ne hne]
  have hbusy (hphase : (s.conn.endpoint .daemon).phase ≠ .idle) :
      (s.conn.endpoint .daemon).closed = false :=
    hsynced.open_of_sync ((hsynced.positioned .daemon).busy hphase).2.2
  refine ⟨fun hmem => hsame.trans (h.closed hmem), fun hdaemon => ?_⟩
  have hbefore : (s.conn.endpoint .daemon).closed = true := hsame.symm.trans hdaemon
  have hempty := h.empty hbefore
  cases hmove with
  | call hidle => exact hempty
  | @send sender n hsyscall hresult =>
      cases sender with
      | daemon =>
          -- a closed socket sends nothing
          rw [hbusy (busy_of_syscall hsyscall)] at hbefore
          cases hbefore
      | client => exact hempty
  | @recv receiver n hsyscall hresult =>
      cases receiver with
      | daemon => exact hempty
      | client => exact skip_available hempty n
  | sendFail => cases hguard
  | recvFail => rcases hguard with hsize | hend <;> contradiction
  | close => exact absurd hmay id

theorem Drained.moved (h : Drained s) (hsynced : Synced t hosts s) {rest : List Command}
    (hleft : s.left side = command :: rest) (hmoved : Moved s side command s') : Drained s' := by
  have hmem := fun hmem : .closeSocket ∈ s'.done .daemon => hmoved.mem hmem
  cases hmoved with
  | stays _ hconn hdone hleft' =>
      refine ⟨fun hclose => ?_, ?_⟩
      · rw [hconn]
        exact h.closed (hdone ▸ hclose)
      · rw [hconn]
        exact h.empty
  | advances _ _ hconn hdone hleft' hopen hsync =>
      refine ⟨fun hclose => ?_, ?_⟩
      · rw [hconn]
        rcases hmem hclose with hold | ⟨-, heq⟩
        · exact h.closed hold
        · exact absurd heq.symm hopen
      · rw [hconn]
        exact h.empty
  | closes _ hconn hdone hleft' =>
      cases side with
      | daemon =>
          refine ⟨fun _ => ?_, fun _ => ?_⟩
          · rw [hconn]
            simp [Connection.setEndpoint]
          · rw [hconn]
            by_cases hclosed : (s.conn.endpoint .daemon).closed = true
            · exact h.empty hclosed
            · exact hsynced.drained_of_close hleft (by simpa using hclosed)
      | client =>
          refine ⟨fun hclose => ?_, ?_⟩
          · rw [hconn]
            rcases hmem hclose with hold | ⟨hside, -⟩
            · exact h.closed hold
            · cases hside
          · rw [hconn]
            exact h.empty

theorem Drained.step (h : Drained s) (hsynced : Synced t hosts s) {action : Action}
    (hguard : Delivers hosts s action)
    (hstep : WriteTest.step t hosts ibvModifyQp s action = some s') : Drained s' := by
  cases step_stepped hstep with
  | socket action conn hmay hsocket => exact h.socket hsynced hmay hguard (step_move hsocket)
  | run side n command rest _ hleft hexecute =>
      exact h.moved hsynced hleft (execute_moved hexecute)
  | visit side n rest _ hleft hexecute hstays =>
      obtain ⟨hconn, hdone, -⟩ := hstays
      refine ⟨fun hclose => ?_, ?_⟩
      · rw [hconn]
        exact h.closed (hdone ▸ hclose)
      · rw [hconn]
        exact h.empty
  | arrive | refuse | lose | complete => exact ⟨h.closed, h.empty⟩

/-! ### Steps that lose nothing -/

/-- A step that loses no write, in which a send completes only after its write has arrived
and the server polls for one completion. -/
def Settled (hosts : Hosts) (s : State σ τ) : Action → Prop
  | .socket action => Delivers hosts s (.socket action)
  | .run .daemon n | .visit .daemon n => n ≤ 1
  | .run .client _ | .visit .client _ => True
  | .deliver => True
  | .lose => False
  | .complete => s.completed < s.arrived

theorem Settled.delivers {action : Action} (h : Settled hosts s action) :
    Delivers hosts s action := by
  cases action with
  | socket action => exact h
  | run side n => trivial
  | visit side n => trivial
  | deliver => trivial
  | lose => trivial
  | complete => trivial

theorem Settled.lost {action : Action} (h : Settled hosts s action) : action.lost = 0 := by
  cases action with
  | lose => exact absurd h id
  | _ => rfl

theorem Settled.asks {action : Action} (h : Settled hosts s action) : action.asks ≤ 1 := by
  cases action with
  | run side n | visit side n =>
      cases side with
      | daemon => exact h
      | client => exact Nat.zero_le _
  | _ => exact Nat.zero_le _

/-! ### The measure -/

def phaseRank : Socket.Phase → Nat
  | .idle => 0
  | .first => 1
  | .second => 2

/-- The steps that an endpoint has made. -/
def steps (e : Endpoint) : Nat := 3 * e.index + phaseRank e.phase

theorem steps_enter {e : Endpoint} (hidle : e.phase = .idle) (call : Call) :
    steps e < steps (e.enter call) := by
  have hindex : (e.enter call).index = e.index := rfl
  rw [steps, steps, hidle, hindex]
  exact Nat.lt_succ_self _

theorem steps_proceed (e : Endpoint) (rc : Int) : steps e < steps (e.proceed rc) := by
  have hfinish (rc : Int) : steps e < steps (e.finish rc) := by
    have hindex : (e.finish rc).index = e.index + 1 := by
      simp [Endpoint.finish, Endpoint.index]
    have hidle : (e.finish rc).phase = .idle := rfl
    have hle : phaseRank e.phase ≤ 2 := by cases e.phase <;> decide
    rw [steps, steps, hindex, hidle]
    change _ < 3 * (e.index + 1) + 0
    omega
  unfold Endpoint.proceed
  split
  · exact hfinish rc
  · split
    · next hfirst =>
      rw [steps, steps, hfirst]
      exact Nat.lt_succ_self _
    · exact hfinish 0

/-- The calls that a host has not finished. -/
def State.calls (t : Test σ τ) (s : State σ τ) (side : Side) : Nat :=
  3 * syncs (t.script side) - steps (s.conn.endpoint side)

/-- What is left to do. -/
def State.work (sending : t.sender.Steady) (receiving : t.receiver.Steady) (s : State σ τ) :
    Nat :=
  s.calls t .daemon + s.calls t .client + 3 * ((s.left .daemon).length + (s.left .client).length) +
    3 * sending.rank s.sender + receiving.rank s.receiver + s.inFlight +
    ((t.sender.sends s.sender).posted.length - s.completed)

variable {sending : t.sender.Steady} {receiving : t.receiver.Steady}

/-- Some step that loses nothing brings the test forward. -/
def Advances (hosts : Hosts) (ibvModifyQp : ModifyQp) (sending : t.sender.Steady)
    (receiving : t.receiver.Steady) (s : State σ τ) : Prop :=
  ∃ action s', (machine t hosts ibvModifyQp).Allowed (Settled hosts) s (s, action) s' ∧
    s'.work sending receiving < s.work sending receiving

/-- A step on the socket makes a step of a call that is not finished. -/
theorem Synced.calls_lt (h : Synced t hosts s) {action : Socket.Action} {c' : Connection}
    (hmay : s.MayAct action) (hguard : Delivers hosts s (.socket action))
    (hmove : Move hosts.plan s.conn action c') :
    ∃ side e', c'.endpoint = Function.update s.conn.endpoint side e' ∧
      steps (s.conn.endpoint side) < steps e' ∧
      steps (s.conn.endpoint side) < 3 * syncs (t.script side) := by
  have hmore (side : Side) (hhead : (s.left side).head? = some .sync) :
      syncs (s.done side) < syncs (t.script side) := by
    obtain ⟨rest, hleft⟩ := List.head?_eq_some_iff.mp hhead
    have hsyncs := congrArg syncs (h.script side)
    rw [syncs_append, hleft, syncs_cons, if_pos rfl] at hsyncs
    omega
  have hbusy (side : Side) (hphase : (s.conn.endpoint side).phase ≠ .idle) :
      steps (s.conn.endpoint side) < 3 * syncs (t.script side) := by
    obtain ⟨hindex, -, hhead⟩ := (h.positioned side).busy hphase
    have hlt := hmore side hhead
    have hle : phaseRank (s.conn.endpoint side).phase ≤ 2 := by
      cases (s.conn.endpoint side).phase <;> decide
    rw [steps, hindex]
    omega
  cases hmove with
  | @call side hidle =>
      obtain ⟨hhead, hindex⟩ := hmay
      refine ⟨side, _, rfl, steps_enter hidle _, ?_⟩
      rw [steps, hidle, hindex]
      change 3 * _ + 0 < _
      have hlt := hmore side hhead
      omega
  | @send side n hsyscall hresult =>
      exact ⟨side, _, rfl, steps_proceed _ _, hbusy side (busy_of_syscall hsyscall)⟩
  | @recv side n hsyscall hresult =>
      exact ⟨side, _, rfl, steps_proceed ((s.conn.endpoint side).receive _ _) _,
        hbusy side (busy_of_syscall hsyscall)⟩
  | sendFail => cases hguard
  | recvFail => rcases hguard with hsize | hend <;> contradiction
  | close => exact absurd hmay id

theorem Advances.socket (h : Synced t hosts s) (action : Socket.Action) {c' : Connection}
    (hmay : s.MayAct action) (hguard : Delivers hosts s (.socket action))
    (hstep : Socket.step hosts.plan s.conn action = some c') :
    Advances hosts ibvModifyQp sending receiving s := by
  refine ⟨.socket action, { s with conn := c' }, ⟨rfl, hguard, ?_⟩, ?_⟩
  · change (if s.MayAct action then _ else _) = _
    rw [if_pos hmay, hstep]
    rfl
  · obtain ⟨side, e', hendpoint, hsteps, hlt⟩ := h.calls_lt hmay hguard (step_move hstep)
    have hother (other : Side) (hne : other ≠ side) :
        ({ s with conn := c' } : State σ τ).calls t other = s.calls t other := by
      unfold State.calls
      dsimp only
      rw [hendpoint, Function.update_of_ne hne]
    have hself : ({ s with conn := c' } : State σ τ).calls t side < s.calls t side := by
      unfold State.calls
      dsimp only
      rw [hendpoint, Function.update_self]
      omega
    unfold State.work
    dsimp only
    cases side with
    | daemon =>
        rw [hother .client nofun]
        omega
    | client =>
        rw [hother .daemon nofun]
        omega

/-! ### Calls on the socket -/

/-- A host is in a call and its peer has not sent what it is going to receive. -/
structure Waits (s : State σ τ) (side : Side) : Prop where
  syscall : side.syscall (s.conn.endpoint side).phase = some .recv
  unsent : done side.peer .send (s.conn.endpoint side.peer) ≤ (s.conn.endpoint side).index
  isOpen : (s.conn.endpoint .daemon).closed = false

theorem done_recv {e : Endpoint} (hsyscall : side.syscall e.phase = some .recv) :
    done side .recv e = e.index := by
  cases side <;> cases hphase : e.phase <;> simp_all [done, Side.syscall]

/-- What the peer has sent can be received. -/
theorem Synced.received (h : Synced t hosts s)
    (hopen : (s.conn.endpoint .daemon).closed = false)
    (hsyscall : side.syscall (s.conn.endpoint side).phase = some .recv)
    (hsent : (s.conn.endpoint side).index < done side.peer .send (s.conn.endpoint side.peer)) :
    (hosts.plan side (s.conn.endpoint side).index).size ≤
      (s.conn.stream side.peer).available.length := by
  obtain ⟨hinv, hhealthy⟩ := h.daemon_open hopen
  have hread := (hinv side).read (hhealthy side)
  rw [done_recv hsyscall] at hread
  obtain ⟨m, hwritten, hm⟩ := (hinv side.peer).sent
  obtain rfl := hm (hhealthy side.peer)
  rw [← (plan_matching hosts).peer side]
  exact available_length hwritten hread hsent

theorem step_send {c : Connection} {plan : Side → Nat → Call}
    (hsyscall : side.syscall (c.endpoint side).phase = some .send)
    (hopen : (c.endpoint side).closed = false)
    (hresult : SendResult (plan side (c.endpoint side).index).size n) :
    ∃ c', Socket.step plan c (.send side (some n)) = some c' := by
  unfold Socket.step
  dsimp only
  rw [if_pos ⟨hsyscall, hopen⟩, if_pos hresult]
  exact ⟨_, rfl⟩

theorem step_recv {c : Connection} {plan : Side → Nat → Call}
    (hsyscall : side.syscall (c.endpoint side).phase = some .recv)
    (hopen : (c.endpoint side).closed = false)
    (hresult : RecvResult (plan side (c.endpoint side).index).size
      (c.stream side.peer).available (c.endpoint side.peer).closed n) :
    ∃ c', Socket.step plan c (.recv side (some n)) = some c' := by
  unfold Socket.step
  dsimp only
  rw [if_pos ⟨hsyscall, hopen⟩, if_pos hresult]
  exact ⟨_, rfl⟩

/-- A host in a call makes the next system call or waits for its peer. -/
theorem Synced.advances_busy (h : Synced t hosts s) (hdrained : Drained s)
    (hopen : (s.conn.endpoint side).closed = false)
    (hbusy : (s.conn.endpoint side).phase ≠ .idle) :
    Advances hosts ibvModifyQp sending receiving s ∨ Waits s side := by
  have hpos := (plan_size hosts side (s.conn.endpoint side).index).1
  have hcall : side.syscall (s.conn.endpoint side).phase = some .send ∨
      side.syscall (s.conn.endpoint side).phase = some .recv := by
    cases side <;> cases hphase : (s.conn.endpoint _).phase <;> simp_all [Side.syscall]
  rcases hcall with hsyscall | hsyscall
  · have hresult : SendResult (hosts.plan side (s.conn.endpoint side).index).size
        (hosts.plan side (s.conn.endpoint side).index).size := ⟨Nat.le_refl _, id⟩
    obtain ⟨c', hstep⟩ := step_send hsyscall hopen hresult
    exact .inl (.socket h (.send side _) trivial rfl hstep)
  · by_cases hdaemon : (s.conn.endpoint .daemon).closed = true
    · -- the end of the stream
      cases side with
      | daemon =>
          rw [hopen] at hdaemon
          cases hdaemon
      | client =>
          obtain ⟨c', hstep⟩ := step_recv (n := 0) hsyscall hopen
            ⟨Nat.zero_le _, Nat.zero_le _, fun _ => .inr ⟨hdrained.empty hdaemon, hdaemon⟩⟩
          exact .inl (.socket h (.recv .client _) trivial (.inr rfl) hstep)
    · have hdaemon : (s.conn.endpoint .daemon).closed = false := by simpa using hdaemon
      rcases Nat.lt_or_ge (s.conn.endpoint side).index
        (done side.peer .send (s.conn.endpoint side.peer)) with hsent | hunsent
      · obtain ⟨c', hstep⟩ := step_recv hsyscall hopen
          ⟨Nat.le_refl _, h.received hdaemon hsyscall hsent, fun hzero => by omega⟩
        exact .inl (.socket h (.recv side _) trivial (.inl rfl) hstep)
      · exact .inr ⟨hsyscall, hunsent, hdaemon⟩

/-! ### Commands -/

@[simp] theorem advance_sender : (s.advance side command).sender = s.sender := rfl

@[simp] theorem advance_receiver : (s.advance side command).receiver = s.receiver := rfl

@[simp] theorem advance_inFlight : (s.advance side command).inFlight = s.inFlight := rfl

@[simp] theorem advance_completed : (s.advance side command).completed = s.completed := rfl

theorem advance_lengths (hleft : s.left side ≠ []) (command : Command) :
    ((s.advance side command).left .daemon).length +
        ((s.advance side command).left .client).length + 1 =
      (s.left .daemon).length + (s.left .client).length := by
  have hpos := List.length_pos_iff.mpr hleft
  cases side with
  | daemon =>
      have hpeer : (s.advance .daemon command).left .client = s.left .client := rfl
      rw [advance_left, hpeer, List.length_tail]
      omega
  | client =>
      have hpeer : (s.advance .client command).left .daemon = s.left .daemon := rfl
      rw [advance_left, hpeer, List.length_tail]
      omega

theorem Moved.steps_eq (h : Moved s side command s') (other : Side) :
    steps (s'.conn.endpoint other) = steps (s.conn.endpoint other) := by
  cases h with
  | stays _ hconn hdone hleft => rw [hconn]
  | advances _ _ hconn hdone hleft hopen hsync => rw [hconn]
  | closes _ hconn hdone hleft =>
      rw [hconn]
      change steps (Function.update s.conn.endpoint side _ other) = _
      rcases eq_or_ne other side with rfl | hne
      · rw [Function.update_self]
        rfl
      · rw [Function.update_of_ne hne]

/-- A step of a host is less work, when the server's benchmark does not poll in vain. -/
theorem Executed.work_lt (hexecuted : Executed t s n side command s')
    (hmoved : Moved s side command s') (htallied : Tallied sending receiving s)
    (hleft : s.left side ≠ [])
    (hpoll : side = .daemon → command = .benchmark → ∀ receiver,
      t.receiver.round s.receiver (s.poll t n) = some receiver →
        t.receiver.polls s.receiver = true → 0 < receiving.gain (s.poll t n)) :
    s'.work sending receiving < s.work sending receiving := by
  -- no step of a host changes how far its call on the socket is
  have hcalls (other : Side) : s'.calls t other = s.calls t other := by
    rw [State.calls, State.calls, hmoved.steps_eq]
  unfold State.work
  rw [hcalls .daemon, hcalls .client]
  have hlengths := advance_lengths hleft command
  cases hexecuted with
  | quiet side command conn qp hposts hwaits hne =>
      simp only [advance_sender, advance_receiver, advance_inFlight, advance_completed]
      omega
  | postRecv wrId =>
      simp only [advance_sender, advance_inFlight, advance_completed, receiving.rank_withRecvs]
      omega
  | taken harrived =>
      simp only [advance_sender, advance_receiver, advance_inFlight, advance_completed]
      omega
  | postSend wrId =>
      simp only [advance_receiver, advance_completed, sending.rank_withSends,
        t.sender.sends_withSends, postSend_posted]
      omega
  | polled hcompleted =>
      simp only [advance_receiver, advance_inFlight, advance_completed, sending.rank_withSends,
        t.sender.sends_withSends, pollCq_posted]
      omega
  | receive =>
      rcases receive_cases t s n with ⟨receiver, hround, heq⟩ | ⟨-, heq⟩
      · have hrank := receiving.round_rank _ _ _ htallied.polled.good hround
          (hpoll rfl rfl _ hround)
        rw [heq]
        dsimp only
        omega
      · rw [heq]
        simp only [advance_sender, advance_receiver, advance_inFlight, advance_completed]
        omega
  | send =>
      obtain ⟨k, ⟨sender, hround, heq⟩ | ⟨-, heq⟩⟩ := send_cases t s n
      · have hcredited := htallied.posted.credited
        have hrank := sending.round_rank _ _ _ hcredited hround
        obtain ⟨-, hle, hle'⟩ := sending.round_sends hcredited hround
        rw [heq]
        dsimp only
        omega
      · rw [heq]
        simp only [advance_sender, advance_receiver, advance_inFlight, advance_completed]
        omega

end WriteTest
end FlashReduce
