import FlashReduce.WriteTest.System

/-!
# What the socket orders

A host is at a `sync` of its script exactly while it is in the call of that number on the
socket, so the order of the calls is an order of the scripts.

* `Moved` is what a step of a host does to its script and to the socket.
* `Synced` is the invariant.  While the server's socket is open, `ConnectionInv` holds with
  no failed call; it is closed only after the client has returned from every call that the
  server makes, and a client that is still in a call then meets the end of the stream.
* `Synced.entered` is the result: what the server does before a `sync` is done when the
  client has left its own `sync` of that number.
-/

namespace FlashReduce
namespace WriteTest

open Library Controller Rdma Benchmark Socket

variable {σ τ : Type} {t : Test σ τ} {hosts : Hosts} {ibvModifyQp : ModifyQp}
  {s : State σ τ} {side : Side} {command : Command} {n : Nat}

/-! ### Steps of a host -/

@[simp] theorem advance_done : (s.advance side command).done side = s.done side ++ [command] :=
  Function.update_self ..

@[simp] theorem advance_conn : (s.advance side command).conn = s.conn := rfl

@[simp] theorem advance_left : (s.advance side command).left side = (s.left side).tail :=
  Function.update_self ..

theorem advance_peer {other : Side} (hne : other ≠ side) :
    (s.advance side command).done other = s.done other ∧
      (s.advance side command).left other = s.left other :=
  ⟨Function.update_of_ne hne .., Function.update_of_ne hne ..⟩

/-- What a step of a host does to the scripts and the socket. -/
inductive Moved (s : State σ τ) (side : Side) : Command → State σ τ → Prop
  | stays (s' : State σ τ) (hconn : s'.conn = s.conn) (hdone : s'.done = s.done)
      (hleft : s'.left = s.left) : Moved s side .benchmark s'
  | advances (s' : State σ τ) (command : Command) (hconn : s'.conn = s.conn)
      (hdone : s'.done = (s.advance side command).done)
      (hleft : s'.left = (s.advance side command).left) (hopen : command ≠ .closeSocket)
      (hsync : command = .sync → syncs (s.done side) < (s.conn.endpoint side).index) :
      Moved s side command s'
  | closes (s' : State σ τ)
      (hconn : s'.conn = s.conn.setEndpoint side { s.conn.endpoint side with closed := true })
      (hdone : s'.done = (s.advance side .closeSocket).done)
      (hleft : s'.left = (s.advance side .closeSocket).left) : Moved s side .closeSocket s'

variable {s' : State σ τ}

theorem execute_sync : s.execute t hosts ibvModifyQp n side .sync =
    if syncs (s.done side) < (s.conn.endpoint side).index then some (s.advance side .sync)
    else none := by
  cases side <;> rfl

theorem execute_modifyQpToRts
    (h : s.execute t hosts ibvModifyQp n side .modifyQpToRts = some s') :
    ∃ neighborQpInfo ret qp, s.neighborQpInfo hosts side = some neighborQpInfo ∧
      modifyQpToRts ibvModifyQp (s.qp side) neighborQpInfo t.mtu t.reliable = some (ret, qp) ∧
      s' = { s.advance side .modifyQpToRts with qp := Function.update s.qp side qp } := by
  have hconnect : s.execute t hosts ibvModifyQp n side .modifyQpToRts =
      s.connect t hosts ibvModifyQp side := by
    cases side <;> rfl
  rw [hconnect, State.connect] at h
  split at h
  · cases h
  · next neighborQpInfo hneighbor =>
    split at h
    · cases h
    · next ret qp hmodify =>
      split at h
      · exact ⟨neighborQpInfo, ret, qp, hneighbor, hmodify, (Option.some.inj h).symm⟩
      · cases h

theorem execute_moved (h : s.execute t hosts ibvModifyQp n side command = some s') :
    Moved s side command s' := by
  cases command with
  | sync =>
      rw [execute_sync] at h
      split at h
      · next hreturned =>
        obtain rfl := Option.some.inj h
        exact .advances _ _ rfl rfl rfl nofun fun _ => hreturned
      · cases h
  | modifyQpToRts =>
      obtain ⟨_, _, _, -, -, rfl⟩ := execute_modifyQpToRts h
      exact .advances _ _ rfl rfl rfl nofun nofun
  | postRecv wrId =>
      cases side with
      | daemon =>
          obtain rfl := Option.some.inj h
          exact .advances _ _ rfl rfl rfl nofun nofun
      | client => cases h
  | postSend wrId =>
      cases side with
      | daemon => cases h
      | client =>
          obtain rfl := Option.some.inj h
          exact .advances _ _ rfl rfl rfl nofun nofun
  | waitCompletion =>
      cases side with
      | daemon =>
          obtain ⟨-, heq⟩ := Option.ite_none_right_eq_some.mp h
          obtain rfl := Option.some.inj heq
          exact .advances _ _ rfl rfl rfl nofun nofun
      | client =>
          obtain ⟨-, heq⟩ := Option.ite_none_right_eq_some.mp h
          obtain rfl := Option.some.inj heq
          exact .advances _ _ rfl rfl rfl nofun nofun
  | benchmark =>
      cases side with
      | daemon =>
          obtain rfl := Option.some.inj h
          unfold State.receive
          dsimp only
          split
          · exact .stays _ rfl rfl rfl
          · exact .advances _ _ rfl rfl rfl nofun nofun
      | client =>
          obtain rfl := Option.some.inj h
          unfold State.send
          dsimp only
          split
          · exact .stays _ rfl rfl rfl
          · exact .advances _ _ rfl rfl rfl nofun nofun
  | closeSocket =>
      cases side with
      | daemon =>
          obtain rfl := Option.some.inj h
          exact .closes _ rfl rfl rfl
      | client =>
          obtain rfl := Option.some.inj h
          exact .closes _ rfl rfl rfl

theorem step_visit
    (hstep : WriteTest.step t hosts ibvModifyQp s (.visit side n) = some s') :
    ∃ rest, s.left side = .closeSocket :: .benchmark :: rest ∧
      s.execute t hosts ibvModifyQp n side .benchmark = some s' ∧ s'.left side = s.left side := by
  unfold WriteTest.step at hstep
  dsimp only at hstep
  split at hstep
  · next rest hleft =>
    obtain ⟨hexecute, hsame⟩ := Option.filter_eq_some_iff.mp hstep
    exact ⟨rest, hleft, hexecute, of_decide_eq_true hsame⟩
  · cases hstep

/-- A visit of the worker leaves the script where it is. -/
theorem visit_stays {rest : List Command} (hleft : s.left side = command :: rest)
    (hexecute : s.execute t hosts ibvModifyQp n side .benchmark = some s')
    (hsame : s'.left side = s.left side) :
    s'.conn = s.conn ∧ s'.done = s.done ∧ s'.left = s.left := by
  cases execute_moved hexecute with
  | stays _ hconn hdone hleft' => exact ⟨hconn, hdone, hleft'⟩
  | advances _ _ hconn hdone hleft' hopen hsync =>
      have htail := congrArg List.length hsame
      rw [hleft', advance_left, hleft] at htail
      simp at htail

/-! ### Calls on the socket -/

theorem plan_size (hosts : Hosts) (side : Side) (k : Nat) :
    0 < (hosts.plan side k).size ∧ (hosts.plan side k).size < 2 ^ 31 := by
  cases k with
  | zero =>
      rw [show (hosts.plan side 0).size = hosts.repr.size from hosts.repr.length_bytes _]
      exact ⟨hosts.repr.size_pos, hosts.repr.size_lt⟩
  | succ k => exact ⟨Nat.one_pos, (by decide : 1 < 2 ^ 31)⟩

theorem plan_matching (hosts : Hosts) : Matching hosts.plan
  | 0 => (hosts.repr.length_bytes _).trans (hosts.repr.length_bytes _).symm
  | _ + 1 => rfl

theorem plan_nonempty (hosts : Hosts) : Nonempty hosts.plan := fun side k =>
  (plan_size hosts side k).1

theorem plan_arguments (hosts : Hosts) (side : Side) (k : Nat) :
    ArgumentsKept hosts.plan side k := by
  obtain ⟨hpos, hlt⟩ := plan_size hosts side k
  refine ⟨fun hdvd => ?_, fun _ hshared => ?_⟩
  · have hle := Nat.le_of_dvd hpos hdvd
    omega
  · cases k with
    | zero => cases hshared
    | succ k => rfl

theorem toInt_pos {n : Nat} (hpos : 0 < n) (hlt : n < 2 ^ 31) : 0 < toInt n := by
  unfold toInt
  rw [Int.bmod_eq_of_le (by omega) (by omega)]
  omega

section Endpoint

variable {e : Endpoint} {rc : Int}

/-- The end of a system call leaves the endpoint in the call or at its end. -/
theorem proceed_entered (hbusy : e.phase ≠ .idle) : (e.proceed rc).entered = e.entered := by
  have hentered : e.entered = e.index + 1 := if_neg hbusy
  rw [hentered]
  unfold Endpoint.proceed
  split
  · simp [Endpoint.entered, Endpoint.finish, Endpoint.index]
  · split
    · simp [Endpoint.entered, Endpoint.index]
    · simp [Endpoint.entered, Endpoint.finish, Endpoint.index]

theorem proceed_index_le (e : Endpoint) (rc : Int) : e.index ≤ (e.proceed rc).index := by
  unfold Endpoint.proceed
  split
  · simp [Endpoint.finish, Endpoint.index]
  · split
    · exact Nat.le_refl _
    · simp [Endpoint.finish, Endpoint.index]

theorem proceed_closed (e : Endpoint) (rc : Int) : (e.proceed rc).closed = e.closed := by
  unfold Endpoint.proceed
  split
  · rfl
  · split <;> rfl

theorem proceed_healthy (hhealthy : e.Healthy) (hrc : 0 ≤ rc) : (e.proceed rc).Healthy := by
  unfold Endpoint.proceed
  split
  · next hle => exact Endpoint.healthy_finish.mpr ⟨hhealthy, Int.le_antisymm hle hrc⟩
  · split
    · exact hhealthy
    · exact Endpoint.healthy_finish.mpr ⟨hhealthy, rfl⟩

end Endpoint

/-! ### The invariant -/

/-- Where an endpoint is in the calls that its host's script makes: between two of them, or at
the `sync` that comes next. -/
def Positioned (e : Endpoint) (done left : List Command) : Prop :=
  (e.phase = .idle ∧ e.index = syncs done) ∨
    (e.entered = syncs done + 1 ∧ left.head? = some .sync)

structure Synced (t : Test σ τ) (hosts : Hosts) (s : State σ τ) : Prop where
  script : ∀ side, s.done side ++ s.left side = t.script side
  positioned : ∀ side, Positioned (s.conn.endpoint side) (s.done side) (s.left side)
  daemon_open : (s.conn.endpoint .daemon).closed = false →
    ConnectionInv hosts.plan s.conn ∧ ∀ side, (s.conn.endpoint side).Healthy
  daemon_closed : (s.conn.endpoint .daemon).closed = true →
    .closeSocket ∈ s.done .daemon ∧
      syncs (t.script .daemon) ≤ (s.conn.endpoint .client).index
  client_closed : (s.conn.endpoint .client).closed = true → .closeSocket ∈ s.done .client

theorem Positioned.busy {e : Endpoint} {done left : List Command} (h : Positioned e done left)
    (hbusy : e.phase ≠ .idle) :
    e.index = syncs done ∧ e.entered = syncs done + 1 ∧ left.head? = some .sync := by
  rcases h with ⟨hidle, -⟩ | ⟨hentered, hhead⟩
  · exact absurd hidle hbusy
  · have hnext : e.entered = e.index + 1 := if_neg hbusy
    exact ⟨by omega, hentered, hhead⟩

theorem Positioned.le {e : Endpoint} {done left : List Command} (h : Positioned e done left) :
    syncs done ≤ e.index := by
  have hle := e.index_le_entered
  rcases h with ⟨-, hindex⟩ | ⟨hentered, -⟩ <;> omega

/-- A host that is at no `sync` has returned from the calls so far. -/
theorem Positioned.between {e : Endpoint} {done left : List Command} (h : Positioned e done left)
    (hhead : left.head? ≠ some .sync) : e.phase = .idle ∧ e.index = syncs done := by
  rcases h with hidle | ⟨-, hsync⟩
  · exact hidle
  · exact absurd hsync hhead

theorem Synced.initial (h : Initial t s) : Synced t hosts s := by
  rw [h.2]
  exact
    { script := fun side => rfl
      positioned := fun side => .inl ⟨rfl, rfl⟩
      daemon_open := fun _ => ⟨.initial, fun side result hresult => by cases hresult⟩
      daemon_closed := nofun
      client_closed := nofun }

/-- After its `closeSocket` a script makes no calls and posts no receives. -/
theorem Test.closes_script (t : Test σ τ) {before after : List Command}
    (hscript : t.script side = before ++ .closeSocket :: after) :
    syncs after = 0 ∧ weight Command.recvs after = 0 := by
  match before, hscript with
  | [], hscript => cases hscript
  | [_], hscript => cases hscript
  | _ :: _ :: before, hscript =>
      exact t.closes side before after (List.cons.inj (List.cons.inj hscript).2).2

theorem Synced.of_closed (h : Synced t hosts s) (hclosed : .closeSocket ∈ s.done side) :
    syncs (s.done side) = syncs (t.script side) ∧
      weight Command.recvs (s.done side) = weight Command.recvs (t.script side) := by
  obtain ⟨before, after, hdone⟩ := List.append_of_mem hclosed
  have hscript := h.script side
  rw [hdone, List.append_assoc, List.cons_append] at hscript
  obtain ⟨hsyncs, hrecvs⟩ := t.closes_script hscript.symm
  rw [← h.script side]
  simp only [syncs_append, weight_append] at hsyncs hrecvs ⊢
  omega

/-- While the server is in a call, the client has not closed the socket without answering. -/
theorem Synced.available (h : Synced t hosts s)
    (hopen : (s.conn.endpoint .daemon).closed = false)
    (hsyscall : Side.daemon.syscall (s.conn.endpoint .daemon).phase = some .recv)
    (hclosed : (s.conn.endpoint .client).closed = true) :
    (s.conn.stream .client).available ≠ [] := by
  obtain ⟨hinv, hhealthy⟩ := h.daemon_open hopen
  obtain ⟨hindex, -, hhead⟩ := (h.positioned .daemon).busy (busy_of_syscall hsyscall)
  have hclient := (h.of_closed (h.client_closed hclosed)).1
  have hle := (h.positioned .client).le
  -- the client has answered all calls of the server, and this one is among them
  have hmore : (s.conn.endpoint .daemon).index < (s.conn.endpoint .client).index := by
    have hscript := congrArg syncs (h.script .daemon)
    obtain ⟨rest, hrest⟩ : ∃ rest, s.left .daemon = .sync :: rest := by
      cases hleft : s.left .daemon with
      | nil => rw [hleft] at hhead; cases hhead
      | cons command rest =>
          rw [hleft] at hhead
          exact ⟨rest, by rw [Option.some.inj hhead]⟩
    have hwaits : syncs (t.script .daemon) ≤ syncs (t.script .client) := by
      simpa [Test.script, Test.rest] using t.waits
    rw [syncs_append, hrest, syncs_cons, if_pos rfl] at hscript
    omega
  have hread := (hinv .daemon).read (hhealthy .daemon)
  obtain ⟨m, hwritten, hm⟩ := (hinv .client).sent
  obtain rfl := hm (hhealthy .client)
  rw [done_second (by decide)] at hread hwritten
  intro hempty
  have hlength := congrArg List.length hempty
  rw [ByteStream.available, List.length_drop, List.length_nil] at hlength
  have hoffset : offset (outBufs hosts.plan .client) (s.conn.endpoint .client).index ≤
      offset (outBufs hosts.plan .client) (s.conn.endpoint .daemon).index := by
    rw [show Side.daemon.peer = Side.client from rfl] at hread
    rw [← hread, offset, ← hwritten]
    omega
  exact absurd (le_of_offset_le (plan_nonempty hosts) hoffset) (Nat.not_le.mpr hmore)

/-- What a step on the socket does to the endpoints. -/
theorem Synced.acted (h : Synced t hosts s) {action : Socket.Action} (hmay : s.MayAct action)
    (hguard : Delivers hosts s (.socket action)) {c' : Connection}
    (hmove : Move hosts.plan s.conn action c') :
    ∃ side e', c'.endpoint = Function.update s.conn.endpoint side e' ∧
      e'.closed = (s.conn.endpoint side).closed ∧ (s.conn.endpoint side).index ≤ e'.index ∧
      Positioned e' (s.done side) (s.left side) ∧
      ((s.conn.endpoint side).Healthy → e'.Healthy) := by
  have hproceed (side : Side) (e : Endpoint) (n : Nat)
      (hsame : e.phase = (s.conn.endpoint side).phase ∧
        e.returned = (s.conn.endpoint side).returned ∧ e.closed = (s.conn.endpoint side).closed)
      (hbusy : (s.conn.endpoint side).phase ≠ .idle) (hrc : 0 ≤ toInt n) :
      (e.proceed (toInt n)).closed = (s.conn.endpoint side).closed ∧
        (s.conn.endpoint side).index ≤ (e.proceed (toInt n)).index ∧
        Positioned (e.proceed (toInt n)) (s.done side) (s.left side) ∧
        ((s.conn.endpoint side).Healthy → (e.proceed (toInt n)).Healthy) := by
    obtain ⟨hphase, hreturned, hclosed⟩ := hsame
    have hindex : e.index = (s.conn.endpoint side).index := congrArg List.length hreturned
    have hentered : e.entered = (s.conn.endpoint side).entered := by
      rw [Endpoint.entered, Endpoint.entered, hphase, hindex]
    obtain ⟨-, hnext, hhead⟩ := (h.positioned side).busy hbusy
    refine ⟨(proceed_closed e (toInt n)).trans hclosed,
      (Nat.le_of_eq hindex.symm).trans (proceed_index_le e (toInt n)), .inr ⟨?_, hhead⟩, ?_⟩
    · rw [proceed_entered (by rw [hphase]; exact hbusy), hentered, hnext]
    · intro hhealthy
      refine proceed_healthy ?_ hrc
      rw [Endpoint.Healthy, hreturned]
      exact hhealthy
  -- no message is so long that its size would be an error as an `int`
  have hwhole (side : Side) : 0 ≤ toInt (hosts.plan side (s.conn.endpoint side).index).size :=
    Int.le_of_lt (toInt_pos (plan_size ..).1 (plan_size ..).2)
  cases hmove with
  | @call side hidle =>
      obtain ⟨hhead, hindex⟩ := hmay
      refine ⟨side, _, rfl, rfl, Nat.le_refl _, .inr ⟨?_, hhead⟩, id⟩
      rw [← hindex]
      rfl
  | @send side n hsyscall hresult =>
      obtain rfl := Option.some.inj hguard
      exact ⟨side, _, rfl, hproceed side (s.conn.endpoint side) _ ⟨rfl, rfl, rfl⟩
        (busy_of_syscall hsyscall) (hwhole side)⟩
  | @recv side n hsyscall hresult =>
      refine ⟨side, _, rfl, hproceed side ((s.conn.endpoint side).receive _ _) n ⟨rfl, rfl, rfl⟩
        (busy_of_syscall hsyscall) ?_⟩
      rcases hguard with hsize | hend
      · obtain rfl := Option.some.inj hsize
        exact hwhole side
      · obtain rfl := Option.some.inj hend
        decide
  | sendFail => cases hguard
  | recvFail => rcases hguard with hsize | hend <;> contradiction
  | close => exact absurd hmay id

/-- As long as the server's socket is open, nothing but whole buffers is transferred. -/
theorem Synced.whole (h : Synced t hosts s) {action : Socket.Action} {c' : Connection}
    (hopen : (s.conn.endpoint .daemon).closed = false)
    (hmay : s.MayAct action) (hguard : Delivers hosts s (.socket action))
    (hstep : Socket.step hosts.plan s.conn action = some c') :
    Whole hosts.plan s.conn action := by
  obtain ⟨-, hhealthy⟩ := h.daemon_open hopen
  cases hmove : step_move hstep with
  | @call side hidle => exact ⟨hhealthy side, plan_arguments ..⟩
  | @send side n hsyscall hresult =>
      rintro m hm
      cases hm
      exact Option.some.inj hguard
  | @recv side n hsyscall hresult =>
      rintro m hm
      cases hm
      rcases hguard with hsize | hend
      · exact Option.some.inj hsize
      · -- the end of the stream
        obtain rfl := Option.some.inj hend
        have hsize := (plan_size hosts side (s.conn.endpoint side).index).1
        rcases hresult.2.2 rfl with hzero | ⟨hempty, hclosed⟩
        · omega
        · cases side with
          | daemon => exact absurd hempty (h.available hopen hsyscall hclosed)
          | client =>
              rw [show Side.client.peer = Side.daemon from rfl, hopen] at hclosed
              cases hclosed
  | sendFail => cases hguard
  | recvFail => rcases hguard with hsize | hend <;> contradiction
  | close => exact absurd hmay id

/-- A step on the socket preserves the invariant. -/
theorem Synced.socket (h : Synced t hosts s) {action : Socket.Action} {c' : Connection}
    (hmay : s.MayAct action) (hguard : Delivers hosts s (.socket action))
    (hstep : Socket.step hosts.plan s.conn action = some c') :
    Synced t hosts { s with conn := c' } := by
  obtain ⟨side, e', hendpoint, hclosed, hindex, hpositioned, hhealthy⟩ :=
    h.acted hmay hguard (step_move hstep)
  have hsame (other : Side) : (c'.endpoint other).closed = (s.conn.endpoint other).closed ∧
      (s.conn.endpoint other).index ≤ (c'.endpoint other).index := by
    rw [hendpoint]
    rcases eq_or_ne other side with rfl | hne
    · rw [Function.update_self]
      exact ⟨hclosed, hindex⟩
    · rw [Function.update_of_ne hne]
      exact ⟨rfl, Nat.le_refl _⟩
  refine
    { script := h.script
      positioned := fun other => ?_
      daemon_open := fun hopen => ?_
      daemon_closed := fun hdaemon => ?_
      client_closed := fun hclient => h.client_closed ((hsame .client).1 ▸ hclient) }
  · change Positioned (c'.endpoint other) _ _
    rw [hendpoint]
    rcases eq_or_ne other side with rfl | hne
    · rw [Function.update_self]
      exact hpositioned
    · rw [Function.update_of_ne hne]
      exact h.positioned other
  · have hbefore : (s.conn.endpoint .daemon).closed = false := (hsame .daemon).1 ▸ hopen
    obtain ⟨hinv, hall⟩ := h.daemon_open hbefore
    refine ⟨hinv.move (plan_matching hosts) (h.whole hbefore hmay hguard hstep)
      (step_move hstep), fun other => ?_⟩
    change (c'.endpoint other).Healthy
    rw [hendpoint]
    rcases eq_or_ne other side with rfl | hne
    · rw [Function.update_self]
      exact hhealthy (hall _)
    · rw [Function.update_of_ne hne]
      exact hall other
  · obtain ⟨hdone, hcalls⟩ := h.daemon_closed ((hsame .daemon).1 ▸ hdaemon)
    exact ⟨hdone, hcalls.trans (hsame .client).2⟩

/-! ### Steps of the hosts -/

theorem Synced.congr (h : Synced t hosts s) (hconn : s'.conn = s.conn) (hdone : s'.done = s.done)
    (hleft : s'.left = s.left) : Synced t hosts s' where
  script := by
    rw [hdone, hleft]
    exact h.script
  positioned := by
    rw [hconn, hdone, hleft]
    exact h.positioned
  daemon_open := by
    rw [hconn]
    exact h.daemon_open
  daemon_closed := by
    rw [hconn, hdone]
    exact h.daemon_closed
  client_closed := by
    rw [hconn, hdone]
    exact h.client_closed

theorem mem_advance {other : Side} {c : Command} (hmem : c ∈ s.done other) :
    c ∈ (s.advance side command).done other := by
  rcases eq_or_ne other side with rfl | hne
  · rw [advance_done]
    exact List.mem_append_left _ hmem
  · rw [(advance_peer hne).1]
    exact hmem

/-- The next command is finished. -/
theorem Synced.advance (h : Synced t hosts s) {rest : List Command}
    (hleft : s.left side = command :: rest)
    (hsync : command = .sync → syncs (s.done side) < (s.conn.endpoint side).index) :
    Synced t hosts (s.advance side command) where
  script := by
    intro other
    rcases eq_or_ne other side with rfl | hne
    · rw [advance_done, advance_left, hleft, List.append_assoc, ← h.script other, hleft]
      rfl
    · rw [(advance_peer hne).1, (advance_peer hne).2]
      exact h.script other
  positioned := by
    intro other
    rcases eq_or_ne other side with rfl | hne
    · refine .inl ?_
      rw [advance_done, syncs_append]
      by_cases hcommand : command = .sync
      · have hreturned := hsync hcommand
        subst hcommand
        change (s.conn.endpoint other).phase = .idle ∧ (s.conn.endpoint other).index = _
        rcases h.positioned other with ⟨-, hindex⟩ | ⟨hentered, -⟩
        · omega
        · by_cases hidle : (s.conn.endpoint other).phase = .idle
          · rw [Endpoint.entered, if_pos hidle] at hentered
            exact ⟨hidle, by simpa using hentered⟩
          · rw [Endpoint.entered, if_neg hidle] at hentered
            omega
      · have hbetween := (h.positioned other).between (by rw [hleft]; simpa using hcommand)
        simpa [hcommand] using hbetween
    · rw [(advance_peer hne).1, (advance_peer hne).2]
      exact h.positioned other
  daemon_open := h.daemon_open
  daemon_closed := by
    intro hclosed
    obtain ⟨hdone, hcalls⟩ := h.daemon_closed hclosed
    exact ⟨mem_advance hdone, hcalls⟩
  client_closed := fun hclosed => mem_advance (h.client_closed hclosed)

/-- The socket of a host is closed. -/
theorem Synced.close (h : Synced t hosts s) {rest : List Command}
    (hleft : s.left side = .closeSocket :: rest) :
    Synced t hosts { s.advance side .closeSocket with
      conn := s.conn.setEndpoint side { s.conn.endpoint side with closed := true } } := by
  have hadvance := h.advance hleft nofun
  have hkept (other : Side) (hdone : .closeSocket ∈ s.done other) :
      .closeSocket ∈ (s.advance side .closeSocket).done other := mem_advance hdone
  have hsame (other : Side) :
      ((s.conn.setEndpoint side { s.conn.endpoint side with closed := true }).endpoint
          other).phase = (s.conn.endpoint other).phase ∧
        ((s.conn.setEndpoint side { s.conn.endpoint side with closed := true }).endpoint
          other).returned = (s.conn.endpoint other).returned := by
    rcases eq_or_ne other side with rfl | hne
    · simp [Connection.setEndpoint]
    · simp [Connection.setEndpoint, Function.update_of_ne hne]
  refine
    { script := hadvance.script
      positioned := fun other => ?_
      daemon_open := fun hopen => ?_
      daemon_closed := fun hclosed => ?_
      client_closed := fun hclosed => ?_ }
  · have hbefore := hadvance.positioned other
    simp only [Positioned, Endpoint.entered, Endpoint.index] at hbefore ⊢
    rw [(hsame other).1, (hsame other).2]
    exact hbefore
  · cases side with
    | daemon => simp [Connection.setEndpoint] at hopen
    | client =>
        obtain ⟨hinv, hhealthy⟩ := h.daemon_open (by simpa [Connection.setEndpoint] using hopen)
        refine ⟨hinv.setEndpoint .client (hinv .client).close, fun other => ?_⟩
        rw [Endpoint.Healthy, (hsame other).2]
        exact hhealthy other
  · cases side with
    | daemon =>
        refine ⟨by simp, ?_⟩
        change _ ≤ ((s.conn.setEndpoint _ _).endpoint _).returned.length
        rw [(hsame .client).2]
        by_cases hbefore : (s.conn.endpoint .daemon).closed = true
        · exact (h.daemon_closed hbefore).2
        · obtain ⟨hinv, hhealthy⟩ := h.daemon_open (by simpa using hbefore)
          have horder := (hinv.order (plan_nonempty hosts) hhealthy).1
          have hindex := ((h.positioned .daemon).between (by rw [hleft]; simp)).2
          have hscript := h.script .daemon
          rw [hleft] at hscript
          have hlast := (t.closes_script hscript.symm).1
          have hsyncs := congrArg syncs hscript
          simp only [syncs_append, syncs_cons, reduceCtorEq, if_false, hlast] at hsyncs
          change _ ≤ (s.conn.endpoint .client).index
          omega
    | client =>
        obtain ⟨hdone, hcalls⟩ := h.daemon_closed (by simpa [Connection.setEndpoint] using hclosed)
        refine ⟨hkept .daemon hdone, ?_⟩
        change _ ≤ ((s.conn.setEndpoint _ _).endpoint _).returned.length
        rw [(hsame .client).2]
        exact hcalls
  · cases side with
    | daemon =>
        exact hkept .client (h.client_closed (by simpa [Connection.setEndpoint] using hclosed))
    | client => simp

theorem Synced.moved (h : Synced t hosts s) {rest : List Command}
    (hleft : s.left side = command :: rest) (hmoved : Moved s side command s') :
    Synced t hosts s' := by
  cases hmoved with
  | stays _ hconn hdone hleft' => exact h.congr hconn hdone hleft'
  | advances _ _ hconn hdone hleft' hopen hsync =>
      exact (h.advance hleft hsync).congr hconn hdone hleft'
  | closes _ hconn hdone hleft' => exact (h.close hleft).congr hconn hdone hleft'

/-- **What the socket orders.**  When the client has left its `sync` number `k`, the server has
done everything that comes before its own. -/
theorem Synced.entered (h : Synced t hosts s) {w : Command → Nat} (hsync : w .sync = 0) {k : Nat}
    (hk : k < syncs (s.done .client)) (hclosed : .closeSocket ∈ s.done .daemon →
      weight w (s.done .daemon) = weight w (t.script .daemon)) :
    weightBefore w (t.script .daemon) k ≤ weight w (s.done .daemon) := by
  by_cases hdaemon : (s.conn.endpoint .daemon).closed = true
  · rw [hclosed (h.daemon_closed hdaemon).1]
    exact weightBefore_le ..
  · obtain ⟨hinv, hhealthy⟩ := h.daemon_open (by simpa using hdaemon)
    have horder := (hinv.order (plan_nonempty hosts) hhealthy).2
    have hle := (h.positioned .client).le
    rw [← h.script .daemon]
    refine weightBefore_le_of_entered hsync ?_
    rcases h.positioned .daemon with ⟨hidle, hindex⟩ | ⟨hentered, hhead⟩
    · rw [Endpoint.entered, if_pos hidle] at horder
      omega
    · rcases Nat.lt_or_ge k (syncs (s.done .daemon)) with hlt | hge
      · exact .inl hlt
      · exact .inr ⟨by omega, hhead⟩

end WriteTest
end FlashReduce
