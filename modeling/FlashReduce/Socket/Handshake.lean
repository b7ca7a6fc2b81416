import FlashReduce.Socket.Exchange

/-!
# The order of calls on the two sides

The daemon sends first and the client receives first, so a call of `syncData` is a
barrier that favours one side: when it has returned on the client, the daemon has entered
its own call of the same number, and when it has returned on the daemon, the client has made
the last system call of its own, which it returns from in the same step here.

This does not depend on what is in the buffers, only on how many bytes are on the way.

* `SideCount` is the number of bytes that a side has sent and read when system calls transfer
  whole buffers (`WholeTransfers`).
* `SideCount.le_of_read`: a side that has read `k` messages has a peer that has sent them.
* `handshake_order` is the order in every run, and `handshake_order_ahead` a run in which the
  client is ahead of the daemon by one call.
-/

namespace FlashReduce
namespace Socket

open Library

/-- How many calls a side has entered. -/
def Endpoint.entered (e : Endpoint) : Nat := if e.phase = .idle then e.index else e.index + 1

/-- No call is empty. -/
def Nonempty (plan : Side → Nat → Call) : Prop := ∀ side k, 0 < (plan side k).size

/-- No length becomes 0 as an `int`. -/
def NoneVanishes (plan : Side → Nat → Call) : Prop := ∀ side k, ¬ 2 ^ 32 ∣ (plan side k).size

/-- Every system call transfers the whole buffer or fails, and a side makes no call after one
that failed.  What the buffers hold does not matter. -/
def WholeTransfers (plan : Side → Nat → Call) (c : Connection) : Action → Prop
  | .call side => (c.endpoint side).Healthy
  | .send side result => WholeResult (plan side (c.endpoint side).index).size result
  | .recv side result => WholeResult (plan side (c.endpoint side).index).size result
  | .close _ => True

instance (plan : Side → Nat → Call) (c : Connection) :
    ∀ action, Decidable (WholeTransfers plan c action)
  | .call side => inferInstanceAs (Decidable (c.endpoint side).Healthy)
  | .send side result =>
      inferInstanceAs (Decidable (WholeResult (plan side (c.endpoint side).index).size result))
  | .recv side result =>
      inferInstanceAs (Decidable (WholeResult (plan side (c.endpoint side).index).size result))
  | .close _ => inferInstanceAs (Decidable True)

variable {plan : Side → Nat → Call} {side : Side} {e e' : Endpoint}
  {out out' into into' : ByteStream UInt8} {c c' : Connection}

theorem NoneVanishes.nonempty (h : NoneVanishes plan) : Nonempty plan := fun side k =>
  Nat.pos_of_ne_zero fun hzero => h side k (hzero ▸ Nat.dvd_zero _)

theorem Endpoint.index_le_entered (e : Endpoint) :
    e.index ≤ e.entered ∧ e.entered ≤ e.index + 1 := by
  unfold Endpoint.entered
  split <;> omega

theorem index_le_done (side : Side) (syscall : Syscall) (e : Endpoint) :
    e.index ≤ done side syscall e := by
  unfold done
  split <;> omega

theorem done_le_entered (side : Side) (syscall : Syscall) (e : Endpoint) :
    done side syscall e ≤ e.entered := by
  unfold done
  split
  · next hsecond => simp [Endpoint.entered, hsecond.1]
  · exact e.index_le_entered.1

/-- The second system call of a call is its end. -/
theorem done_second {syscall : Syscall} (h : side.syscall .first ≠ some syscall) :
    done side syscall e = e.index :=
  if_neg fun hfirst => h hfirst.2

theorem done_of_ne_second {syscall : Syscall} (h : e.phase ≠ .second) :
    done side syscall e = e.index :=
  if_neg fun hsecond => h hsecond.1

/-! ### The bytes on the way -/

/-- A side has sent to `out`, and read from `into`, as many bytes as its system calls say. -/
structure SideCount (plan : Side → Nat → Call) (side : Side) (e : Endpoint)
    (out into : ByteStream UInt8) : Prop where
  written : e.Healthy → out.written.length = offset (outBufs plan side) (done side .send e)
  read : e.Healthy → into.read = offset (outBufs plan side.peer) (done side .recv e)
  buffers : e.phase ≠ .idle → e.outBuf.length = (plan side e.index).size ∧
    e.inBuf.length = (plan side e.index).size

/-- The count of the connection. -/
def ConnectionCount (plan : Side → Nat → Call) (c : Connection) : Prop :=
  ∀ side, SideCount plan side (c.endpoint side) (c.stream side) (c.stream side.peer)

/-- Whole messages are counted. -/
theorem SideInv.count (h : SideInv plan side e out into) : SideCount plan side e out into where
  written := by
    intro hhealthy
    obtain ⟨m, hwritten, hdone⟩ := h.sent
    rw [hwritten, hdone hhealthy]
    rfl
  read := h.read
  buffers hphase := by
    have hcurrent := h.current hphase
    exact ⟨congrArg List.length hcurrent.outBuf, hcurrent.inBuf_length⟩

theorem SideCount.initial : SideCount plan side .initial .empty .empty where
  written := fun _ => rfl
  read := fun _ => rfl
  buffers := fun hphase => absurd rfl hphase

/-- The other side may send more, and read what this side sent. -/
theorem SideCount.frame (h : SideCount plan side e out into) (hout : out'.written = out.written)
    (hread : into'.read = into.read) : SideCount plan side e out' into' where
  written := by
    rw [hout]
    exact h.written
  read := by
    rw [hread]
    exact h.read
  buffers := h.buffers

/-- A call fails. -/
theorem SideCount.fail {rc : Int} (hrc : rc ≠ 0) : SideCount plan side (e.finish rc) out into where
  written hhealthy := absurd (Endpoint.healthy_finish.mp hhealthy).2 hrc
  read hhealthy := absurd (Endpoint.healthy_finish.mp hhealthy).2 hrc
  buffers hphase := absurd rfl hphase

/-- The first system call has transferred the whole buffer. -/
theorem SideCount.proceed_first (hsize : ¬ 2 ^ 32 ∣ (plan side e.index).size)
    (hphase : e.phase = .first) (h : SideCount plan side { e with phase := .second } out into) :
    SideCount plan side (e.proceed (toInt (plan side e.index).size)) out into := by
  have hrc : toInt (plan side e.index).size ≠ 0 := fun hzero => hsize (toInt_eq_zero hzero)
  -- a length from 2^31 on is negative as an `int`, and the call fails
  by_cases hfailed : toInt (plan side e.index).size ≤ 0
  · rw [Endpoint.proceed, if_pos hfailed]
    exact .fail hrc
  · rw [Endpoint.proceed, if_neg hfailed, if_pos hphase]
    exact h

/-- The second system call has transferred the whole buffer. -/
theorem SideCount.proceed_second (hphase : e.phase = .second) {rc : Int} (hrc : rc ≠ 0)
    (hwritten : e.Healthy → out.written.length = offset (outBufs plan side) (e.index + 1))
    (hread : e.Healthy → into.read = offset (outBufs plan side.peer) (e.index + 1)) :
    SideCount plan side (e.proceed rc) out into := by
  unfold Endpoint.proceed
  split
  · exact .fail hrc
  · rw [hphase, if_neg (by simp)]
    have hindex (syscall : Syscall) : done side syscall (e.finish 0) = e.index + 1 := by
      simp [done, Endpoint.finish, Endpoint.index]
    refine ⟨fun hhealthy => ?_, fun hhealthy => ?_, fun hidle => absurd rfl hidle⟩
    · rw [hindex]
      exact hwritten (Endpoint.healthy_finish.mp hhealthy).1
    · rw [hindex]
      exact hread (Endpoint.healthy_finish.mp hhealthy).1

/-- A system call fails. -/
theorem SideCount.proceed_fail : SideCount plan side (e.proceed (-1)) out into := by
  rw [Endpoint.proceed, if_pos (by decide)]
  exact .fail (by decide)

/-- `send` takes the whole buffer. -/
theorem SideCount.send (h : SideCount plan side e out into)
    (hsize : ¬ 2 ^ 32 ∣ (plan side e.index).size)
    (hsyscall : side.syscall e.phase = some .send) :
    SideCount plan side (e.proceed (toInt (plan side e.index).size))
      (out.write (e.outBuf.take (plan side e.index).size)) into := by
  obtain ⟨hout, hin⟩ := h.buffers (busy_of_syscall hsyscall)
  have hwritten (hhealthy : e.Healthy) (hindex : done side .send e = e.index) :
      (out.write (e.outBuf.take (plan side e.index).size)).written.length =
        offset (outBufs plan side) (e.index + 1) := by
    rw [ByteStream.write_written, List.length_append, h.written hhealthy, hindex, ← hout,
      List.take_length, hout, offset_succ]
    rfl
  cases side with
  | daemon =>
      cases hphase : e.phase with
      | first =>
          have hnot : e.phase ≠ .second := by simp [hphase]
          refine SideCount.proceed_first hsize hphase ⟨fun hhealthy => ?_, fun hhealthy => ?_, ?_⟩
          · exact hwritten hhealthy (done_of_ne_second hnot)
          · exact (h.read hhealthy).trans (congrArg _ (done_of_ne_second hnot))
          · exact fun _ => ⟨hout, hin⟩
      | idle | second =>
          rw [hphase] at hsyscall
          cases hsyscall
  | client =>
      cases hphase : e.phase with
      | second =>
          refine SideCount.proceed_second hphase (fun hzero => hsize (toInt_eq_zero hzero))
            (fun hhealthy => hwritten hhealthy (done_second (by decide))) fun hhealthy => ?_
          rw [h.read hhealthy, done, hphase, if_pos ⟨rfl, rfl⟩]
      | idle | first =>
          rw [hphase] at hsyscall
          cases hsyscall

/-- `recv` fills the whole buffer. -/
theorem SideCount.recv (h : SideCount plan side e out into)
    (hmatch : (plan side.peer e.index).size = (plan side e.index).size)
    (hsize : ¬ 2 ^ 32 ∣ (plan side e.index).size)
    (hsyscall : side.syscall e.phase = some .recv)
    (hle : (plan side e.index).size ≤ into.available.length) :
    SideCount plan side
      ((e.receive (plan side e.index).shared
        (into.available.take (plan side e.index).size)).proceed (toInt (plan side e.index).size))
      out (into.skip (plan side e.index).size) := by
  obtain ⟨hout, hin⟩ := h.buffers (busy_of_syscall hsyscall)
  have hread (hhealthy : e.Healthy) (hindex : done side .recv e = e.index) :
      (into.skip (plan side e.index).size).read =
        offset (outBufs plan side.peer) (e.index + 1) := by
    rw [ByteStream.skip_read into hle, h.read hhealthy, hindex, offset_succ, ← hmatch]
    rfl
  -- the bytes that arrive are as many as the buffer has
  have hinBuf : (e.receive (plan side e.index).shared
      (into.available.take (plan side e.index).size)).inBuf.length = (plan side e.index).size := by
    simp only [Endpoint.receive, List.length_append, List.length_drop, List.length_take, hin]
    omega
  cases side with
  | daemon =>
      cases hphase : e.phase with
      | second =>
          refine SideCount.proceed_second (e := e.receive _ _) hphase
            (fun hzero => hsize (toInt_eq_zero hzero)) (fun hhealthy => ?_) fun hhealthy => ?_
          · refine (h.written hhealthy).trans (congrArg _ ?_)
            rw [done, hphase, if_pos ⟨rfl, rfl⟩]
            rfl
          · exact hread hhealthy (done_second (by decide))
      | idle | first =>
          rw [hphase] at hsyscall
          cases hsyscall
  | client =>
      cases hphase : e.phase with
      | first =>
          have hnot : e.phase ≠ .second := by simp [hphase]
          refine SideCount.proceed_first (e := e.receive _ _) hsize hphase
            ⟨fun hhealthy => ?_, fun hhealthy => ?_, fun _ => ⟨?_, hinBuf⟩⟩
          · exact (h.written hhealthy).trans (congrArg _ (done_of_ne_second hnot))
          · exact hread hhealthy (done_of_ne_second hnot)
          · -- an in-place call receives into the buffer that it sends
            show (if _ then _ else e.outBuf).length = _
            split
            · exact hinBuf
            · exact hout
      | idle | second =>
          rw [hphase] at hsyscall
          cases hsyscall

/-- A side begins a call. -/
theorem SideCount.enter (h : SideCount plan side e out into) (hphase : e.phase = .idle) :
    SideCount plan side (e.enter (plan side e.index)) out into where
  written := by
    intro hhealthy
    have hwritten := h.written hhealthy
    simpa [done, hphase, Endpoint.enter, Endpoint.index] using hwritten
  read := by
    intro hhealthy
    have hread := h.read hhealthy
    simpa [done, hphase, Endpoint.enter, Endpoint.index] using hread
  buffers := fun _ => ⟨rfl, (plan side e.index).sizes⟩

/-- The socket is closed. -/
theorem SideCount.close (h : SideCount plan side e out into) :
    SideCount plan side { e with closed := true } out into where
  written := h.written
  read := h.read
  buffers := h.buffers

/-! ### The connection -/

/-- A step of one side, which the other one sees only as bytes that arrive. -/
theorem ConnectionCount.update (h : ConnectionCount plan c) (side : Side)
    (hendpoint : c'.endpoint = Function.update c.endpoint side e)
    (hout : c'.stream side = out) (hinto : c'.stream side.peer = into)
    (hmoved : SideCount plan side e out into) (hread : out.read = (c.stream side).read)
    (hwritten : into.written = (c.stream side.peer).written) : ConnectionCount plan c' := by
  intro other
  rcases side.eq_or_peer other with rfl | rfl
  · rw [hendpoint, Function.update_self, hout, hinto]
    exact hmoved
  · have hpeer := h side.peer
    rw [Side.peer_peer] at hpeer ⊢
    rw [hendpoint, Function.update_of_ne side.peer_ne, hout, hinto]
    exact hpeer.frame hwritten hread

/-- A step of one side that sends and receives nothing. -/
theorem ConnectionCount.setEndpoint (h : ConnectionCount plan c) (side : Side)
    (hmoved : SideCount plan side e (c.stream side) (c.stream side.peer)) :
    ConnectionCount plan (c.setEndpoint side e) :=
  h.update side rfl rfl rfl hmoved rfl rfl

theorem ConnectionCount.move {action : Action} (hmatch : Matching plan)
    (hsizes : NoneVanishes plan) (h : ConnectionCount plan c)
    (hguard : WholeTransfers plan c action) (hmove : Move plan c action c') :
    ConnectionCount plan c' := by
  cases hmove with
  | @call side hidle => exact h.setEndpoint side ((h side).enter hidle)
  | @send side n hsyscall hresult =>
      obtain rfl := hguard n rfl
      exact h.update side rfl (Function.update_self ..) (Function.update_of_ne side.peer_ne _ _)
        ((h side).send (hsizes side _) hsyscall) rfl rfl
  | @recv side n hsyscall hresult =>
      obtain rfl := hguard n rfl
      exact h.update side rfl (Function.update_of_ne side.peer_ne.symm _ _)
        (Function.update_self ..)
        ((h side).recv (hmatch.peer side _) (hsizes side _) hsyscall hresult.2.1) rfl rfl
  | @sendFail side => exact h.setEndpoint side .proceed_fail
  | @recvFail side => exact h.setEndpoint side .proceed_fail
  | @close side => exact h.setEndpoint side (h side).close

/-! ### The order -/

/-- Messages that are not empty are counted by the bytes up to them. -/
theorem le_of_offset_le (hsizes : Nonempty plan) {m n : Nat}
    (h : offset (outBufs plan side) m ≤ offset (outBufs plan side) n) : m ≤ n := by
  by_contra hlt
  have hmore : offset (outBufs plan side) (n + 1) ≤ offset (outBufs plan side) m :=
    offset_le (by omega)
  have hpos : 0 < (outBufs plan side n).length := hsizes side n
  rw [offset_succ] at hmore
  omega

/-- What a side has read its peer has sent. -/
theorem SideCount.le_of_read (hsizes : Nonempty plan) (h : SideCount plan side e out into)
    (hpeer : SideCount plan side.peer e' into out) (hhealthy : e.Healthy)
    (hpeerHealthy : e'.Healthy) : done side .recv e ≤ done side.peer .send e' := by
  have hle := into.read_le
  rw [h.read hhealthy, hpeer.written hpeerHealthy] at hle
  exact le_of_offset_le hsizes hle

theorem ConnectionCount.order (hsizes : Nonempty plan) (h : ConnectionCount plan c)
    (hhealthy : ∀ side, (c.endpoint side).Healthy) :
    (c.endpoint .daemon).index ≤ (c.endpoint .client).index ∧
      (c.endpoint .client).index ≤ (c.endpoint .daemon).entered := by
  constructor
  · calc
      (c.endpoint .daemon).index ≤ done .daemon .recv (c.endpoint .daemon) := index_le_done ..
      _ ≤ done .client .send (c.endpoint .client) :=
        (h .daemon).le_of_read hsizes (h .client) (hhealthy _) (hhealthy _)
      _ = (c.endpoint .client).index := done_second (by decide)
  · calc
      (c.endpoint .client).index ≤ done .client .recv (c.endpoint .client) := index_le_done ..
      _ ≤ done .daemon .send (c.endpoint .daemon) :=
        (h .client).le_of_read hsizes (h .daemon) (hhealthy _) (hhealthy _)
      _ ≤ (c.endpoint .daemon).entered := done_le_entered ..

theorem ConnectionInv.order (hsizes : Nonempty plan) (h : ConnectionInv plan c)
    (hhealthy : ∀ side, (c.endpoint side).Healthy) :
    (c.endpoint .daemon).index ≤ (c.endpoint .client).index ∧
      (c.endpoint .client).index ≤ (c.endpoint .daemon).entered :=
  ConnectionCount.order hsizes (fun side => (h side).count) hhealthy

/-- **The order of a handshake.**  When system calls transfer whole buffers, of matching sizes,
a call that has returned on the client has been entered on the daemon, and a call that has
returned on the daemon has made its last system call on the client, as long as no call has
failed. -/
theorem handshake_order (hmatch : Matching plan) (hsizes : NoneVanishes plan)
    (hreach : (machine plan).Reachable (WholeTransfers plan) c)
    (hhealthy : ∀ side, (c.endpoint side).Healthy) :
    (c.endpoint .daemon).index ≤ (c.endpoint .client).index ∧
      (c.endpoint .client).index ≤ (c.endpoint .daemon).entered := by
  have hcount : ConnectionCount plan c := by
    refine hreach.invariant (ConnectionCount plan) ?_ ?_
    · rintro c rfl
      exact fun _ => .initial
    · intro c action c' hcount hguard hstep
      exact hcount.move hmatch hsizes hguard (step_move hstep)
  exact hcount.order hsizes.nonempty hhealthy

theorem noneVanishes_twoBytesPlan : NoneVanishes twoBytesPlan
  | .daemon, 0 => by decide
  | .client, 0 => by decide
  | .daemon, _ + 1 => (by decide : ¬ 2 ^ 32 ∣ 1)
  | .client, _ + 1 => (by decide : ¬ 2 ^ 32 ∣ 1)

/-- The client can be ahead by one call. -/
theorem handshake_order_ahead :
    ∃ c : Connection, (c.endpoint .client).index = 1 ∧ (c.endpoint .daemon).index = 0 ∧
      (c.endpoint .daemon).index ≤ (c.endpoint .client).index ∧
      (c.endpoint .client).index ≤ (c.endpoint .daemon).entered := by
  have hrun := Machine.run_of_exec (machine twoBytesPlan) (WholeTransfers twoBytesPlan) .initial
    [.call .daemon, .call .client, .send .daemon (some 2), .recv .client (some 2),
      .send .client (some 2)] rfl rfl
  refine ⟨_, rfl, rfl, handshake_order matching_twoBytesPlan noneVanishes_twoBytesPlan
    hrun.reachable ?_⟩
  rintro (_ | _)
  · exact fun result hresult => (by cases hresult)
  · exact List.forall_mem_singleton.mpr rfl

end Socket
end FlashReduce
