import FlashReduce.Socket.Endpoint

/-!
# What a successful call has exchanged

A call of `syncData` that returns 0 should have the peer's buffer in `inBuf`.  It does
when system calls transfer whole buffers, which `syncData` takes for granted: a short
transfer counts as a complete one, and the end of the stream as a success.

* `Whole` is the condition, step by step.
* `SideInv` is what holds of one side then: it has sent whole messages only, and it
  reads at the beginning of one.
* `exchange_whole`: under the condition every call that returned 0 holds the buffer of
  the peer's call of the same number; `exchange_short` is a run with one short `recv`
  where a call returns 0 and does not.
-/

namespace FlashReduce
namespace Socket

open Library

/-- No call has failed. -/
def Endpoint.Healthy (e : Endpoint) : Prop := ∀ result ∈ e.returned, result.1 = 0

instance (e : Endpoint) : Decidable e.Healthy :=
  inferInstanceAs (Decidable (∀ result ∈ e.returned, result.1 = 0))

section Plan

variable (plan : Side → Nat → Call)

/-- The buffers that a side passes to `send`. -/
def outBufs (side : Side) (k : Nat) : List UInt8 := (plan side k).outBuf

/-- The calls of a side that have returned 0 hold the buffers of the peer's calls in `inBuf`,
and the peer has sent these to `into` completely. -/
def SideExchanged (side : Side) (e : Endpoint) (into : ByteStream UInt8) : Prop :=
  ∀ k inBuf, e.returned[k]? = some (0, inBuf) →
    inBuf = (plan side.peer k).outBuf ∧
      offset (outBufs plan side.peer) (k + 1) ≤ into.written.length

/-- Every call that has returned 0 has exchanged the buffers. -/
def Exchanged (c : Connection) : Prop :=
  ∀ side, SideExchanged plan side (c.endpoint side) (c.stream side.peer)

/-- A result of a system call that transfers the whole buffer, or an error. -/
def WholeResult (size : Nat) (result : Option Nat) : Prop := ∀ n, result = some n → n = size

instance (size : Nat) : ∀ result, Decidable (WholeResult size result)
  | none => .isTrue nofun
  | some n => decidable_of_iff (n = size) ⟨fun h _ heq => Option.some.inj heq ▸ h, fun h => h n rfl⟩

/-- The arguments of a call that `syncData` handles: the length does not become 0 as an `int`,
and the client overwrites only a buffer that is equal to what the daemon sends. -/
def ArgumentsKept (side : Side) (k : Nat) : Prop :=
  (2 ^ 32 ∣ (plan side k).size → (plan side k).size = 0) ∧
    (side = .client → (plan side k).shared = true → (plan side k).outBuf = (plan .daemon k).outBuf)

instance (side : Side) (k : Nat) : Decidable (ArgumentsKept plan side k) :=
  inferInstanceAs (Decidable ((2 ^ 32 ∣ (plan side k).size → (plan side k).size = 0) ∧
    (side = .client → (plan side k).shared = true →
      (plan side k).outBuf = (plan .daemon k).outBuf)))

/-- Every system call transfers the whole buffer or fails, and a side makes no call after one
that failed. -/
def Whole (c : Connection) : Action → Prop
  | .call side =>
      (c.endpoint side).Healthy ∧ ArgumentsKept plan side (c.endpoint side).index
  | .send side result => WholeResult (plan side (c.endpoint side).index).size result
  | .recv side result => WholeResult (plan side (c.endpoint side).index).size result
  | .close _ => True

instance (c : Connection) : ∀ action, Decidable (Whole plan c action)
  | .call side => inferInstanceAs (Decidable ((c.endpoint side).Healthy ∧
      ArgumentsKept plan side (c.endpoint side).index))
  | .send side result =>
      inferInstanceAs (Decidable (WholeResult (plan side (c.endpoint side).index).size result))
  | .recv side result =>
      inferInstanceAs (Decidable (WholeResult (plan side (c.endpoint side).index).size result))
  | .close _ => inferInstanceAs (Decidable True)

/-! ### The invariant of one side -/

/-- For how many calls a side has made this system call. -/
def done (side : Side) (syscall : Syscall) (e : Endpoint) : Nat :=
  if e.phase = .second ∧ side.syscall .first = some syscall then e.index + 1 else e.index

/-- A side inside a call. -/
structure Current (side : Side) (e : Endpoint) : Prop where
  healthy : e.Healthy
  arguments : ArgumentsKept plan side e.index
  outBuf : e.outBuf = (plan side e.index).outBuf
  inBuf_length : e.inBuf.length = (plan side e.index).size
  received : e.phase = .second → side = .client → e.inBuf = (plan side.peer e.index).outBuf

/-- A side that has sent whole messages to `out` and received whole messages from `into`. -/
structure SideInv (side : Side) (e : Endpoint) (out into : ByteStream UInt8) : Prop where
  sent : ∃ m, out.written = messages (outBufs plan side) m ∧ (e.Healthy → m = done side .send e)
  read : e.Healthy → into.read = offset (outBufs plan side.peer) (done side .recv e)
  current : e.phase ≠ .idle → Current plan side e
  exchanged : SideExchanged plan side e into

/-- The invariant of the connection. -/
def ConnectionInv (c : Connection) : Prop :=
  ∀ side, SideInv plan side (c.endpoint side) (c.stream side) (c.stream side.peer)

end Plan

variable {plan : Side → Nat → Call} {side : Side} {e : Endpoint}
  {out out' into into' : ByteStream UInt8} {c c' : Connection}

theorem SideInv.initial : SideInv plan side .initial .empty .empty where
  sent := ⟨0, rfl, fun _ => rfl⟩
  read := fun _ => rfl
  current := fun hphase => absurd rfl hphase
  exchanged := by
    intro k inBuf hreturned
    simp [Endpoint.initial] at hreturned

/-- The other side may send more, and read what this side sent. -/
theorem SideInv.frame (h : SideInv plan side e out into) (hout : out'.written = out.written)
    (hread : into'.read = into.read) (hle : into.written.length ≤ into'.written.length) :
    SideInv plan side e out' into' where
  sent := by
    rw [hout]
    exact h.sent
  read := by
    rw [hread]
    exact h.read
  current := h.current
  exchanged := by
    intro k inBuf hreturned
    obtain ⟨hinBuf, hdelivered⟩ := h.exchanged k inBuf hreturned
    exact ⟨hinBuf, hdelivered.trans hle⟩

/-! ### The end of a system call -/

theorem Endpoint.healthy_finish {rc : Int} :
    (e.finish rc).Healthy ↔ e.Healthy ∧ rc = 0 := by
  simp [Endpoint.Healthy, Endpoint.finish, or_imp, forall_and]

/-- A call returns; what it says about the buffers matters only when it returns 0. -/
theorem SideExchanged.finish {rc : Int} (h : SideExchanged plan side e into)
    (hsuccess : rc = 0 → e.inBuf = (plan side.peer e.index).outBuf ∧
      offset (outBufs plan side.peer) (e.index + 1) ≤ into.written.length) :
    SideExchanged plan side (e.finish rc) into := by
  intro k inBuf hreturned
  rw [Endpoint.finish, List.getElem?_append] at hreturned
  split at hreturned
  · exact h k inBuf hreturned
  · next hge =>
    rw [List.getElem?_singleton] at hreturned
    split at hreturned
    · next hk =>
      cases hreturned
      obtain rfl : k = e.index := Nat.le_antisymm (Nat.sub_eq_zero_iff_le.mp hk) (not_lt.mp hge)
      exact hsuccess rfl
    · cases hreturned

/-- A call fails. -/
theorem SideInv.fail {rc : Int} (hrc : rc ≠ 0)
    (hsent : ∃ m, out.written = messages (outBufs plan side) m)
    (hexchanged : SideExchanged plan side e into) :
    SideInv plan side (e.finish rc) out into where
  sent := by
    obtain ⟨m, hm⟩ := hsent
    exact ⟨m, hm, fun hhealthy => absurd (Endpoint.healthy_finish.mp hhealthy).2 hrc⟩
  read := fun hhealthy => absurd (Endpoint.healthy_finish.mp hhealthy).2 hrc
  current := fun hphase => absurd rfl hphase
  exchanged := hexchanged.finish fun hsuccess => absurd hsuccess hrc

/-- A call succeeds with its message sent, and the peer's message in `inBuf`. -/
theorem SideInv.succeed
    (hsent : out.written = messages (outBufs plan side) (e.index + 1))
    (hread : into.read = offset (outBufs plan side.peer) (e.index + 1))
    (hinBuf : e.inBuf = (plan side.peer e.index).outBuf)
    (hexchanged : SideExchanged plan side e into) :
    SideInv plan side (e.finish 0) out into where
  sent := ⟨e.index + 1, hsent, fun _ => by simp [done, Endpoint.finish, Endpoint.index]⟩
  read := fun _ => by simpa [done, Endpoint.finish, Endpoint.index] using hread
  current := fun hphase => absurd rfl hphase
  exchanged := hexchanged.finish fun _ => ⟨hinBuf, hread ▸ into.read_le⟩

theorem toInt_eq_zero {n : Nat} (h : toInt n = 0) : 2 ^ 32 ∣ n := by
  have hdvd : ((2 ^ 32 : Nat) : Int) ∣ (n : Int) := Int.dvd_of_bmod_eq_zero h
  exact Int.natCast_dvd_natCast.mp hdvd

/-- The first system call has transferred the whole buffer. -/
theorem SideInv.proceed_first (hmatch : (plan side.peer e.index).size = (plan side e.index).size)
    (hphase : e.phase = .first) (h : SideInv plan side { e with phase := .second } out into) :
    SideInv plan side (e.proceed (toInt (plan side e.index).size)) out into := by
  have hcurrent := h.current nofun
  obtain ⟨m, hm, hdone⟩ := h.sent
  have hread := h.read hcurrent.healthy
  obtain rfl := hdone hcurrent.healthy
  generalize hrc : toInt (plan side e.index).size = rc
  rcases Int.lt_trichotomy rc 0 with hneg | rfl | hpos
  · rw [Endpoint.proceed, if_pos (Int.le_of_lt hneg)]
    exact SideInv.fail (Int.ne_of_lt hneg) ⟨_, hm⟩ h.exchanged
  · -- both buffers are empty
    have hsize : (plan side e.index).size = 0 := hcurrent.arguments.1 (toInt_eq_zero hrc)
    have hout : outBufs plan side e.index = [] := List.eq_nil_of_length_eq_zero hsize
    have hpeer : outBufs plan side.peer e.index = [] :=
      List.eq_nil_of_length_eq_zero (hmatch.trans hsize)
    have hinBuf : e.inBuf = [] := List.eq_nil_of_length_eq_zero (hcurrent.inBuf_length.trans hsize)
    rw [Endpoint.proceed, if_pos (Int.le_refl 0)]
    refine SideInv.succeed ?_ ?_ (hinBuf.trans hpeer.symm) h.exchanged
    · rw [hm, done]
      split
      · rfl
      · rw [messages_succ, hout, List.append_nil]
        rfl
    · rw [hread, done]
      split
      · rfl
      · rw [offset_succ, hpeer]
        rfl
  · rw [Endpoint.proceed, if_neg (Int.not_le.mpr hpos), if_pos hphase]
    exact h

/-- The second system call has transferred the whole buffer. -/
theorem SideInv.proceed_second (hphase : e.phase = .second)
    (hsent : out.written = messages (outBufs plan side) (e.index + 1))
    (hread : into.read = offset (outBufs plan side.peer) (e.index + 1))
    (hinBuf : e.inBuf = (plan side.peer e.index).outBuf)
    (hexchanged : SideExchanged plan side e into) (rc : Int) :
    SideInv plan side (e.proceed rc) out into := by
  have hsucceed := SideInv.succeed hsent hread hinBuf hexchanged
  unfold Endpoint.proceed
  split
  · rcases eq_or_ne rc 0 with rfl | hne
    · exact hsucceed
    · exact SideInv.fail hne ⟨_, hsent⟩ hexchanged
  · rw [hphase, if_neg nofun]
    exact hsucceed

/-- A system call fails. -/
theorem SideInv.proceed_fail (h : SideInv plan side e out into) :
    SideInv plan side (e.proceed (-1)) out into := by
  obtain ⟨m, hm, -⟩ := h.sent
  rw [Endpoint.proceed, if_pos (by decide)]
  exact SideInv.fail (by decide) ⟨m, hm⟩ h.exchanged

/-! ### The system calls -/

theorem busy_of_syscall {phase : Phase} {syscall : Syscall}
    (h : side.syscall phase = some syscall) : phase ≠ .idle := by
  rintro rfl
  cases side <;> cases h

/-- `send` takes the whole buffer. -/
theorem SideInv.send (h : SideInv plan side e out into)
    (hmatch : (plan side.peer e.index).size = (plan side e.index).size)
    (hsyscall : side.syscall e.phase = some .send) :
    SideInv plan side (e.proceed (toInt (plan side e.index).size))
      (out.write (e.outBuf.take (plan side e.index).size)) into := by
  have hcurrent := h.current (busy_of_syscall hsyscall)
  have hread := h.read hcurrent.healthy
  obtain ⟨m, hm, hdone⟩ := h.sent
  obtain rfl := hdone hcurrent.healthy
  have hwritten (hindex : done side .send e = e.index) :
      (out.write (e.outBuf.take (plan side e.index).size)).written =
        messages (outBufs plan side) (e.index + 1) := by
    rw [ByteStream.write_written, hm, hindex, messages_succ, hcurrent.outBuf, Call.size,
      List.take_length]
    rfl
  cases side with
  | daemon =>
      cases hphase : e.phase with
      | first =>
          have hindex : done .daemon .send e = e.index := by simp [done, hphase]
          refine SideInv.proceed_first hmatch hphase ⟨⟨e.index + 1, hwritten hindex, ?_⟩, ?_, ?_, ?_⟩
          · exact fun _ => rfl
          · intro _
            rw [done, hphase, if_neg (by simp)] at hread
            exact hread
          · exact fun _ => ⟨hcurrent.healthy, hcurrent.arguments, hcurrent.outBuf,
              hcurrent.inBuf_length, nofun⟩
          · exact h.exchanged
      | idle | second =>
          rw [hphase] at hsyscall
          cases hsyscall
  | client =>
      cases hphase : e.phase with
      | second =>
          have hindex : done .client .send e = e.index := by simp [done, Side.syscall]
          refine SideInv.proceed_second hphase (hwritten hindex) ?_
            (hcurrent.received hphase rfl) h.exchanged _
          rw [hread, done, hphase, if_pos ⟨rfl, rfl⟩]
      | idle | first =>
          rw [hphase] at hsyscall
          cases hsyscall

/-- What `recv` returns is the peer's buffer when it returns as many bytes as that has. -/
theorem take_available {f : Nat → List UInt8} {k m : Nat}
    (hwritten : into.written = messages f m) (hread : into.read = offset f k)
    (hle : (f k).length ≤ into.available.length) : into.available.take (f k).length = f k := by
  rw [ByteStream.available, List.length_drop, hwritten, hread] at hle
  rw [ByteStream.available, hwritten, hread]
  refine messages_slice ?_
  have hoffset : offset f k ≤ offset f m := by
    have hread_le := into.read_le
    rw [hread, hwritten] at hread_le
    exact hread_le
  unfold offset at hle hoffset ⊢
  omega

/-- `recv` fills the whole buffer. -/
theorem SideInv.recv {m : Nat} (h : SideInv plan side e out into)
    (hmatch : (plan side.peer e.index).size = (plan side e.index).size)
    (hwritten : into.written = messages (outBufs plan side.peer) m)
    (hsyscall : side.syscall e.phase = some .recv)
    (hle : (plan side e.index).size ≤ into.available.length) :
    SideInv plan side
      ((e.receive (plan side e.index).shared
        (into.available.take (plan side e.index).size)).proceed (toInt (plan side e.index).size))
      out (into.skip (plan side e.index).size) := by
  have hcurrent := h.current (busy_of_syscall hsyscall)
  have hread := h.read hcurrent.healthy
  obtain ⟨n, hn, hdone⟩ := h.sent
  obtain rfl := hdone hcurrent.healthy
  have hindex : done side .recv e = e.index := by
    cases side <;> cases hphase : e.phase <;> simp_all [done, Side.syscall]
  rw [hindex] at hread
  -- the bytes that arrive are the peer's buffer
  have hbytes : into.available.take (plan side e.index).size = (plan side.peer e.index).outBuf := by
    rw [← hmatch] at hle ⊢
    exact take_available hwritten hread hle
  have hread' : (into.skip (plan side e.index).size).read =
      offset (outBufs plan side.peer) (e.index + 1) := by
    rw [ByteStream.skip_read into hle, hread, offset_succ, ← hmatch]
    rfl
  have hinBuf : (e.receive (plan side e.index).shared
      (into.available.take (plan side e.index).size)).inBuf = (plan side.peer e.index).outBuf := by
    have hrest : e.inBuf.drop (plan side.peer e.index).outBuf.length = [] := by
      rw [List.drop_eq_nil_iff, hcurrent.inBuf_length, ← hmatch]
      exact Nat.le_refl _
    rw [hbytes, Endpoint.receive, hrest, List.append_nil]
  cases side with
  | daemon =>
      cases hphase : e.phase with
      | second =>
          rw [done, hphase, if_pos ⟨rfl, rfl⟩] at hn
          exact SideInv.proceed_second (e := e.receive _ _) hphase hn hread' hinBuf h.exchanged _
      | idle | first =>
          rw [hphase] at hsyscall
          cases hsyscall
  | client =>
      cases hphase : e.phase with
      | first =>
          rw [done, hphase, if_neg nofun] at hn
          refine SideInv.proceed_first (e := e.receive _ _) hmatch hphase
            ⟨⟨e.index, hn, fun _ => rfl⟩, ?_, ?_, ?_⟩
          · exact fun _ => hread'
          · refine fun _ => ⟨hcurrent.healthy, hcurrent.arguments, ?_, ?_, fun _ _ => hinBuf⟩
            · -- in a shared buffer the same bytes have arrived
              show (if _ then _ else e.outBuf) = _
              split
              · next hshared => exact hinBuf.trans (hcurrent.arguments.2 rfl hshared).symm
              · exact hcurrent.outBuf
            · exact (congrArg List.length hinBuf).trans hmatch
          · exact h.exchanged
      | idle | second =>
          rw [hphase] at hsyscall
          cases hsyscall

/-- A side begins a call. -/
theorem SideInv.enter (h : SideInv plan side e out into) (hphase : e.phase = .idle)
    (hhealthy : e.Healthy) (harguments : ArgumentsKept plan side e.index) :
    SideInv plan side (e.enter (plan side e.index)) out into where
  sent := by
    obtain ⟨m, hm, hdone⟩ := h.sent
    refine ⟨m, hm, fun hhealthy => (hdone hhealthy).trans ?_⟩
    simp [done, hphase, Endpoint.enter, Endpoint.index]
  read := by
    intro hhealthy
    have hread := h.read hhealthy
    simpa [done, hphase, Endpoint.enter, Endpoint.index] using hread
  current := fun _ => ⟨hhealthy, harguments, rfl, (plan side e.index).sizes, nofun⟩
  exchanged := h.exchanged

/-- The socket is closed. -/
theorem SideInv.close (h : SideInv plan side e out into) :
    SideInv plan side { e with closed := true } out into where
  sent := h.sent
  read := h.read
  current := by
    intro hphase
    have hcurrent := h.current hphase
    exact ⟨hcurrent.healthy, hcurrent.arguments, hcurrent.outBuf, hcurrent.inBuf_length,
      hcurrent.received⟩
  exchanged := h.exchanged

/-! ### The connection -/

theorem Side.eq_or_peer (side other : Side) : other = side ∨ other = side.peer := by
  cases side <;> cases other <;> simp [Side.peer]

/-- A step of one side, which the other one sees only as bytes that arrive. -/
theorem ConnectionInv.update (h : ConnectionInv plan c) (side : Side)
    (hendpoint : c'.endpoint = Function.update c.endpoint side e)
    (hout : c'.stream side = out) (hinto : c'.stream side.peer = into)
    (hmoved : SideInv plan side e out into) (hread : out.read = (c.stream side).read)
    (hle : (c.stream side).written.length ≤ out.written.length)
    (hwritten : into.written = (c.stream side.peer).written) : ConnectionInv plan c' := by
  intro other
  rcases side.eq_or_peer other with rfl | rfl
  · rw [hendpoint, Function.update_self, hout, hinto]
    exact hmoved
  · have hpeer := h side.peer
    rw [Side.peer_peer] at hpeer ⊢
    rw [hendpoint, Function.update_of_ne side.peer_ne, hout, hinto]
    exact hpeer.frame hwritten hread hle

theorem ConnectionInv.initial : ConnectionInv plan .initial := fun _ => .initial

theorem Matching.peer (h : Matching plan) (side : Side) (k : Nat) :
    (plan side.peer k).size = (plan side k).size := by
  cases side with
  | daemon => exact (h k).symm
  | client => exact h k

/-- A step of one side that sends and receives nothing. -/
theorem ConnectionInv.setEndpoint (h : ConnectionInv plan c) (side : Side)
    (hmoved : SideInv plan side e (c.stream side) (c.stream side.peer)) :
    ConnectionInv plan (c.setEndpoint side e) :=
  h.update side rfl rfl rfl hmoved rfl (Nat.le_refl _) rfl

/-- Every step that meets the condition preserves the invariant. -/
theorem ConnectionInv.move {action : Action} (hmatch : Matching plan) (h : ConnectionInv plan c)
    (hguard : Whole plan c action) (hmove : Move plan c action c') : ConnectionInv plan c' := by
  cases hmove with
  | @call side hidle => exact h.setEndpoint side ((h side).enter hidle hguard.1 hguard.2)
  | @send side n hsyscall hresult =>
      obtain rfl := hguard n rfl
      refine h.update side rfl (Function.update_self ..) (Function.update_of_ne side.peer_ne _ _)
        ((h side).send (hmatch.peer side _) hsyscall) rfl ?_ rfl
      simp
  | @recv side n hsyscall hresult =>
      obtain rfl := hguard n rfl
      obtain ⟨m, hm, -⟩ := (h side.peer).sent
      exact h.update side rfl (Function.update_of_ne side.peer_ne.symm _ _)
        (Function.update_self ..) ((h side).recv (hmatch.peer side _) hm hsyscall hresult.2.1) rfl
        (Nat.le_refl _) rfl
  | @sendFail side => exact h.setEndpoint side (h side).proceed_fail
  | @recvFail side => exact h.setEndpoint side (h side).proceed_fail
  | @close side => exact h.setEndpoint side (h side).close

/-- **Whole transfers exchange the buffers.**  In every run in which each system call
transfers the whole buffer or fails, and no side makes a call after one that failed, a call
that has returned 0 holds the buffer of the peer's call of the same number. -/
theorem exchange_whole (hmatch : Matching plan)
    (hreach : (machine plan).Reachable (Whole plan) c) : Exchanged plan c := by
  have hinv : ConnectionInv plan c := by
    refine hreach.invariant (ConnectionInv plan) ?_ ?_
    · rintro c rfl
      exact .initial
    · intro c action c' hinv hguard hstep
      exact hinv.move hmatch hguard (step_move hstep)
  exact fun side => (hinv side).exchanged

/-- Each side sends two bytes, and after that both make calls of `syncReady`. -/
def twoBytesPlan : Side → Nat → Call
  | .daemon, 0 => ⟨[1, 2], [0, 0], false, rfl, nofun⟩
  | .client, 0 => ⟨[3, 4], [0, 0], false, rfl, nofun⟩
  | _, _ + 1 => syncReady

theorem matching_twoBytesPlan : Matching twoBytesPlan
  | 0 => rfl
  | _ + 1 => rfl

/-- Both calls of each side transfer whole buffers. -/
theorem exchange_whole_two_calls :
    ∃ c, (c.endpoint .client).returned = [(0, [1, 2]), (0, ['a'.toUInt8])] ∧
      (c.endpoint .daemon).returned = [(0, [3, 4]), (0, ['a'.toUInt8])] ∧
      Exchanged twoBytesPlan c := by
  have hrun := Machine.run_of_exec (machine twoBytesPlan) (Whole twoBytesPlan) .initial
    [.call .daemon, .call .client, .send .daemon (some 2), .recv .client (some 2),
      .send .client (some 2), .recv .daemon (some 2), .call .daemon, .send .daemon (some 1),
      .call .client, .recv .client (some 1), .send .client (some 1), .recv .daemon (some 1)] rfl rfl
  exact ⟨_, rfl, rfl, exchange_whole matching_twoBytesPlan hrun.reachable⟩

/-- Without the condition a call returns 0 and does not hold the peer's buffer: the client's
`recv` returns the first byte of two, and `syncData` goes on. -/
theorem exchange_short :
    ¬ ∀ plan : Side → Nat → Call, Matching plan →
      ∀ c, (machine plan).Reachable Machine.anyMove c → Exchanged plan c := by
  intro hall
  have hrun := Machine.run_of_exec (machine twoBytesPlan) Machine.anyMove .initial
    [.call .daemon, .call .client, .send .daemon (some 2), .recv .client (some 1),
      .send .client (some 2)] rfl rfl
  have hexchanged := hall twoBytesPlan matching_twoBytesPlan _ hrun.reachable
  have hinBuf := (hexchanged .client 0 [1, 0] rfl).1
  exact absurd hinBuf (by decide)

end Socket
end FlashReduce
