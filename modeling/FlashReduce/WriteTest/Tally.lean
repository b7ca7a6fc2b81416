import FlashReduce.WriteTest.Safety

/-!
# What the two benchmarks count

The benchmark of the client counts the sends that it has posted, and that of the server the
completions it has polled, or, as a progress callback, the polls that returned some.

* `Sender.Steady` and `Receiver.Steady` say what the two forms of a benchmark have in common:
  the sender has credit for all its rounds, and a receiver counts a poll that returns one
  completion as one.
* `Posted` and `Polled` are the invariants of the two counters.
* `Whole` is a state in which no write has been lost and every completion has been counted.
  A step cannot make a state whole again (`Whole.of_step`), and only a loss, or a poll with
  two completions, ends it (`Whole.step`).
-/

namespace FlashReduce
namespace WriteTest

open Library Controller Rdma Benchmark Socket

/-! ### Steady benchmarks -/

/-- A sending benchmark that has credit for all its rounds.  `rank` bounds the rounds that are
left. -/
structure Sender.Steady {σ : Type} (sender : Sender σ) where
  credited : σ → Prop
  rank : σ → Nat
  credited_start : credited sender.start
  credited_withSends : ∀ s queue, credited s → credited (sender.withSends s queue)
  rank_withSends : ∀ s queue, rank (sender.withSends s queue) = rank s
  round_credited : ∀ s n s', credited s → sender.round s n = some s' → credited s'
  round_quiet : ∀ s n s', credited s → sender.round s n = some s' → sender.polls s = false
  round_spent : ∀ s n s', credited s → sender.round s n = some s' →
    (sender.sends s').posted.length + sender.spent s =
      (sender.sends s).posted.length + sender.spent s'
  round_rank : ∀ s n s', credited s → sender.round s n = some s' → rank s' < rank s
  round_none : ∀ s n, credited s → sender.round s n = none → sender.spent s = 10

/-- A receiving benchmark that ends when its counter is at ten.  `gain` is what a poll adds to
the counter, and `rank` bounds the rounds that are left when every poll gains something. -/
structure Receiver.Steady {τ : Type} (receiver : Receiver τ) where
  good : τ → Prop
  count : τ → Nat
  rank : τ → Nat
  gain : PollResult → Nat
  gain_le : ∀ poll, gain poll ≤ poll.numCompletions
  gain_single : ∀ poll, poll.numCompletions ≤ 1 → gain poll = poll.numCompletions
  good_start : good receiver.start
  count_start : count receiver.start = 0
  good_withRecvs : ∀ t queue, good t → good (receiver.withRecvs t queue)
  count_withRecvs : ∀ t queue, count (receiver.withRecvs t queue) = count t
  rank_withRecvs : ∀ t queue, rank (receiver.withRecvs t queue) = rank t
  round_good : ∀ t poll t', good t → receiver.round t poll = some t' → good t'
  round_count : ∀ t poll t', good t → receiver.round t poll = some t' →
    count t' = if receiver.polls t then count t + gain poll else count t
  round_rank : ∀ t poll t', good t → receiver.round t poll = some t' →
    (receiver.polls t = true → 0 < gain poll) → rank t' < rank t
  round_open : ∀ t poll t', good t → receiver.round t poll = some t' →
    receiver.polls t = true → count t < 10
  round_none : ∀ t poll, good t → receiver.round t poll = none → 10 ≤ count t

section Round

variable {σ : Type} {sender : Sender σ} {s s' : σ} {n : Nat}

/-- A round of a steady sender posts a send or nothing, and polls nothing. -/
theorem Sender.Steady.round_sends (steady : sender.Steady) (hcredited : steady.credited s)
    (hround : sender.round s n = some s') :
    (sender.sends s').polled = (sender.sends s).polled ∧
      (sender.sends s).posted.length ≤ (sender.sends s').posted.length ∧
      (sender.sends s').posted.length ≤ (sender.sends s).posted.length + 1 := by
  have hsends := sender.round_sends _ _ _ hround
  rw [steady.round_quiet _ _ _ hcredited hround, if_neg Bool.false_ne_true] at hsends
  rcases hsends with ⟨heq, -⟩ | ⟨wrId, heq, -⟩
  · rw [heq]
    exact ⟨rfl, Nat.le_refl _, Nat.le_succ _⟩
  · rw [heq]
    exact ⟨rfl, by simp, by simp⟩

end Round

/-! ### What a command posts and waits for -/

/-- What a command posts by itself. -/
def Command.posts : Command → Nat
  | .postSend _ => 1
  | _ => 0

/-- How many completions a command waits for by itself. -/
def Command.waits : Command → Nat
  | .waitCompletion => 1
  | _ => 0

/-- How many completions a command waits for. -/
def Command.polls : Command → Nat
  | .waitCompletion => 1
  | .benchmark => 10
  | _ => 0

theorem weight_benchmark {w v : Command → Nat} (hbenchmark : w .benchmark = v .benchmark + 10)
    (hother : ∀ c, c ≠ .benchmark → w c = v c) (script : List Command) :
    weight w script = weight v script + 10 * script.count .benchmark := by
  induction script with
  | nil => rfl
  | cons c script ih =>
      rw [weight_cons, weight_cons, ih, List.count_cons]
      by_cases hc : c = .benchmark
      · subst hc
        simp only [hbenchmark, beq_self_eq_true, if_true]
        omega
      · simp only [hother c hc, beq_iff_eq, hc, if_false]
        omega

theorem weight_sends (script : List Command) :
    weight Command.sends script =
      weight Command.posts script + 10 * script.count .benchmark := by
  refine weight_benchmark rfl (fun c hc => ?_) script
  cases c with
  | benchmark => exact absurd rfl hc
  | _ => rfl

theorem weight_polls (script : List Command) :
    weight Command.polls script =
      weight Command.waits script + 10 * script.count .benchmark := by
  refine weight_benchmark rfl (fun c hc => ?_) script
  cases c with
  | benchmark => exact absurd rfl hc
  | _ => rfl

variable {σ τ : Type} {t : Test σ τ} {hosts : Hosts} {ibvModifyQp : ModifyQp}
  {s s' : State σ τ} {side : Side} {command : Command} {n : Nat}

/-! ### Steps of a host -/

/-- What a step of a host does to the queues and the benchmarks. -/
inductive Executed (t : Test σ τ) (s : State σ τ) (n : Nat) :
    Side → Command → State σ τ → Prop
  | quiet (side : Side) (command : Command) (conn : Connection) (qp : Side → QpAttr)
      (hposts : command.posts = 0) (hwaits : command.waits = 0) (hne : command ≠ .benchmark) :
      Executed t s n side command { s.advance side command with conn := conn, qp := qp }
  | postRecv (wrId : UInt64) :
      Executed t s n .daemon (.postRecv wrId)
        { s.advance .daemon (.postRecv wrId) with
          receiver := t.receiver.withRecvs s.receiver
            ((t.receiver.recvs s.receiver).postRecv wrId) }
  | postSend (wrId : Nat) :
      Executed t s n .client (.postSend wrId)
        { s.advance .client (.postSend wrId) with
          sender := t.sender.withSends s.sender ((t.sender.sends s.sender).postSend wrId)
          inFlight := s.inFlight + 1 }
  | taken (harrived : s.taken < s.arrived) :
      Executed t s n .daemon .waitCompletion
        { s.advance .daemon .waitCompletion with taken := s.taken + 1 }
  | polled (hcompleted : (t.sender.sends s.sender).polled < s.completed) :
      Executed t s n .client .waitCompletion
        { s.advance .client .waitCompletion with
          sender := t.sender.withSends s.sender ((t.sender.sends s.sender).pollCq 1) }
  | receive : Executed t s n .daemon .benchmark (s.receive t n)
  | send : Executed t s n .client .benchmark (s.send t n)

theorem execute_executed (h : s.execute t hosts ibvModifyQp n side command = some s') :
    Executed t s n side command s' := by
  cases command with
  | sync =>
      rw [execute_sync] at h
      obtain ⟨-, heq⟩ := Option.ite_none_right_eq_some.mp h
      obtain rfl := Option.some.inj heq
      exact .quiet _ _ s.conn s.qp rfl rfl nofun
  | modifyQpToRts =>
      obtain ⟨_, _, qp, -, -, rfl⟩ := execute_modifyQpToRts h
      exact .quiet _ _ s.conn (Function.update s.qp side qp) rfl rfl nofun
  | postRecv wrId =>
      cases side with
      | daemon =>
          obtain rfl := Option.some.inj h
          exact .postRecv wrId
      | client => cases h
  | postSend wrId =>
      cases side with
      | daemon => cases h
      | client =>
          obtain rfl := Option.some.inj h
          exact .postSend wrId
  | waitCompletion =>
      cases side with
      | daemon =>
          obtain ⟨harrived, heq⟩ := Option.ite_none_right_eq_some.mp h
          obtain rfl := Option.some.inj heq
          exact .taken harrived
      | client =>
          obtain ⟨hcompleted, heq⟩ := Option.ite_none_right_eq_some.mp h
          obtain rfl := Option.some.inj heq
          exact .polled hcompleted
  | benchmark =>
      cases side with
      | daemon =>
          obtain rfl := Option.some.inj h
          exact .receive
      | client =>
          obtain rfl := Option.some.inj h
          exact .send
  | closeSocket =>
      cases side with
      | daemon =>
          obtain rfl := Option.some.inj h
          exact .quiet _ _ _ s.qp rfl rfl nofun
      | client =>
          obtain rfl := Option.some.inj h
          exact .quiet _ _ _ s.qp rfl rfl nofun

theorem send_cases (t : Test σ τ) (s : State σ τ) (n : Nat) :
    ∃ k, (∃ sender, t.sender.round s.sender k = some sender ∧
        s.send t n = { s with
          sender := sender
          inFlight := s.inFlight +
            ((t.sender.sends sender).posted.length - (t.sender.sends s.sender).posted.length) }) ∨
      (t.sender.round s.sender k = none ∧ s.send t n = s.advance .client .benchmark) := by
  unfold State.send
  dsimp only
  refine ⟨min n (min (s.completed - (t.sender.sends s.sender).polled) 32), ?_⟩
  split
  · next sender hround => exact .inl ⟨sender, hround, rfl⟩
  · next hround => exact .inr ⟨hround, rfl⟩

/-- The poll of a round of the server's benchmark. -/
def State.poll (t : Test σ τ) (s : State σ τ) (n : Nat) : PollResult :=
  pollResult (t.receiver.recvs s.receiver).posted s.arrived s.taken n

theorem receive_cases (t : Test σ τ) (s : State σ τ) (n : Nat) :
    (∃ receiver, t.receiver.round s.receiver (s.poll t n) = some receiver ∧
        s.receive t n = { s with
          receiver := receiver
          taken := if t.receiver.polls s.receiver then s.taken + (s.poll t n).numCompletions
            else s.taken }) ∨
      (t.receiver.round s.receiver (s.poll t n) = none ∧
        s.receive t n = s.advance .daemon .benchmark) := by
  unfold State.receive
  dsimp only
  split
  · next receiver hround => exact .inl ⟨receiver, hround, rfl⟩
  · next hround => exact .inr ⟨hround, rfl⟩

theorem poll_le (t : Test σ τ) (s : State σ τ) (n : Nat) : (s.poll t n).numCompletions ≤ n := by
  unfold State.poll PollResult.numCompletions pollResult
  simp only [List.length_take]
  omega

/-- What a step does. -/
inductive Stepped (t : Test σ τ) (hosts : Hosts) (ibvModifyQp : ModifyQp) (s : State σ τ) :
    Action → State σ τ → Prop
  | socket (action : Socket.Action) (conn : Connection) (hmay : s.MayAct action)
      (hsocket : Socket.step hosts.plan s.conn action = some conn) :
      Stepped t hosts ibvModifyQp s (.socket action) { s with conn := conn }
  | run (side : Side) (n : Nat) (command : Command) (rest : List Command) (s' : State σ τ)
      (hleft : s.left side = command :: rest)
      (hexecute : s.execute t hosts ibvModifyQp n side command = some s') :
      Stepped t hosts ibvModifyQp s (.run side n) s'
  | visit (side : Side) (n : Nat) (rest : List Command) (s' : State σ τ)
      (hleft : s.left side = .closeSocket :: .benchmark :: rest)
      (hexecute : s.execute t hosts ibvModifyQp n side .benchmark = some s')
      (hstays : s'.conn = s.conn ∧ s'.done = s.done ∧ s'.left = s.left) :
      Stepped t hosts ibvModifyQp s (.visit side n) s'
  | arrive (hflight : 0 < s.inFlight) :
      Stepped t hosts ibvModifyQp s .deliver
        { s with inFlight := s.inFlight - 1, arrived := s.arrived + 1 }
  | refuse (hflight : 0 < s.inFlight) (hrefuses : ¬ s.Takes t) :
      Stepped t hosts ibvModifyQp s .deliver
        { s with inFlight := s.inFlight - 1, refused := s.refused + 1 }
  | lose (hflight : 0 < s.inFlight) :
      Stepped t hosts ibvModifyQp s .lose { s with inFlight := s.inFlight - 1 }
  | complete :
      Stepped t hosts ibvModifyQp s .complete { s with completed := s.completed + 1 }

theorem step_stepped {action : Action}
    (hstep : WriteTest.step t hosts ibvModifyQp s action = some s') :
    Stepped t hosts ibvModifyQp s action s' := by
  cases action with
  | socket action =>
      obtain ⟨hmay, hmap⟩ := Option.ite_none_right_eq_some.mp hstep
      obtain ⟨conn, hsocket, rfl⟩ := Option.map_eq_some_iff.mp hmap
      exact .socket action conn hmay hsocket
  | run side n =>
      unfold WriteTest.step at hstep
      dsimp only at hstep
      split at hstep
      · cases hstep
      · next command rest hleft => exact .run side n command rest s' hleft hstep
  | visit side n =>
      obtain ⟨rest, hleft, hexecute, hsame⟩ := step_visit hstep
      exact .visit side n rest s' hleft hexecute (visit_stays hleft hexecute hsame)
  | deliver =>
      obtain ⟨hflight, hif⟩ := Option.ite_none_right_eq_some.mp hstep
      split at hif
      · obtain rfl := Option.some.inj hif
        exact .arrive hflight
      · next hrefuses =>
        obtain rfl := Option.some.inj hif
        exact .refuse hflight hrefuses
  | lose =>
      obtain ⟨hflight, hsome⟩ := Option.ite_none_right_eq_some.mp hstep
      obtain rfl := Option.some.inj hsome
      exact .lose hflight
  | complete =>
      obtain ⟨-, hsome⟩ := Option.ite_none_right_eq_some.mp hstep
      obtain rfl := Option.some.inj hsome
      exact .complete

/-! ### The counters -/

/-- The counter of the client, where its script has come to `done`. -/
structure Posted {sender : Sender σ} (steady : sender.Steady) (s : σ) (done : List Command) :
    Prop where
  credited : steady.credited s
  posted : (sender.sends s).posted.length = weight Command.posts done + sender.spent s
  polled : (sender.sends s).polled = weight Command.waits done
  spent_le : sender.spent s ≤ 10
  finished : .benchmark ∈ done → sender.spent s = 10

/-- The counter of the server, where its script has come to `done` and it has polled `taken`
completions. -/
structure Polled {receiver : Receiver τ} (steady : receiver.Steady) (t : τ) (taken : Nat)
    (done left : List Command) : Prop where
  good : steady.good t
  taken : weight Command.waits done + steady.count t ≤ taken
  finished : .benchmark ∈ done → 10 ≤ steady.count t
  opened : steady.count t = 0 ∨ .benchmark ∈ done ∨ benchmarks left = true

section Posted

variable {sender : Sender σ} {steady : sender.Steady} {a a' : σ} {done : List Command}

theorem Posted.start : Posted steady sender.start [] := by
  refine ⟨steady.credited_start, ?_, ?_, ?_, nofun⟩
  · rw [sender.sends_start, sender.spent_start]
    rfl
  · rw [sender.sends_start]
    rfl
  · rw [sender.spent_start]
    exact Nat.zero_le _

theorem Posted.quiet (h : Posted steady a done) (hposts : command.posts = 0)
    (hwaits : command.waits = 0) (hne : command ≠ .benchmark) :
    Posted steady a (done ++ [command]) := by
  refine ⟨h.credited, ?_, ?_, h.spent_le, fun hmem => h.finished ?_⟩
  · simpa [hposts] using h.posted
  · simpa [hwaits] using h.polled
  · simpa [hne.symm] using hmem

theorem Posted.postSend (h : Posted steady a done) (wrId : Nat) :
    Posted steady (sender.withSends a ((sender.sends a).postSend wrId))
      (done ++ [.postSend wrId]) := by
  have hposted := h.posted
  refine ⟨steady.credited_withSends _ _ h.credited, ?_, ?_, ?_, fun hmem => ?_⟩
  · rw [sender.sends_withSends, sender.spent_withSends]
    simp [Command.posts]
    omega
  · rw [sender.sends_withSends]
    simpa [Command.waits] using h.polled
  · rw [sender.spent_withSends]
    exact h.spent_le
  · rw [sender.spent_withSends]
    exact h.finished (by simpa using hmem)

theorem Posted.waited (h : Posted steady a done) :
    Posted steady (sender.withSends a ((sender.sends a).pollCq 1))
      (done ++ [.waitCompletion]) := by
  refine ⟨steady.credited_withSends _ _ h.credited, ?_, ?_, ?_, fun hmem => ?_⟩
  · rw [sender.sends_withSends, sender.spent_withSends]
    simpa [Command.posts] using h.posted
  · rw [sender.sends_withSends]
    simpa [Command.waits] using h.polled
  · rw [sender.spent_withSends]
    exact h.spent_le
  · rw [sender.spent_withSends]
    exact h.finished (by simpa using hmem)

theorem Posted.round (h : Posted steady a done) (hround : sender.round a n = some a') :
    Posted steady a' done := by
  -- what the round has posted it has also counted
  obtain ⟨hpolled, hle, -⟩ := steady.round_sends h.credited hround
  have hspent := steady.round_spent _ _ _ h.credited hround
  have hten := sender.round_spent _ _ _ hround h.spent_le
  have hposted := h.posted
  refine ⟨steady.round_credited _ _ _ h.credited hround, by omega, hpolled.trans h.polled, hten,
    fun hmem => ?_⟩
  have hold := h.finished hmem
  omega

theorem Posted.returned (h : Posted steady a done) (hround : sender.round a n = none) :
    Posted steady a (done ++ [.benchmark]) := by
  have hten := steady.round_none _ _ h.credited hround
  refine ⟨h.credited, ?_, ?_, h.spent_le, fun _ => hten⟩
  · simpa [Command.posts] using h.posted
  · simpa [Command.waits] using h.polled

end Posted

section Polled

variable {receiver : Receiver τ} {steady : receiver.Steady} {a a' : τ} {taken : Nat}
  {done left : List Command}

theorem Polled.start : Polled steady receiver.start 0 [] left := by
  refine ⟨steady.good_start, ?_, nofun, .inl steady.count_start⟩
  rw [steady.count_start]
  exact Nat.le_refl _

/-- The next command is finished, and is not the benchmark. -/
theorem Polled.advance (h : Polled steady a taken done left) {rest : List Command}
    (hleft : left = command :: rest) (hne : command ≠ .benchmark) (hgood : steady.good a')
    (hcount : steady.count a' = steady.count a) :
    Polled steady a' (taken + command.waits) (done ++ [command]) left.tail := by
  have htaken := h.taken
  refine ⟨hgood, ?_, fun hmem => ?_, ?_⟩
  · rw [weight_append, weight_cons, weight_nil, hcount]
    omega
  · rw [hcount]
    exact h.finished (by simpa [hne.symm] using hmem)
  · rw [hcount]
    rcases h.opened with hzero | hmem | hbenchmark
    · exact .inl hzero
    · exact .inr (.inl (List.mem_append_left _ hmem))
    · -- the command was the `closeSocket` before the benchmark
      rw [hleft] at hbenchmark ⊢
      rcases benchmarks_cons hbenchmark with heq | ⟨-, hhead⟩
      · exact absurd heq hne
      · exact .inr (.inr (benchmarks_of_head hhead))

theorem Polled.round {poll : PollResult} (h : Polled steady a taken done left)
    (hbenchmarks : benchmarks left = true) (hround : receiver.round a poll = some a') :
    Polled steady a' (if receiver.polls a then taken + poll.numCompletions else taken) done
      left := by
  have hcount := steady.round_count _ _ _ h.good hround
  have hgain := steady.gain_le poll
  have htaken := h.taken
  by_cases hpolls : receiver.polls a = true
  · rw [if_pos hpolls] at hcount ⊢
    refine ⟨steady.round_good _ _ _ h.good hround, by omega, fun hmem => ?_,
      .inr (.inr hbenchmarks)⟩
    have hten := h.finished hmem
    omega
  · -- a visit that does not poll
    rw [if_neg hpolls] at hcount ⊢
    refine ⟨steady.round_good _ _ _ h.good hround, by omega, fun hmem => ?_,
      .inr (.inr hbenchmarks)⟩
    have hten := h.finished hmem
    omega

theorem Polled.returned {poll : PollResult} (h : Polled steady a taken done left)
    (hround : receiver.round a poll = none) :
    Polled steady a taken (done ++ [.benchmark]) left.tail := by
  refine ⟨h.good, ?_, fun _ => steady.round_none _ _ h.good hround, .inr (.inl (by simp))⟩
  simpa [Command.waits] using h.taken

end Polled

/-- What a test has counted. -/
structure Tallied (sending : t.sender.Steady) (receiving : t.receiver.Steady) (s : State σ τ) :
    Prop where
  posted : Posted sending s.sender (s.done .client)
  polled : Polled receiving s.receiver s.taken (s.done .daemon) (s.left .daemon)

variable {sending : t.sender.Steady} {receiving : t.receiver.Steady}

theorem Tallied.initial (h : Initial t s) : Tallied sending receiving s := by
  rw [h.2]
  exact ⟨.start, .start⟩

/-- A step of the benchmark of the server that is running. -/
theorem Tallied.receive (h : Tallied sending receiving s)
    (hbenchmarks : benchmarks (s.left .daemon) = true) (n : Nat) :
    Tallied sending receiving (s.receive t n) := by
  rcases receive_cases t s n with ⟨receiver, hround, heq⟩ | ⟨hround, heq⟩
  · rw [heq]
    exact ⟨h.posted, h.polled.round hbenchmarks hround⟩
  · rw [heq]
    exact ⟨h.posted, h.polled.returned hround⟩

/-- A step of the benchmark of the client. -/
theorem Tallied.send (h : Tallied sending receiving s) (n : Nat) :
    Tallied sending receiving (s.send t n) := by
  obtain ⟨k, ⟨sender, hround, heq⟩ | ⟨hround, heq⟩⟩ := send_cases t s n
  · rw [heq]
    exact ⟨h.posted.round hround, h.polled⟩
  · rw [heq]
    exact ⟨h.posted.returned hround, h.polled⟩

theorem Tallied.benchmark (h : Tallied sending receiving s)
    (hbenchmarks : benchmarks (s.left side) = true)
    (hexecute : s.execute t hosts ibvModifyQp n side .benchmark = some s') :
    Tallied sending receiving s' := by
  cases side with
  | daemon =>
      rw [← Option.some.inj hexecute]
      exact h.receive hbenchmarks n
  | client =>
      rw [← Option.some.inj hexecute]
      exact h.send n

/-- Every step of a host keeps the counters. -/
theorem Tallied.execute (h : Tallied sending receiving s) {rest : List Command}
    (hleft : s.left side = command :: rest) (hexecuted : Executed t s n side command s') :
    Tallied sending receiving s' := by
  obtain ⟨hposted, hpolled⟩ := id h
  cases hexecuted with
  | quiet side command conn qp hposts hwaits hne =>
      cases side with
      | daemon =>
          refine ⟨hposted, ?_⟩
          have hadvance := hpolled.advance hleft hne hpolled.good rfl
          rw [hwaits] at hadvance
          exact hadvance
      | client => exact ⟨hposted.quiet hposts hwaits hne, hpolled⟩
  | postRecv wrId =>
      exact ⟨hposted, hpolled.advance hleft nofun (receiving.good_withRecvs _ _ hpolled.good)
        (receiving.count_withRecvs ..)⟩
  | taken harrived => exact ⟨hposted, hpolled.advance hleft nofun hpolled.good rfl⟩
  | postSend wrId => exact ⟨hposted.postSend wrId, hpolled⟩
  | polled hcompleted => exact ⟨hposted.waited, hpolled⟩
  | receive => exact h.receive (benchmarks_of_head (by rw [hleft]; rfl)) n
  | send => exact h.send n

/-- Every step keeps the counters. -/
theorem Tallied.step (h : Tallied sending receiving s) {action : Action}
    (hstep : WriteTest.step t hosts ibvModifyQp s action = some s') :
    Tallied sending receiving s' := by
  cases step_stepped hstep with
  | run side n command rest _ hleft hexecute =>
      exact h.execute hleft (execute_executed hexecute)
  | visit side n rest _ hleft hexecute hstays => exact h.benchmark (by rw [hleft]; rfl) hexecute
  | socket | arrive | refuse | lose | complete => exact ⟨h.posted, h.polled⟩

/-! ### Nothing is lost -/

/-- How many writes an action loses. -/
def Action.lost : Action → Nat
  | .lose => 1
  | _ => 0

/-- How many completions the server may get in an action. -/
def Action.asks : Action → Nat
  | .run .daemon n | .visit .daemon n => n
  | _ => 0

/-- The writes that are posted have arrived or are on their way. -/
def Lossless (t : Test σ τ) (s : State σ τ) : Prop :=
  (t.sender.sends s.sender).posted.length ≤ s.arrived + s.inFlight

/-- The completions that the server has polled have been waited for or counted. -/
def Exact (receiving : t.receiver.Steady) (s : State σ τ) : Prop :=
  s.taken ≤ weight Command.waits (s.done .daemon) + receiving.count s.receiver

/-- No write has been lost and every completion has been counted. -/
structure Whole (receiving : t.receiver.Steady) (s : State σ τ) : Prop where
  lossless : Lossless t s
  exact : Exact receiving s

/-- What a host posts is on its way. -/
theorem Executed.flow (hcredited : sending.credited s.sender)
    (hexecuted : Executed t s n side command s') :
    s'.arrived = s.arrived ∧ s'.completed = s.completed ∧
      s'.inFlight + (t.sender.sends s.sender).posted.length =
        s.inFlight + (t.sender.sends s'.sender).posted.length := by
  cases hexecuted with
  | quiet side command conn qp hposts hwaits hne => exact ⟨rfl, rfl, rfl⟩
  | postRecv wrId => exact ⟨rfl, rfl, rfl⟩
  | taken harrived => exact ⟨rfl, rfl, rfl⟩
  | postSend wrId =>
      refine ⟨rfl, rfl, ?_⟩
      rw [t.sender.sends_withSends]
      simp
      omega
  | polled hcompleted =>
      refine ⟨rfl, rfl, ?_⟩
      rw [t.sender.sends_withSends]
      rfl
  | receive =>
      rcases receive_cases t s n with ⟨receiver, -, heq⟩ | ⟨-, heq⟩ <;> rw [heq] <;>
        exact ⟨rfl, rfl, rfl⟩
  | send =>
      obtain ⟨k, ⟨sender, hround, heq⟩ | ⟨hround, heq⟩⟩ := send_cases t s n
      · obtain ⟨-, hle, -⟩ := sending.round_sends hcredited hround
        rw [heq]
        refine ⟨rfl, rfl, ?_⟩
        dsimp only
        omega
      · rw [heq]
        exact ⟨rfl, rfl, rfl⟩

/-- A poll that returns nothing. -/
def noPoll : PollResult := ⟨[], Nat.zero_le _⟩

theorem Receiver.Steady.gain_noPoll {receiver : Receiver τ} (steady : receiver.Steady) :
    steady.gain noPoll = 0 :=
  Nat.le_zero.mp (steady.gain_le noPoll)

/-- What the server takes it waits for, or counts as far as the poll gains. -/
theorem Executed.gained (hgood : receiving.good s.receiver)
    (hexecuted : Executed t s n side command s') :
    ∃ poll : PollResult, poll.numCompletions ≤ (Action.run side n).asks ∧
      s'.taken + (weight Command.waits (s.done .daemon) + receiving.count s.receiver) +
          receiving.gain poll =
        s.taken + (weight Command.waits (s'.done .daemon) + receiving.count s'.receiver) +
          poll.numCompletions := by
  have hnone := receiving.gain_noPoll
  have hempty : noPoll.numCompletions = 0 := rfl
  cases hexecuted with
  | quiet side command conn qp hposts hwaits hne =>
      refine ⟨noPoll, Nat.zero_le _, ?_⟩
      have hweight : weight Command.waits ((s.advance side command).done .daemon) =
          weight Command.waits (s.done .daemon) := by
        rw [weight_advance, hwaits, ite_self, Nat.add_zero]
      dsimp only
      rw [hweight, hnone, hempty]
      rfl
  | postRecv wrId =>
      refine ⟨noPoll, Nat.zero_le _, ?_⟩
      have hweight := weight_advance_self Command.waits s .daemon (.postRecv wrId)
      dsimp only
      rw [hweight, receiving.count_withRecvs, hnone, hempty]
      rfl
  | taken harrived =>
      refine ⟨noPoll, Nat.zero_le _, ?_⟩
      have hweight := weight_advance_self Command.waits s .daemon .waitCompletion
      have hone : Command.waitCompletion.waits = 1 := rfl
      dsimp only
      rw [hweight, hone, hnone, hempty]
      change s.taken + 1 + (_ + receiving.count s.receiver) + 0 =
        s.taken + (_ + receiving.count s.receiver) + 0
      omega
  | postSend wrId => exact ⟨noPoll, Nat.zero_le _, by rw [hnone, hempty]; rfl⟩
  | polled hcompleted => exact ⟨noPoll, Nat.zero_le _, by rw [hnone, hempty]; rfl⟩
  | receive =>
      rcases receive_cases t s n with ⟨receiver, hround, heq⟩ | ⟨-, heq⟩
      · have hcount := receiving.round_count _ _ _ hgood hround
        rw [heq]
        by_cases hpolls : t.receiver.polls s.receiver = true
        · rw [if_pos hpolls] at hcount
          refine ⟨s.poll t n, poll_le t s n, ?_⟩
          dsimp only
          rw [if_pos hpolls]
          omega
        · rw [if_neg hpolls] at hcount
          refine ⟨noPoll, Nat.zero_le _, ?_⟩
          dsimp only
          rw [if_neg hpolls, hcount, hnone, hempty]
      · refine ⟨noPoll, Nat.zero_le _, ?_⟩
        rw [heq, weight_advance_self, hnone, hempty]
        rfl
  | send =>
      obtain ⟨k, ⟨sender, -, heq⟩ | ⟨-, heq⟩⟩ := send_cases t s n
      · exact ⟨noPoll, Nat.zero_le _, by rw [heq, hnone, hempty]⟩
      · exact ⟨noPoll, Nat.zero_le _, by rw [heq, hnone, hempty]; rfl⟩

/-- A write that is posted arrives, is on its way or is lost. -/
theorem Inv.flow (h : Inv t hosts s) (htallied : Tallied sending receiving s) {action : Action}
    (hstep : WriteTest.step t hosts ibvModifyQp s action = some s') :
    s'.arrived + s'.inFlight + action.lost + (t.sender.sends s.sender).posted.length =
      s.arrived + s.inFlight + (t.sender.sends s'.sender).posted.length := by
  cases step_stepped hstep with
  | socket => rfl
  | run side n command rest _ hleft hexecute | visit side n rest _ hleft hexecute hstays =>
      obtain ⟨harrived, -, hflow⟩ := (execute_executed hexecute).flow htallied.posted.credited
      rw [harrived]
      change s.arrived + s'.inFlight + 0 + _ = _
      omega
  | arrive hflight =>
      have hsum : s.arrived + 1 + (s.inFlight - 1) + 0 = s.arrived + s.inFlight := by omega
      exact congrArg (· + (t.sender.sends s.sender).posted.length) hsum
  -- the server has a receive for every write that is on its way
  | refuse hflight hrefuses => exact absurd (h.takes hflight) hrefuses
  | lose hflight =>
      have hsum : s.arrived + (s.inFlight - 1) + 1 = s.arrived + s.inFlight := by omega
      exact congrArg (· + (t.sender.sends s.sender).posted.length) hsum
  | complete => rfl

theorem Tallied.gained (h : Tallied sending receiving s) {action : Action}
    (hstep : WriteTest.step t hosts ibvModifyQp s action = some s') :
    ∃ poll : PollResult, poll.numCompletions ≤ action.asks ∧
      s'.taken + (weight Command.waits (s.done .daemon) + receiving.count s.receiver) +
          receiving.gain poll =
        s.taken + (weight Command.waits (s'.done .daemon) + receiving.count s'.receiver) +
          poll.numCompletions := by
  cases step_stepped hstep with
  | run side n command rest _ hleft hexecute =>
      exact (execute_executed hexecute).gained h.polled.good
  | visit side n rest _ hleft hexecute hstays =>
      obtain ⟨poll, hle, heq⟩ := (execute_executed hexecute).gained h.polled.good
      refine ⟨poll, ?_, heq⟩
      cases side <;> exact hle
  | socket | arrive | refuse | lose | complete =>
      refine ⟨noPoll, Nat.zero_le _, ?_⟩
      rw [receiving.gain_noPoll]
      rfl

/-- The counter stays exact as long as each poll gains what it returns. -/
theorem Exact.step (h : Exact receiving s) (htallied : Tallied sending receiving s)
    {action : Action} (hstep : WriteTest.step t hosts ibvModifyQp s action = some s')
    (hgain : ∀ poll : PollResult, poll.numCompletions ≤ action.asks →
      receiving.gain poll = poll.numCompletions) : Exact receiving s' := by
  -- the step adds as much to `taken` as to the counters
  obtain ⟨poll, hle, heq⟩ := htallied.gained hstep
  have hexact := hgain poll hle
  unfold Exact at h ⊢
  omega

theorem Whole.step (h : Whole receiving s) (hinv : Inv t hosts s)
    (htallied : Tallied sending receiving s) {action : Action}
    (hstep : WriteTest.step t hosts ibvModifyQp s action = some s') (hlost : action.lost = 0)
    (hgain : ∀ poll : PollResult, poll.numCompletions ≤ action.asks →
      receiving.gain poll = poll.numCompletions) : Whole receiving s' := by
  refine ⟨?_, h.exact.step htallied hstep hgain⟩
  have hflow := hinv.flow htallied hstep
  have hlossless := h.lossless
  unfold Lossless at hlossless ⊢
  omega

/-- No step makes a state whole. -/
theorem Whole.of_step (h : Whole receiving s') (hinv : Inv t hosts s)
    (htallied : Tallied sending receiving s) {action : Action}
    (hstep : WriteTest.step t hosts ibvModifyQp s action = some s') : Whole receiving s := by
  -- a poll never gains more than it returns, and no step takes a loss back
  obtain ⟨poll, -, heq⟩ := htallied.gained hstep
  have hgain := receiving.gain_le poll
  have hflow := hinv.flow htallied hstep
  obtain ⟨hlossless, hexact⟩ := h
  unfold Lossless at hlossless
  unfold Exact at hexact
  refine ⟨?_, ?_⟩
  · unfold Lossless
    omega
  · unfold Exact
    omega

end WriteTest
end FlashReduce
