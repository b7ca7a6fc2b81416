import FlashReduce.WriteTest.Progress

/-!
# When a write test can end

* `Test.Balanced`: the server waits for as many completions as the client posts writes, and
  waits for none of them before the client has posted them.
* `Orderly.advances`: in a whole state that is not the end some step brings the test forward.  A
  client that waits in a call waits for a server that does not wait for the client, and a
  server that has no completions left waits for a client that can go on.
* `Test.completes`: so a test can end exactly in the states that are whole.
-/

namespace FlashReduce
namespace WriteTest

open Library Rdma Benchmark Socket

variable {σ τ : Type} {t : Test σ τ} {hosts : Hosts} {ibvModifyQp : ModifyQp}
  {s s' : State σ τ} {side : Side} {command : Command} {n : Nat}

/-! ### Balanced tests -/

/-- The two scripts wait for each other's steps only, and for all of them. -/
structure Test.Balanced (t : Test σ τ) : Prop where
  once : ∀ side, (t.rest side).count .benchmark = 1
  balance : weight Command.waits (t.rest .daemon) = weight Command.posts (t.rest .client)
  client : ∀ wrId, .postRecv wrId ∉ t.rest .client
  server : ∀ wrId, .postSend wrId ∉ t.rest .daemon
  /-- The client waits for what it has posted. -/
  polled : ∀ before after, t.rest .client = before ++ .waitCompletion :: after →
    weight Command.waits before < weight Command.sends before
  /-- The benchmark of the server is the last command that waits. -/
  last : ∀ before after, t.rest .daemon = before ++ .benchmark :: after →
    .waitCompletion ∉ after
  /-- Before it closes its socket the server waits only for what the client has posted one
  `sync` before. -/
  ahead : ∀ k, weightBefore Command.polls (t.parts .daemon).before k ≤
    weightBefore Command.sends (t.rest .client) k

/-- What is known of every state of a run. -/
structure Orderly (hosts : Hosts) (sending : t.sender.Steady) (receiving : t.receiver.Steady)
    (s : State σ τ) : Prop extends Inv t hosts s where
  drained : Drained s
  tallied : Tallied sending receiving s

variable {sending : t.sender.Steady} {receiving : t.receiver.Steady}

theorem Orderly.initial (h : Initial t s) : Orderly hosts sending receiving s where
  toInv := .initial h
  drained := .initial h
  tallied := .initial h

theorem Orderly.step (h : Orderly hosts sending receiving s) (happlies : AppliesMask ibvModifyQp)
    (hconforms : Conforms t.qpType ibvModifyQp) {action : Action}
    (hguard : Delivers hosts s action)
    (hstep : WriteTest.step t hosts ibvModifyQp s action = some s') :
    Orderly hosts sending receiving s' where
  toInv := h.toInv.step happlies hconforms hguard hstep
  drained := h.drained.step h.synced hguard hstep
  tallied := h.tallied.step hstep

theorem orderly_of_reachable (happlies : AppliesMask ibvModifyQp)
    (hconforms : Conforms t.qpType ibvModifyQp)
    (hreach : (machine t hosts ibvModifyQp).Reachable (Delivers hosts) s) :
    Orderly hosts sending receiving s := by
  refine hreach.invariant (Orderly hosts sending receiving) ?_ ?_
  · intro s hinit
    exact .initial hinit
  · intro s action s' h hguard hstep
    exact h.step happlies hconforms hguard hstep

/-! ### Where a script is -/

/-- A script is past `modify_qp_to_rts` at every command after it. -/
theorem Synced.split (h : Synced t hosts s) {rest : List Command}
    (hleft : s.left side = command :: rest) (hsync : command ≠ .sync)
    (hmodify : command ≠ .modifyQpToRts) :
    ∃ before, s.done side = .sync :: .modifyQpToRts :: before ∧
      t.rest side = before ++ command :: rest := by
  have hscript := h.script side
  rw [hleft, Test.script] at hscript
  rcases hdone : s.done side with _ | ⟨first, _ | ⟨second, before⟩⟩ <;> rw [hdone] at hscript
  · exact absurd (List.cons.inj hscript).1 hsync
  · exact absurd (List.cons.inj (List.cons.inj hscript).2).1 hmodify
  · obtain ⟨rfl, htail⟩ := List.cons.inj hscript
    obtain ⟨rfl, hrest⟩ := List.cons.inj htail
    exact ⟨before, rfl, hrest.symm⟩

/-- A command with no `closeSocket` before it comes before the `closeSocket`. -/
theorem Script.before_eq {script : Script} {before after : List Command}
    (hrest : script.rest = before ++ command :: after) (hopen : .closeSocket ∉ before)
    (hne : command ≠ .closeSocket) : ∃ more, script.before = before ++ command :: more := by
  rw [Script.rest] at hrest
  rcases List.append_eq_append_iff.mp hrest with ⟨more, hbefore, htail⟩ | ⟨more, hbefore, htail⟩
  · cases more with
    | nil => exact absurd (List.cons.inj htail).1.symm hne
    | cons first more =>
        rw [← (List.cons.inj htail).1] at hbefore
        refine absurd ?_ hopen
        rw [hbefore]
        simp
  · cases more with
    | nil => exact absurd (List.cons.inj htail).1 hne
    | cons first more =>
        rw [(List.cons.inj htail).1]
        exact ⟨more, hbefore⟩

theorem Test.Balanced.count_script (hbalanced : t.Balanced) (side : Side) :
    (t.script side).count .benchmark = 1 := by
  simpa [Test.script, List.count_cons] using hbalanced.once side

/-- A benchmark is done or left. -/
theorem Test.Balanced.count_le (hbalanced : t.Balanced) (h : Synced t hosts s) (side : Side) :
    (s.done side).count .benchmark + (s.left side).count .benchmark = 1 := by
  rw [← List.count_append, h.script side]
  exact hbalanced.count_script side

/-- What the commands of the client send it has posted when they are finished. -/
theorem Orderly.sends_le (h : Orderly hosts sending receiving s) (hbalanced : t.Balanced) :
    weight Command.sends (s.done .client) ≤ (t.sender.sends s.sender).posted.length := by
  rw [weight_sends, h.tallied.posted.posted]
  have hone := hbalanced.count_le h.synced .client
  by_cases hmem : .benchmark ∈ s.done .client
  · rw [h.tallied.posted.finished hmem]
    omega
  · rw [List.count_eq_zero.mpr hmem]
    omega

/-! ### Steps forward -/

theorem Orderly.advances_run (h : Orderly hosts sending receiving s) {rest : List Command}
    (hleft : s.left side = command :: rest)
    (hexecute : s.execute t hosts ibvModifyQp n side command = some s')
    (hone : side = .daemon → n ≤ 1)
    (hpoll : side = .daemon → command = .benchmark → ∀ receiver,
      t.receiver.round s.receiver (s.poll t n) = some receiver →
        t.receiver.polls s.receiver = true → 0 < receiving.gain (s.poll t n)) :
    Advances hosts ibvModifyQp sending receiving s := by
  refine ⟨.run side n, s', ⟨rfl, ?_, ?_⟩, ?_⟩
  · cases side with
    | daemon => exact hone rfl
    | client => trivial
  · change WriteTest.step t hosts ibvModifyQp s (.run side n) = some s'
    unfold WriteTest.step
    dsimp only
    rw [hleft]
    exact hexecute
  · exact (execute_executed hexecute).work_lt (execute_moved hexecute) h.tallied
      (by rw [hleft]; simp) hpoll

theorem Orderly.advances_deliver (h : Orderly hosts sending receiving s)
    (hflight : 0 < s.inFlight) : Advances hosts ibvModifyQp sending receiving s := by
  refine ⟨.deliver, { s with inFlight := s.inFlight - 1, arrived := s.arrived + 1 },
    ⟨rfl, trivial, ?_⟩, ?_⟩
  · change (if 0 < s.inFlight then _ else _) = _
    rw [if_pos hflight, if_pos (h.takes hflight)]
  · unfold State.work State.calls
    dsimp only
    omega

theorem Orderly.advances_complete (h : Orderly hosts sending receiving s)
    (harrived : s.completed < s.arrived) : Advances hosts ibvModifyQp sending receiving s := by
  have hflow := h.counted.flow
  refine ⟨.complete, { s with completed := s.completed + 1 }, ⟨rfl, harrived, ?_⟩, ?_⟩
  · change (if _ < _ then _ else _) = _
    rw [if_pos (by omega)]
  · unfold State.work State.calls
    dsimp only
    omega

/-- A host that is at a `sync` goes on or waits for its peer. -/
theorem Orderly.advances_sync (h : Orderly hosts sending receiving s) {rest : List Command}
    (hleft : s.left side = .sync :: rest) :
    Advances hosts ibvModifyQp sending receiving s ∨ Waits s side := by
  have hhead : (s.left side).head? = some .sync := by
    rw [hleft]
    rfl
  have hopen := h.synced.open_of_sync hhead
  -- its call has returned, has still to be made, or is under way
  by_cases hbusy : (s.conn.endpoint side).phase = .idle
  · rcases Nat.lt_or_ge (syncs (s.done side)) (s.conn.endpoint side).index with hreturned | hle
    · have hexecute : s.execute t hosts ibvModifyQp 0 side .sync = some (s.advance side .sync) := by
        rw [execute_sync, if_pos hreturned]
      exact .inl (h.advances_run hleft hexecute (fun _ => Nat.zero_le _) nofun)
    · have hindex := Nat.le_antisymm hle (h.synced.positioned side).le
      have hstep : Socket.step hosts.plan s.conn (.call side) = some (s.conn.setEndpoint side
          ((s.conn.endpoint side).enter (hosts.plan side (s.conn.endpoint side).index))) :=
        if_pos ⟨hbusy, hopen⟩
      exact .inl (.socket h.synced (.call side) ⟨hhead, hindex⟩ trivial hstep)
  · exact h.synced.advances_busy h.drained hopen hbusy

/-- A client that is not at the end goes on or waits for the server. -/
theorem Orderly.advances_client (h : Orderly hosts sending receiving s)
    (happlies : AppliesMask ibvModifyQp) (hconforms : Conforms t.qpType ibvModifyQp)
    (hbalanced : t.Balanced) (hlossless : Lossless t s) (hleft : s.left .client ≠ []) :
    Advances hosts ibvModifyQp sending receiving s ∨ Waits s .client := by
  obtain ⟨command, rest, hleft⟩ := List.exists_cons_of_ne_nil hleft
  cases command with
  | sync => exact h.advances_sync hleft
  | modifyQpToRts =>
      have hhead : (s.left .client).head? = some .modifyQpToRts := by
        rw [hleft]
        rfl
      obtain ⟨s', hconnect⟩ := h.connects happlies hconforms hhead
      exact .inl (h.advances_run (n := 0) hleft hconnect nofun nofun)
  | postRecv wrId =>
      obtain ⟨before, -, hrest⟩ := h.synced.split hleft nofun nofun
      refine absurd ?_ (hbalanced.client wrId)
      rw [hrest]
      simp
  | postSend wrId => exact .inl (h.advances_run (n := 0) hleft rfl nofun nofun)
  | closeSocket => exact .inl (h.advances_run (n := 0) hleft rfl nofun nofun)
  | benchmark => exact .inl (h.advances_run (n := 0) hleft rfl nofun nofun)
  | waitCompletion =>
      refine .inl ?_
      rcases Nat.lt_or_ge (t.sender.sends s.sender).polled s.completed with hcompleted | hle
      · exact h.advances_run (n := 0) hleft (if_pos hcompleted) nofun nofun
      · rcases Nat.eq_zero_or_pos s.inFlight with hnone | hflight
        · -- what it waits for has arrived
          refine h.advances_complete ?_
          obtain ⟨before, hdone, hrest⟩ := h.synced.split hleft nofun nofun
          have hlt := hbalanced.polled before rest hrest
          have hpolled := h.tallied.posted.polled
          have hsends := h.sends_le hbalanced
          rw [hdone] at hpolled hsends
          simp only [weight_cons, Command.waits, Command.sends] at hpolled hsends
          unfold Lossless at hlossless
          omega
        · exact h.advances_deliver hflight

/-- The server is at a command that waits for more completions than the client has posted
writes. -/
def Starves (t : Test σ τ) (s : State σ τ) : Prop :=
  ∃ command rest, s.left .daemon = command :: rest ∧ 0 < command.polls ∧
    (t.sender.sends s.sender).posted.length <
      weight Command.polls (s.done .daemon) + command.polls

/-- Before its benchmark the server has counted nothing. -/
theorem Orderly.count_zero (h : Orderly hosts sending receiving s) (hbalanced : t.Balanced)
    {rest : List Command} (hleft : s.left .daemon = .waitCompletion :: rest) :
    receiving.count s.receiver = 0 := by
  obtain ⟨before, hdone, hrest⟩ := h.synced.split hleft nofun nofun
  rcases h.tallied.polled.opened with hzero | hmem | hhead
  · exact hzero
  · rw [hdone] at hmem
    obtain ⟨first, second, rfl⟩ := List.append_of_mem (show .benchmark ∈ before by simpa using hmem)
    rw [List.append_assoc, List.cons_append] at hrest
    exact absurd (by simp) (hbalanced.last first _ hrest)
  · rw [hleft] at hhead
    rcases benchmarks_cons hhead with heq | ⟨heq, -⟩ <;> cases heq

/-- One completion is returned when one has arrived. -/
theorem Orderly.poll_one (h : Orderly hosts sending receiving s) (harrived : s.taken < s.arrived) :
    0 < receiving.gain (s.poll t 1) := by
  have hcovered := (h.counted.covered h.synced).1
  have hflow := h.counted.flow
  have hone : (s.poll t 1).numCompletions = 1 := by
    unfold State.poll PollResult.numCompletions pollResult
    simp only [List.length_take, List.length_drop]
    omega
  rw [receiving.gain_single _ (Nat.le_of_eq hone), hone]
  exact Nat.one_pos

/-- A server that is not at the end goes on, or waits for the client. -/
theorem Orderly.advances_daemon (h : Orderly hosts sending receiving s)
    (happlies : AppliesMask ibvModifyQp) (hconforms : Conforms t.qpType ibvModifyQp)
    (hbalanced : t.Balanced) (hwhole : Whole receiving s) (hleft : s.left .daemon ≠ []) :
    Advances hosts ibvModifyQp sending receiving s ∨ Waits s .daemon ∨ Starves t s := by
  obtain ⟨command, rest, hleft⟩ := List.exists_cons_of_ne_nil hleft
  obtain ⟨hlossless, hexact⟩ := hwhole
  unfold Lossless at hlossless
  unfold Exact at hexact
  have hpolls := weight_polls (s.done .daemon)
  cases command with
  | sync => exact (h.advances_sync hleft).imp_right .inl
  | modifyQpToRts =>
      have hhead : (s.left .daemon).head? = some .modifyQpToRts := by
        rw [hleft]
        rfl
      obtain ⟨s', hconnect⟩ := h.connects happlies hconforms hhead
      exact .inl (h.advances_run (n := 0) hleft hconnect (fun _ => Nat.zero_le _) nofun)
  | postRecv wrId =>
      exact .inl (h.advances_run (n := 0) hleft rfl (fun _ => Nat.zero_le _) nofun)
  | postSend wrId =>
      obtain ⟨before, -, hrest⟩ := h.synced.split hleft nofun nofun
      refine absurd ?_ (hbalanced.server wrId)
      rw [hrest]
      simp
  | closeSocket =>
      exact .inl (h.advances_run (n := 0) hleft rfl (fun _ => Nat.zero_le _) nofun)
  | waitCompletion =>
      rcases Nat.lt_or_ge s.taken s.arrived with harrived | hle
      · exact .inl (h.advances_run (n := 0) hleft (if_pos harrived) (fun _ => Nat.zero_le _) nofun)
      · rcases Nat.eq_zero_or_pos s.inFlight with hnone | hflight
        · -- all that was posted has arrived and has been polled
          refine .inr (.inr ⟨_, rest, hleft, Nat.one_pos, ?_⟩)
          have hzero := h.count_zero hbalanced hleft
          change _ < _ + 1
          omega
        · exact .inl (h.advances_deliver hflight)
  | benchmark =>
      rcases Nat.lt_or_ge s.taken s.arrived with harrived | hle
      · exact .inl (h.advances_run (n := 1) hleft rfl (fun _ => Nat.le_refl _)
          fun _ _ _ _ _ => h.poll_one harrived)
      · rcases Nat.eq_zero_or_pos s.inFlight with hnone | hflight
        · by_cases hstuck : ∃ receiver,
            t.receiver.round s.receiver (s.poll t 1) = some receiver ∧
              t.receiver.polls s.receiver = true
          · -- the benchmark polls in vain
            obtain ⟨receiver, hround, hpolling⟩ := hstuck
            have hcount := receiving.round_open _ _ _ h.tallied.polled.good hround hpolling
            refine .inr (.inr ⟨_, rest, hleft, (by decide : 0 < 10), ?_⟩)
            change _ < _ + 10
            omega
          · exact .inl (h.advances_run (n := 1) hleft rfl (fun _ => Nat.le_refl _)
              fun _ _ receiver hround hpolling => absurd ⟨receiver, hround, hpolling⟩ hstuck)
        · exact .inl (h.advances_deliver hflight)

/-- While the server waits in a call, the client is before the end of its own and does not
wait. -/
theorem Orderly.client_of_waits (h : Orderly hosts sending receiving s)
    (hwaits : Waits s .daemon) : s.left .client ≠ [] ∧ ¬ Waits s .client := by
  obtain ⟨hsyscall, hunsent, -⟩ := hwaits
  obtain ⟨hindex, -, hhead⟩ := (h.synced.positioned .daemon).busy (busy_of_syscall hsyscall)
  change done .client .send (s.conn.endpoint .client) ≤ _ at hunsent
  rw [done_second (by decide)] at hunsent
  constructor
  · intro hnil
    have hle := (h.synced.positioned .client).le
    obtain ⟨rest, hleft⟩ := List.head?_eq_some_iff.mp hhead
    have hdaemon := congrArg syncs (h.synced.script .daemon)
    have hclient := congrArg syncs (h.synced.script .client)
    have hwaits : syncs (t.script .daemon) ≤ syncs (t.script .client) := by
      simpa [Test.script, Test.rest] using t.waits
    rw [syncs_append, hleft, syncs_cons, if_pos rfl] at hdaemon
    rw [hnil, List.append_nil] at hclient
    omega
  · intro hclient
    have hsent := hclient.unsent
    have hphase : (s.conn.endpoint .daemon).phase = .second := by
      cases hphase : (s.conn.endpoint .daemon).phase with
      | second => rfl
      | idle | first =>
          rw [hphase] at hsyscall
          cases hsyscall
    change done .daemon .send (s.conn.endpoint .daemon) ≤ _ at hsent
    rw [done, hphase, if_pos ⟨rfl, rfl⟩] at hsent
    omega

theorem Command.not_of_polls (hpolls : 0 < command.polls) :
    command ≠ .sync ∧ command ≠ .modifyQpToRts ∧ command ≠ .closeSocket := by
  refine ⟨?_, ?_, ?_⟩ <;> rintro rfl <;> cases hpolls

/-- What the server waits for before its `closeSocket`, the client sends before its `sync` of
the same number. -/
theorem Test.Balanced.needs (hbalanced : t.Balanced) {before rest : List Command}
    (hrest : t.rest .daemon = before ++ command :: rest) (hopen : .closeSocket ∉ before)
    (hpolls : 0 < command.polls) :
    weight Command.polls before + command.polls ≤
      weightBefore Command.sends (t.rest .client) (syncs before) := by
  obtain ⟨hsync, -, hclose⟩ := Command.not_of_polls hpolls
  obtain ⟨more, hmore⟩ := Script.before_eq hrest hopen hclose
  refine le_trans ?_ (hbalanced.ahead (syncs before))
  rw [hmore, ← weight_add_le rfl, weightBefore, if_neg hsync]
  omega

/-- A client that waits in a call for a server between two calls has come to a later `sync`,
and posted what it sends before that. -/
theorem Orderly.sent_of_waits (h : Orderly hosts sending receiving s) (hbalanced : t.Balanced)
    (hwaits : Waits s .client) {before rest : List Command}
    (hleft : s.left .daemon = command :: rest) (hsync : command ≠ .sync)
    (hdone : s.done .daemon = .sync :: .modifyQpToRts :: before) :
    weightBefore Command.sends (t.rest .client) (syncs before) ≤
      (t.sender.sends s.sender).posted.length := by
  have hunsent := hwaits.unsent
  obtain ⟨hindex, -, hhead⟩ := (h.synced.positioned .client).busy (busy_of_syscall hwaits.syscall)
  obtain ⟨hidle, hcalls⟩ := (h.synced.positioned .daemon).between (by rw [hleft]; simpa using hsync)
  change done .daemon .send (s.conn.endpoint .daemon) ≤ _ at hunsent
  rw [done, hidle, if_neg (by simp), hcalls, hindex, hdone] at hunsent
  simp only [syncs_cons, reduceCtorEq, if_true, if_false] at hunsent
  have hentered : weightBefore Command.sends (t.script .client) (syncs before + 1) ≤
      weight Command.sends (s.done .client) := by
    rw [← h.synced.script .client]
    refine weightBefore_le_of_entered rfl ?_
    rcases Nat.lt_or_ge (syncs before + 1) (syncs (s.done .client)) with hearlier | hge
    · exact .inl hearlier
    · exact .inr ⟨by omega, hhead⟩
  have hscript : weightBefore Command.sends (t.script .client) (syncs before + 1) =
      weightBefore Command.sends (t.rest .client) (syncs before) := by
    simp [Test.script, weightBefore, Command.sends]
  rw [← hscript]
  exact hentered.trans (h.sends_le hbalanced)

/-- A client that waits in a call has posted what the server waits for. -/
theorem Orderly.not_starves (h : Orderly hosts sending receiving s) (hbalanced : t.Balanced)
    (hwaits : Waits s .client) : ¬ Starves t s := by
  rintro ⟨command, rest, hleft, hpolls, hlt⟩
  obtain ⟨hsync, hmodify, -⟩ := Command.not_of_polls hpolls
  obtain ⟨before, hdone, hrest⟩ := h.synced.split hleft hsync hmodify
  -- the server has not closed its socket
  have hopen : .closeSocket ∉ before := by
    intro hmem
    have hclosed := h.drained.closed (by rw [hdone]; simp [hmem])
    rw [hwaits.isOpen] at hclosed
    cases hclosed
  have hneeds := hbalanced.needs hrest hopen hpolls
  have hsent := h.sent_of_waits hbalanced hwaits hleft hsync hdone
  rw [hdone, weight_cons, weight_cons] at hlt
  change _ < 0 + (0 + weight Command.polls before) + command.polls at hlt
  omega

/-- A client at its end has posted all that the server waits for. -/
theorem Orderly.not_starves_of_end (h : Orderly hosts sending receiving s)
    (hbalanced : t.Balanced) (hend : s.left .client = []) : ¬ Starves t s := by
  rintro ⟨command, rest, hleft, hpolls, hlt⟩
  have hclient := h.synced.script .client
  have hdaemon := congrArg (weight Command.polls) (h.synced.script .daemon)
  rw [hend, List.append_nil] at hclient
  rw [hleft, weight_append, weight_cons] at hdaemon
  have hposted := h.sends_le hbalanced
  have hbalance := hbalanced.balance
  have hall := weight_polls (t.script .daemon)
  rw [hclient, weight_sends, hbalanced.count_script] at hposted
  rw [hbalanced.count_script] at hall
  have hwaits : weight Command.waits (t.script .daemon) =
      weight Command.waits (t.rest .daemon) := by
    simp [Test.script, Command.waits]
  have hposts : weight Command.posts (t.script .client) =
      weight Command.posts (t.rest .client) := by
    simp [Test.script, Command.posts]
  omega

/-- The test is at its end. -/
def Finished (s : State σ τ) : Prop := ∀ side, s.left side = []

/-- A whole state that is not the end can go on. -/
theorem Orderly.advances (h : Orderly hosts sending receiving s)
    (happlies : AppliesMask ibvModifyQp) (hconforms : Conforms t.qpType ibvModifyQp)
    (hbalanced : t.Balanced) (hwhole : Whole receiving s) (hend : ¬ Finished s) :
    Advances hosts ibvModifyQp sending receiving s := by
  have hclient (hleft : s.left .client ≠ []) :=
    h.advances_client happlies hconforms hbalanced hwhole.lossless hleft
  have hdaemon (hleft : s.left .daemon ≠ []) :=
    h.advances_daemon happlies hconforms hbalanced hwhole hleft
  by_cases hnil : s.left .client = []
  · have hleft : s.left .daemon ≠ [] := by
      intro hother
      refine hend fun side => ?_
      cases side with
      | daemon => exact hother
      | client => exact hnil
    rcases hdaemon hleft with hforward | hwaits | hstarves
    · exact hforward
    · exact absurd hnil (h.client_of_waits hwaits).1
    · exact absurd hstarves (h.not_starves_of_end hbalanced hnil)
  · rcases hclient hnil with hforward | hwaits
    · exact hforward
    · -- the server has not sent, and does not wait for the client
      have hleft : s.left .daemon ≠ [] := by
        intro hother
        have hopen := hwaits.isOpen
        have hscript := h.synced.script .daemon
        rw [hother, List.append_nil] at hscript
        rw [h.drained.closed (by simp [hscript, Test.script, Test.rest, Script.rest])] at hopen
        cases hopen
      rcases hdaemon hleft with hforward | hdaemonWaits | hstarves
      · exact hforward
      · exact absurd hwaits (h.client_of_waits hdaemonWaits).2
      · exact absurd hstarves (h.not_starves hbalanced hwaits)

/-- A test that is at its end has lost nothing. -/
theorem Orderly.whole_of_finished (h : Orderly hosts sending receiving s)
    (hbalanced : t.Balanced) (hend : Finished s) : Whole receiving s := by
  have hdone (side : Side) : s.done side = t.script side := by
    rw [← h.synced.script side, hend side, List.append_nil]
  have hmem : .benchmark ∈ s.done .daemon := by
    rw [hdone, ← List.count_pos_iff, hbalanced.count_script]
    exact Nat.one_pos
  have hcount := h.tallied.polled.finished hmem
  have htaken := h.tallied.polled.taken
  have hposted := h.tallied.posted.posted
  have hspent := h.tallied.posted.spent_le
  have hflow := h.counted.flow
  have hle := h.counted.taken_le
  have hbalance := hbalanced.balance
  rw [hdone] at htaken hposted
  simp only [Test.script, weight_cons, Command.waits, Command.posts] at htaken hposted
  refine ⟨?_, ?_⟩
  · unfold Lossless
    omega
  · unfold Exact
    rw [hdone]
    simp only [Test.script, weight_cons, Command.waits]
    omega

/-- **When a test can end.**  From a whole state a run in which nothing is lost leads to the
end of both programs, and a run that ends was whole in every state. -/
theorem Test.completes (happlies : AppliesMask ibvModifyQp)
    (hconforms : Conforms t.qpType ibvModifyQp) (hbalanced : t.Balanced)
    (h : Orderly hosts sending receiving s) :
    (Whole receiving s → ∃ history s',
        (machine t hosts ibvModifyQp).Path (Settled hosts) s history s' ∧ Finished s') ∧
      ∀ history s', (machine t hosts ibvModifyQp).Path (Delivers hosts) s history s' →
        Finished s' → Whole receiving s := by
  constructor
  · intro hwhole
    obtain ⟨history, s', -, hpath, hend, -, -⟩ := Machine.exists_path_of_measure
      (machine t hosts ibvModifyQp) (Settled hosts)
      (fun s (_ : Unit) => Orderly hosts sending receiving s ∧ Whole receiving s) Finished
      (fun _ => false) (fun _ _ => 0) (fun s _ => s.work sending receiving) (by
        rintro s - ⟨horderly, hwhole⟩ hend
        obtain ⟨action, s', hallowed, hwork⟩ :=
          horderly.advances happlies hconforms hbalanced hwhole hend
        have hsettled := hallowed.guard
        refine ⟨action, s', (), hallowed, ⟨?_, ?_⟩, Nat.le_refl _, hwork⟩
        · exact horderly.step happlies hconforms hsettled.delivers hallowed.step
        · refine hwhole.step horderly.toInv horderly.tallied hallowed.step hsettled.lost ?_
          exact fun poll hle => receiving.gain_single poll (hle.trans hsettled.asks))
      s () ⟨h, hwhole⟩
    exact ⟨history, s', hpath, hend⟩
  · intro history s' hpath hend
    by_contra hlost
    have hlater := Machine.Path.invariant
      (fun s => Orderly hosts sending receiving s ∧ ¬ Whole receiving s)
      (by
        rintro s action s' ⟨horderly, hlost⟩ hguard hstep
        exact ⟨horderly.step happlies hconforms hguard hstep,
          fun hwhole => hlost (hwhole.of_step horderly.toInv horderly.tallied hstep)⟩)
      hpath ⟨h, hlost⟩
    exact hlater.2 (hlater.1.whole_of_finished hbalanced hend)

end WriteTest
end FlashReduce
