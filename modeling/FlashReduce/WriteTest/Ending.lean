import FlashReduce.WriteTest.Completion
import FlashReduce.WriteTest.Programs

/-!
# When the write tests end

The three programs have no timeout.  `rdma_write_rc_test` and `rdma_write_uc_test` can end
exactly when no write is lost; in `proxy_send_recv` the server must also poll the ten writes
one at a time, since its callback counts the polls.

This is about runs in which each `send` on the socket takes the whole buffer and each `recv`
returns the whole buffer or meets the end of the stream (`Delivers`).
-/

namespace FlashReduce
namespace WriteTest

open Library Rdma Benchmark Proxy Socket

/-! ### The benchmarks are steady -/

/-- A round of the loop with credit posts a send. -/
theorem loop_round {loop loop' : SendLoop} {n : Nat} (hcredit : loop.availableWqes + loop.i = 256)
    (hround : loopSender.round loop n = some loop') :
    loop.i < 10 ∧ loop.availableWqes ≠ 0 ∧ loop' =
      { i := loop.i + 1
        availableWqes := loop.availableWqes - 1
        sends := loop.sends.postSend loop.i } := by
  change SendLoop.round 10 loop n = some loop' at hround
  unfold SendLoop.round at hround
  split at hround
  · next hopen =>
    have hne : loop.availableWqes ≠ 0 := by omega
    rw [if_neg hne] at hround
    exact ⟨hopen, hne, (Option.some.inj hround).symm⟩
  · cases hround

def loopSenderSteady : loopSender.Steady where
  credited loop := loop.availableWqes + loop.i = 256 ∧ loop.i ≤ 10
  rank loop := 10 - loop.i
  credited_start := ⟨rfl, Nat.zero_le _⟩
  credited_withSends _ _ h := h
  rank_withSends _ _ := rfl
  round_credited := by
    intro loop n loop' h hround
    obtain ⟨hopen, -, rfl⟩ := loop_round h.1 hround
    have hcredit := h.1
    exact ⟨by dsimp only; omega, hopen⟩
  round_quiet := by
    intro loop n loop' h hround
    obtain ⟨-, hne, -⟩ := loop_round h.1 hround
    exact decide_eq_false hne
  round_spent := by
    intro loop n loop' h hround
    obtain ⟨-, -, rfl⟩ := loop_round h.1 hround
    simp [loopSender]
    omega
  round_rank := by
    intro loop n loop' h hround
    obtain ⟨hopen, -, rfl⟩ := loop_round h.1 hround
    dsimp only
    omega
  round_none := by
    intro loop n h hround
    change SendLoop.round 10 loop n = none at hround
    unfold SendLoop.round at hround
    split at hround
    · split at hround <;> cases hround
    · next hclosed => exact Nat.le_antisymm h.2 (Nat.le_of_not_lt hclosed)

def loopReceiverSteady : loopReceiver.Steady where
  good _ := True
  count := RecvLoop.i
  rank loop := 10 - loop.i
  gain := PollResult.numCompletions
  gain_le _ := Nat.le_refl _
  gain_single _ _ := rfl
  good_start := trivial
  count_start := rfl
  good_withRecvs _ _ _ := trivial
  count_withRecvs _ _ := rfl
  rank_withRecvs _ _ := rfl
  round_good _ _ _ _ _ := trivial
  round_count := by
    intro loop poll loop' _ hround
    obtain ⟨-, hsome⟩ := Option.ite_none_right_eq_some.mp hround
    obtain rfl := Option.some.inj hsome
    simp [loopReceiver]
  round_rank := by
    intro loop poll loop' _ hround hgain
    obtain ⟨hopen, hsome⟩ := Option.ite_none_right_eq_some.mp hround
    obtain rfl := Option.some.inj hsome
    have hpos : 0 < poll.numCompletions := hgain rfl
    rw [body_i]
    omega
  round_open := by
    intro loop poll loop' _ hround _
    exact (Option.ite_none_right_eq_some.mp hround).1
  round_none := by
    intro loop poll _ hround
    by_contra hopen
    rw [show loopReceiver.round loop poll = _ from if_pos (Nat.lt_of_not_le hopen)] at hround
    cases hround

/-- A visit of a sending operation that is running and has credit. -/
theorem visit_posts {args : SendArgs} (hstate : args.state ≠ .proxyOpNone)
    (hopen : args.iterations < 10) (hcredit : args.availableWqes ≠ 0) (n : Nat) :
    (args.visit n).availableWqes = args.availableWqes - 1 ∧
      ((args.visit n).state = .proxyOpNone ↔ (args.visit n).iterations = 10) := by
  have hvisit : args.visit n = sendBenchmark { args with idle := false } n := by
    simp [SendArgs.visit, hstate]
  have hstart : ({ args with idle := false } : SendArgs).start.state = .proxyOpProgress :=
    start_state hstate
  rw [hvisit]
  unfold sendBenchmark
  dsimp only
  rw [if_pos ⟨hstart, by simpa using hopen⟩, if_neg (by simpa using hcredit)]
  refine ⟨by simp [SendArgs.post], ?_⟩
  rw [finish_iterations]
  refine finish_state ?_
  change ({ args with idle := false } : SendArgs).start.state ≠ .proxyOpNone
  rw [hstart]
  decide

/-- A round of the callback with credit posts a send. -/
theorem visit_round {args args' : SendArgs} {n : Nat}
    (hcredit : args.availableWqes + args.iterations = 256) (hle : args.iterations ≤ 10)
    (hdone : args.state = .proxyOpNone ↔ args.iterations = 10)
    (hround : proxySender.round args n = some args') :
    args.iterations < 10 ∧ args.availableWqes ≠ 0 ∧ args'.iterations = args.iterations + 1 ∧
      args'.availableWqes = args.availableWqes - 1 ∧
      args'.sends = args.sends.postSend (args.iterations + 1) ∧
      (args'.state = .proxyOpNone ↔ args'.iterations = 10) := by
  obtain ⟨hstate, hsome⟩ := Option.ite_none_left_eq_some.mp hround
  obtain rfl := Option.some.inj hsome
  have hne : args.iterations ≠ 10 := fun hten => hstate (hdone.mpr hten)
  have hopen : args.iterations < 10 := by omega
  have hpos : args.availableWqes ≠ 0 := by omega
  obtain ⟨hsends, hiterations⟩ := visit_running hstate n
  obtain ⟨havailable, hfinished⟩ := visit_posts hstate hopen hpos n
  rw [if_pos hopen] at hiterations
  rw [if_pos hopen, if_neg hpos] at hsends
  exact ⟨hopen, hpos, hiterations, havailable, hsends, hfinished⟩

def proxySenderSteady : proxySender.Steady where
  credited args := args.availableWqes + args.iterations = 256 ∧ args.iterations ≤ 10 ∧
    (args.state = .proxyOpNone ↔ args.iterations = 10)
  rank args := 10 - args.iterations
  credited_start := ⟨rfl, Nat.zero_le _, by decide⟩
  credited_withSends _ _ h := h
  rank_withSends _ _ := rfl
  round_credited := by
    intro args n args' h hround
    obtain ⟨hopen, -, hiterations, havailable, -, hfinished⟩ :=
      visit_round h.1 h.2.1 h.2.2 hround
    have hcredit := h.1
    exact ⟨by omega, by omega, hfinished⟩
  round_quiet := by
    intro args n args' h hround
    obtain ⟨-, hne, -⟩ := visit_round h.1 h.2.1 h.2.2 hround
    exact decide_eq_false fun hpolls => hne hpolls.2
  round_spent := by
    intro args n args' h hround
    obtain ⟨-, -, hiterations, -, hsends, -⟩ := visit_round h.1 h.2.1 h.2.2 hround
    simp only [proxySender, hsends, hiterations, postSend_posted]
    omega
  round_rank := by
    intro args n args' h hround
    obtain ⟨hopen, -, hiterations, -⟩ := visit_round h.1 h.2.1 h.2.2 hround
    omega
  round_none := by
    intro args n h hround
    have hstate : args.state = .proxyOpNone := by
      by_contra hstate
      rw [show proxySender.round args n = _ from if_neg hstate] at hround
      cases hround
    exact h.2.2.mp hstate

/-- A round of the callback of the server polls once. -/
theorem recv_round {args args' : RecvArgs} {poll : PollResult} (hle : args.iterations ≤ 10)
    (hdone : args.state = .proxyOpNone ↔ args.iterations = 10)
    (hround : proxyReceiver.round args poll = some args') :
    args.iterations < 10 ∧
      args'.iterations =
        (if poll.numCompletions ≠ 0 then args.iterations + 1 else args.iterations) ∧
      (args'.state = .proxyOpNone ↔ args'.iterations = 10) := by
  obtain ⟨hstate, hsome⟩ := Option.ite_none_left_eq_some.mp hround
  obtain rfl := Option.some.inj hsome
  have hne : args.iterations ≠ 10 := fun hten => hstate (hdone.mpr hten)
  have hopen : args.iterations < 10 := by omega
  exact ⟨hopen, visit_open hstate hopen poll⟩

def proxyReceiverSteady : proxyReceiver.Steady where
  good args := args.iterations ≤ 10 ∧ (args.state = .proxyOpNone ↔ args.iterations = 10)
  count := RecvArgs.iterations
  rank args := 10 - args.iterations
  gain poll := if poll.numCompletions ≠ 0 then 1 else 0
  gain_le poll := by split <;> omega
  gain_single poll hle := by split <;> omega
  good_start := ⟨Nat.zero_le _, by decide⟩
  count_start := rfl
  good_withRecvs _ _ h := h
  count_withRecvs _ _ := rfl
  rank_withRecvs _ _ := rfl
  round_good := by
    intro args poll args' h hround
    obtain ⟨hopen, hiterations, hfinished⟩ := recv_round h.1 h.2 hround
    refine ⟨?_, hfinished⟩
    split at hiterations <;> omega
  round_count := by
    intro args poll args' h hround
    obtain ⟨hopen, hiterations, -⟩ := recv_round h.1 h.2 hround
    rw [if_pos (show proxyReceiver.polls args = true from decide_eq_true hopen), hiterations]
    split <;> rfl
  round_rank := by
    intro args poll args' h hround hgain
    obtain ⟨hopen, hiterations, -⟩ := recv_round h.1 h.2 hround
    have hpos := hgain (decide_eq_true hopen)
    split at hiterations
    · omega
    · next hempty =>
      rw [if_neg hempty] at hpos
      cases hpos
  round_open := by
    intro args poll args' h hround _
    exact (recv_round h.1 h.2 hround).1
  round_none := by
    intro args poll h hround
    have hstate : args.state = .proxyOpNone := by
      by_contra hstate
      rw [show proxyReceiver.round args poll = _ from if_neg hstate] at hround
      cases hround
    exact Nat.le_of_eq (h.2.mp hstate).symm

/-! ### The scripts are balanced -/

section Scripts

variable {w : Command → Nat} {n k : Nat} {rest : List Command}

/-- The receives that are posted do not count for what else a command does. -/
theorem weight_of_postRecvs (hzero : ∀ wrId, w (.postRecv wrId) = 0) (n : Nat) :
    weight w (postRecvs n) = 0 := by
  refine List.sum_eq_zero_iff_forall_eq_nat.mpr fun m hmem => ?_
  obtain ⟨command, hcommand, rfl⟩ := List.mem_map.mp hmem
  obtain ⟨wrId, rfl⟩ := mem_postRecvs hcommand
  exact hzero wrId

theorem weightBefore_of_postRecvs (hzero : ∀ wrId, w (.postRecv wrId) = 0) (hsync : w .sync = 0) :
    weightBefore w (postRecvs n ++ rest) k = weightBefore w rest k := by
  rw [weightBefore_append hsync, syncs_postRecvs, if_neg (Nat.not_lt_zero k),
    weight_of_postRecvs hzero, Nat.zero_add, Nat.sub_zero]

theorem count_postRecvs {command : Command} (hne : ∀ wrId, command ≠ .postRecv wrId) (n : Nat) :
    (postRecvs n).count command = 0 := by
  refine List.count_eq_zero.mpr fun hmem => ?_
  obtain ⟨wrId, heq⟩ := mem_postRecvs hmem
  exact hne wrId heq

/-- Where the only command of its kind stands. -/
theorem split_of_once {command : Command} {first last before after : List Command}
    (hfirst : command ∉ first) (hlast : command ∉ last)
    (h : first ++ command :: last = before ++ command :: after) :
    before = first ∧ after = last := by
  obtain ⟨hbefore, -, hafter⟩ := (List.append_cons_inj_of_notMem hfirst hlast).mp h
  exact ⟨hbefore.symm, hafter.symm⟩

end Scripts

theorem rdmaWriteTest_balanced (qpType : QpType) : (rdmaWriteTest qpType).Balanced where
  once := by
    rintro (_ | _)
    · change (rdmaWriteServer.rest).count .benchmark = 1
      simp [Script.rest, rdmaWriteServer, count_postRecvs]
    · rfl
  balance := by
    change weight Command.waits rdmaWriteServer.rest = weight Command.posts rdmaWriteClient.rest
    have hzero : weight Command.waits (postRecvs kSendQueueDepth) = 0 :=
      weight_of_postRecvs (fun _ => rfl) _
    simp [Script.rest, rdmaWriteServer, rdmaWriteClient, Command.waits, Command.posts, hzero]
  client wrId := by
    change .postRecv wrId ∉ rdmaWriteClient.rest
    simp [Script.rest, rdmaWriteClient]
  server wrId := by
    change .postSend wrId ∉ rdmaWriteServer.rest
    simp [Script.rest, rdmaWriteServer, postRecvs]
  polled before after h := by
    have hsplit : before = [.sync, .postSend 0] ∧ after = [.sync, .benchmark, .closeSocket] :=
      split_of_once (by decide) (by decide) h
    rw [hsplit.1]
    decide
  last before after h := by
    have hserver : rdmaWriteServer.rest =
        ([.postRecv 0, .sync, .waitCompletion] ++ postRecvs kSendQueueDepth ++ [.sync]) ++
          .benchmark :: [.closeSocket] := by
      simp [Script.rest, rdmaWriteServer]
    have hnone : .benchmark ∉
        [.postRecv 0, .sync, .waitCompletion] ++ postRecvs kSendQueueDepth ++ [.sync] := by
      simp [postRecvs]
    have hsplit := split_of_once hnone (by decide) (hserver.symm.trans h)
    rw [hsplit.2]
    decide
  ahead k := by
    change weightBefore Command.polls rdmaWriteServer.before k ≤
      weightBefore Command.sends rdmaWriteClient.rest k
    have hserver : rdmaWriteServer.before = .postRecv 0 :: .sync :: .waitCompletion ::
        (postRecvs kSendQueueDepth ++ [.sync, .benchmark]) := by
      simp [rdmaWriteServer]
    have hzero (k : Nat) : weightBefore Command.polls
        (postRecvs kSendQueueDepth ++ [.sync, .benchmark]) k =
          weightBefore Command.polls [.sync, .benchmark] k :=
      weightBefore_of_postRecvs (fun _ => rfl) rfl
    rw [hserver]
    rcases k with _ | _ | k
    · exact Nat.zero_le _
    · simp [weightBefore, hzero, Script.rest, rdmaWriteClient, Command.polls, Command.sends]
    · simp [weightBefore, hzero, Script.rest, rdmaWriteClient, Command.polls, Command.sends]

theorem proxySendRecv_balanced : proxySendRecv.Balanced where
  once := by
    rintro (_ | _)
    · change (proxyServer.rest).count .benchmark = 1
      simp [Script.rest, proxyServer, count_postRecvs]
    · rfl
  balance := by
    change weight Command.waits proxyServer.rest = weight Command.posts proxyClient.rest
    have hzero : weight Command.waits (postRecvs kSendQueueDepth) = 0 :=
      weight_of_postRecvs (fun _ => rfl) _
    simp [Script.rest, proxyServer, proxyClient, Command.waits, Command.posts, hzero]
  client wrId := by
    change .postRecv wrId ∉ proxyClient.rest
    simp [Script.rest, proxyClient]
  server wrId := by
    change .postSend wrId ∉ proxyServer.rest
    simp [Script.rest, proxyServer, postRecvs]
  polled before after h := by
    have hmem : Command.waitCompletion ∈ proxyClient.rest := by
      rw [show proxyClient.rest = _ from h]
      simp
    exact absurd hmem (by decide)
  last before after h := by
    have hserver : proxyServer.rest =
        (postRecvs kSendQueueDepth ++ [.sync, .closeSocket]) ++ .benchmark :: [] := by
      simp [Script.rest, proxyServer]
    have hnone : .benchmark ∉ postRecvs kSendQueueDepth ++ [.sync, .closeSocket] := by
      simp [postRecvs]
    have hsplit := split_of_once hnone (by decide) (hserver.symm.trans h)
    rw [hsplit.2]
    decide
  ahead k := by
    have hzero : weight Command.polls proxyServer.before = 0 := by
      have hrecvs : weight Command.polls (postRecvs kSendQueueDepth) = 0 :=
        weight_of_postRecvs (fun _ => rfl) _
      simp [proxyServer, Command.polls, hrecvs]
    have hle := weightBefore_le Command.polls proxyServer.before k
    rw [hzero] at hle
    exact hle.trans (Nat.zero_le _)

/-! ### When they end -/

variable {hosts : Hosts} {ibvModifyQp : ModifyQp}

/-- The loop of the server counts every completion that it polls. -/
theorem exact_of_loop {qpType : QpType} {s : State SendLoop RecvLoop}
    (hreach : (machine (rdmaWriteTest qpType) hosts ibvModifyQp).Reachable (Delivers hosts) s) :
    Tallied (t := rdmaWriteTest qpType) loopSenderSteady loopReceiverSteady s ∧
      Exact (t := rdmaWriteTest qpType) loopReceiverSteady s := by
  refine hreach.invariant (fun s =>
    Tallied (t := rdmaWriteTest qpType) loopSenderSteady loopReceiverSteady s ∧
      Exact (t := rdmaWriteTest qpType) loopReceiverSteady s) ?_ ?_
  · intro s hinit
    refine ⟨.initial hinit, ?_⟩
    rw [hinit.2]
    exact Nat.zero_le _
  · rintro s action s' ⟨htallied, hexact⟩ - hstep
    exact ⟨htallied.step hstep, hexact.step htallied hstep fun _ _ => rfl⟩

/-- The server of `proxy_send_recv` waits for no completion itself. -/
theorem proxyServer_waits {s : State SendArgs RecvArgs} (h : Synced proxySendRecv hosts s) :
    weight Command.waits (s.done .daemon) = 0 := by
  have hzero : weight Command.waits (postRecvs kSendQueueDepth) = 0 :=
    weight_of_postRecvs (fun _ => rfl) _
  have hall : weight Command.waits (proxySendRecv.script .daemon) = 0 := by
    change weight Command.waits (.sync :: .modifyQpToRts :: proxyServer.rest) = 0
    simp [Script.rest, proxyServer, Command.waits, hzero]
  rw [← h.script .daemon, weight_append] at hall
  omega

end WriteTest
end FlashReduce
