import FlashReduce.Library.Transition
import FlashReduce.Proxy.Handler

/-!
# The send benchmark

`send_benchmark` posts ten sends and polls for completions whenever its credit
`available_wqes` is used up.  It exists as a loop and as a progress callback of
the proxy, which does one round of the loop in each call.

* A system is driven by what `ibv_poll_cq` would return: `PollGuard` says that it
  returns at most 32 completions and at most as many as are outstanding.
* Sends that are posted and not polled are paid for by the credit
  (`SendArgs.Credited`, `SendLoop.Counted`).
* The loop counts sends only (`sendLoop_posts`).  The callback counts the rounds
  that poll as well, so it posts ten sends exactly when it never polls, which a
  credit of ten makes sure of (`send_posts_iff`).
-/

namespace FlashReduce
namespace Benchmark

open Library Proxy

/-! ### The send queue -/

/-- `endpoint.send_wr`, the sends that have been posted, by their `wr_id`s, and the number of
completions that have been polled. -/
structure SendQueue where
  sendWr : Nat
  posted : List Nat
  polled : Nat
  deriving DecidableEq

def SendQueue.empty (sendWr : Nat) : SendQueue := ⟨sendWr, [], 0⟩

/-- `ibv_post_send` of a request with the given `wr_id`. -/
def SendQueue.postSend (queue : SendQueue) (wrId : Nat) : SendQueue :=
  ⟨wrId, queue.posted ++ [wrId], queue.polled⟩

/-- `ibv_poll_cq` with the given result. -/
def SendQueue.pollCq (queue : SendQueue) (numCompletions : Nat) : SendQueue :=
  { queue with polled := queue.polled + numCompletions }

/-- `ibv_poll_cq(cq, 32, wcs)` returns what is outstanding. -/
def SendQueue.CanPoll (queue : SendQueue) (numCompletions : Nat) : Prop :=
  numCompletions ≤ 32 ∧ queue.polled + numCompletions ≤ queue.posted.length

instance (queue : SendQueue) (numCompletions : Nat) : Decidable (queue.CanPoll numCompletions) :=
  inferInstanceAs (Decidable (_ ∧ _))

@[simp] theorem postSend_posted (queue : SendQueue) (wrId : Nat) :
    (queue.postSend wrId).posted.length = queue.posted.length + 1 := by
  simp [SendQueue.postSend]

@[simp] theorem postSend_polled (queue : SendQueue) (wrId : Nat) :
    (queue.postSend wrId).polled = queue.polled := rfl

@[simp] theorem pollCq_posted (queue : SendQueue) (numCompletions : Nat) :
    (queue.pollCq numCompletions).posted = queue.posted := rfl

@[simp] theorem pollCq_polled (queue : SendQueue) (numCompletions : Nat) :
    (queue.pollCq numCompletions).polled = queue.polled + numCompletions := rfl

/-! ### The blocking loop -/

/-- The local variables of the blocking `send_benchmark`. -/
structure SendLoop where
  i : Nat
  availableWqes : Int
  sends : SendQueue
  deriving DecidableEq

/-- One round of the loop, whose poll would return the given number. -/
def SendLoop.round (iterations : Nat) (loop : SendLoop) (numCompletions : Nat) :
    Option SendLoop :=
  if loop.i < iterations then
    if loop.availableWqes = 0 then
      some { loop with
        availableWqes := loop.availableWqes + numCompletions
        sends := loop.sends.pollCq numCompletions }
    else
      some { i := loop.i + 1
             availableWqes := loop.availableWqes - 1
             sends := loop.sends.postSend loop.i }
  else none

/-- The blocking `send_benchmark`. -/
def sendLoop (iterations credit : Nat) : Machine SendLoop Nat where
  init loop := ∃ sendWr, loop = ⟨0, credit, .empty sendWr⟩
  step := SendLoop.round iterations

/-- The counter of the loop counts the sends. -/
structure SendLoop.Counted (iterations : Nat) (loop : SendLoop) : Prop where
  posted : loop.sends.posted.length = loop.i
  le : loop.i ≤ iterations

theorem SendLoop.Counted.round {iterations numCompletions : Nat} {loop loop' : SendLoop}
    (h : loop.Counted iterations) (hround : loop.round iterations numCompletions = some loop') :
    loop'.Counted iterations := by
  unfold SendLoop.round at hround
  split at hround
  · next hopen =>
    split at hround
    · cases hround
      exact ⟨h.posted, h.le⟩
    · cases hround
      exact ⟨by simp [h.posted], hopen⟩
  · cases hround

/-- The loop posts as many sends as it is asked for before it is left. -/
theorem sendLoop_posts {iterations credit : Nat} {loop : SendLoop}
    (hreach : (sendLoop iterations credit).Reachable
      (fun loop numCompletions => loop.sends.CanPoll numCompletions) loop)
    (hleft : ¬ loop.i < iterations) : loop.sends.posted.length = iterations := by
  have hcounted : loop.Counted iterations := by
    refine hreach.invariant (SendLoop.Counted iterations) ?_ ?_
    · rintro loop ⟨sendWr, rfl⟩
      exact ⟨rfl, Nat.zero_le _⟩
    · intro loop numCompletions loop' h _ hround
      exact h.round hround
  have hle := hcounted.le
  rw [hcounted.posted]
  omega

/-! ### The progress callback -/

/-- The fields of `ProxyArgs` that `send_benchmark` works on. -/
structure SendArgs where
  idle : Bool
  state : ProxyOpState
  iterations : Nat
  availableWqes : Int
  sends : SendQueue
  deriving DecidableEq

/-- The first branch of `send_benchmark`. -/
def SendArgs.start (args : SendArgs) : SendArgs :=
  if args.state = .proxyOpReady then { args with state := .proxyOpProgress } else args

/-- The last branch of `send_benchmark`. -/
def SendArgs.finish (args : SendArgs) : SendArgs :=
  if args.iterations = 10 then { args with state := .proxyOpNone, idle := false } else args

/-- A round that polls. -/
def SendArgs.poll (args : SendArgs) (numCompletions : Nat) : SendArgs :=
  { args with
    idle := false
    iterations := args.iterations + 1
    availableWqes := args.availableWqes + numCompletions
    sends := args.sends.pollCq numCompletions }

/-- A round that posts a send. -/
def SendArgs.post (args : SendArgs) : SendArgs :=
  { args with
    idle := false
    iterations := args.iterations + 1
    availableWqes := args.availableWqes - 1
    sends := args.sends.postSend (args.iterations + 1) }

/-- `send_benchmark` of the proxy, whose poll would return the given number. -/
def sendBenchmark (args : SendArgs) (numCompletions : Nat) : SendArgs :=
  let args := args.start
  if args.state = .proxyOpProgress ∧ args.iterations < 10 then
    -- the poll branch returns before the test of `iterations`
    if args.availableWqes = 0 then args.poll numCompletions else args.post.finish
  else args.finish

/-- The call of the callback by `persistentThread`. -/
def SendArgs.visit (args : SendArgs) (numCompletions : Nat) : SendArgs :=
  let args := { args with idle := false }
  if args.state ≠ .proxyOpNone then sendBenchmark args numCompletions else args

/-- The operation as it is appended. -/
structure SendArgs.Started (credit : Nat) (args : SendArgs) : Prop where
  state : args.state = .proxyOpReady
  iterations : args.iterations = 0
  availableWqes : args.availableWqes = credit
  sends : args.sends = .empty args.sends.sendWr

/-- The operation under the visits of the worker. -/
def sendMachine (credit : Nat) : Machine SendArgs Nat where
  init := SendArgs.Started credit
  step args numCompletions := some (args.visit numCompletions)

/-- What a poll may return. -/
def PollGuard (args : SendArgs) (numCompletions : Nat) : Prop := args.sends.CanPoll numCompletions

instance (args : SendArgs) (numCompletions : Nat) : Decidable (PollGuard args numCompletions) :=
  inferInstanceAs (Decidable (args.sends.CanPoll numCompletions))

/-- The sends that are posted and not polled are paid for by the credit. -/
structure SendArgs.Credited (credit : Nat) (args : SendArgs) : Prop where
  outstanding : (args.sends.posted.length : Int) - args.sends.polled = credit - args.availableWqes
  within : (args.sends.posted.length : Int) - args.sends.polled ≤ credit

/-- `iterations` counts the sends and the rounds that poll. -/
structure SendArgs.Counted (credit : Nat) (args : SendArgs) : Prop extends
    args.Credited credit where
  polled_le : args.sends.polled ≤ args.sends.posted.length
  posted_le : args.sends.posted.length ≤ args.iterations
  iterations_le : args.iterations ≤ 10
  /-- Without a round that polls nothing is polled. -/
  polled : args.sends.posted.length = args.iterations → args.sends.polled = 0
  /-- No round polls before the credit is used up. -/
  credit_le : args.sends.posted.length < args.iterations → credit ≤ args.sends.posted.length
  finished : args.state = .proxyOpNone → args.iterations = 10

variable {credit : Nat} {args : SendArgs} {numCompletions : Nat}

theorem SendArgs.Started.counted (h : args.Started credit) : args.Counted credit := by
  have hposted : args.sends.posted = [] := by rw [h.sends]; rfl
  have hpolled : args.sends.polled = 0 := by rw [h.sends]; rfl
  have havailable := h.availableWqes
  have hiterations := h.iterations
  refine
    { outstanding := by simp [hposted, hpolled, havailable]
      within := by simp [hposted, hpolled]
      polled_le := by simp [hpolled]
      posted_le := by simp [hposted]
      iterations_le := by omega
      polled := fun _ => hpolled
      credit_le := ?_
      finished := by simp [h.state] }
  simp [hposted, hiterations]

/-- What a visit of the worker does: a round that polls, a round that posts, or nothing but
the test of `iterations`. -/
inductive SendArgs.Visited (args : SendArgs) (numCompletions : Nat) (args' : SendArgs) : Prop
  | polled (hempty : args.availableWqes = 0) (hopen : args.iterations < 10)
      (hiterations : args'.iterations = args.iterations + 1)
      (havailable : args'.availableWqes = args.availableWqes + numCompletions)
      (hsends : args'.sends = args.sends.pollCq numCompletions)
      (hstate : args'.state ≠ .proxyOpNone)
  | posted (hcredit : args.availableWqes ≠ 0) (hopen : args.iterations < 10)
      (hiterations : args'.iterations = args.iterations + 1)
      (havailable : args'.availableWqes = args.availableWqes - 1)
      (hsends : args'.sends = args.sends.postSend (args.iterations + 1))
      (hstate : args'.state = .proxyOpNone → args'.iterations = 10)
  | tested (hfull : args.iterations = 10)
      (hiterations : args'.iterations = args.iterations)
      (havailable : args'.availableWqes = args.availableWqes)
      (hsends : args'.sends = args.sends)
      (hstate : args'.state = .proxyOpNone)

@[simp] theorem start_iterations (args : SendArgs) : args.start.iterations = args.iterations := by
  unfold SendArgs.start
  split <;> rfl

@[simp] theorem start_availableWqes (args : SendArgs) :
    args.start.availableWqes = args.availableWqes := by
  unfold SendArgs.start
  split <;> rfl

@[simp] theorem start_sends (args : SendArgs) : args.start.sends = args.sends := by
  unfold SendArgs.start
  split <;> rfl

theorem start_state (hstate : args.state ≠ .proxyOpNone) :
    args.start.state = .proxyOpProgress := by
  unfold SendArgs.start
  cases hcase : args.state <;> simp_all

@[simp] theorem finish_iterations (args : SendArgs) :
    args.finish.iterations = args.iterations := by
  unfold SendArgs.finish
  split <;> rfl

@[simp] theorem finish_availableWqes (args : SendArgs) :
    args.finish.availableWqes = args.availableWqes := by
  unfold SendArgs.finish
  split <;> rfl

@[simp] theorem finish_sends (args : SendArgs) : args.finish.sends = args.sends := by
  unfold SendArgs.finish
  split <;> rfl

theorem finish_state (hstate : args.state ≠ .proxyOpNone) :
    args.finish.state = .proxyOpNone ↔ args.iterations = 10 := by
  unfold SendArgs.finish
  split
  · next hten => simp [hten]
  · next hten => simp [hten, hstate]

theorem SendArgs.Counted.visited (h : args.Counted credit) (numCompletions : Nat) :
    args.Visited numCompletions (args.visit numCompletions) := by
  by_cases hstate : args.state = .proxyOpNone
  · have hsame : args.visit numCompletions = { args with idle := false } := by
      simp [SendArgs.visit, hstate]
    rw [hsame]
    exact .tested (h.finished hstate) rfl rfl rfl hstate
  · have hvisit : args.visit numCompletions =
        sendBenchmark { args with idle := false } numCompletions := by
      simp [SendArgs.visit, hstate]
    have hstart : ({ args with idle := false } : SendArgs).start.state = .proxyOpProgress :=
      start_state hstate
    have hle := h.iterations_le
    rw [hvisit]
    unfold sendBenchmark
    dsimp only
    by_cases hopen : args.iterations < 10
    · rw [if_pos ⟨hstart, by simpa using hopen⟩]
      by_cases hempty : args.availableWqes = 0
      · rw [if_pos (by simpa using hempty)]
        exact .polled hempty hopen (by simp [SendArgs.poll]) (by simp [SendArgs.poll])
          (by simp [SendArgs.poll]) (by simp [SendArgs.poll, hstart])
      · rw [if_neg (by simpa using hempty)]
        refine .posted hempty hopen (by simp [SendArgs.post]) (by simp [SendArgs.post])
          (by simp [SendArgs.post]) ?_
        intro hdone
        rw [finish_state (by simp [SendArgs.post, hstart])] at hdone
        rw [finish_iterations]
        exact hdone
    · have hfull : args.iterations = 10 := by omega
      rw [if_neg (by simp [hfull])]
      refine .tested hfull (by simp) (by simp) (by simp) ?_
      rw [finish_state (by simp [hstart])]
      simpa using hfull

/-- **Step lemma.** -/
theorem SendArgs.Counted.visit (h : args.Counted credit) (hpoll : PollGuard args numCompletions) :
    (args.visit numCompletions).Counted credit := by
  obtain ⟨⟨houtstanding, hwithin⟩, hpolled_le, hposted_le, hiterations_le, hpolled, hcredit_le,
    hfinished⟩ := id h
  have hguard := hpoll.2
  rcases h.visited numCompletions with
    ⟨hempty, hopen, hiterations, havailable, hsends, hstate⟩ |
    ⟨hcredit, hopen, hiterations, havailable, hsends, hstate⟩ |
    ⟨hfull, hiterations, havailable, hsends, hstate⟩
  · refine ⟨⟨?_, ?_⟩, ?_, ?_, ?_, ?_, ?_, fun hdone => absurd hdone hstate⟩ <;>
      simp only [hsends, hiterations, havailable, pollCq_posted, pollCq_polled] <;> omega
  · refine ⟨⟨?_, ?_⟩, ?_, ?_, ?_, ?_, ?_, hstate⟩ <;>
      simp only [hsends, hiterations, havailable, postSend_posted, postSend_polled] <;> omega
  · refine ⟨⟨?_, ?_⟩, ?_, ?_, ?_, ?_, ?_, fun _ => by rw [hiterations, hfull]⟩ <;>
      simp only [hsends, hiterations, havailable] <;> omega

/-- **Run lemma.** -/
theorem reachable_counted (hreach : (sendMachine credit).Reachable PollGuard args) :
    args.Counted credit := by
  refine hreach.invariant (SendArgs.Counted credit) ?_ ?_
  · intro args hstarted
    exact SendArgs.Started.counted hstarted
  · intro args numCompletions args' h hpoll hstep
    cases hstep
    exact h.visit hpoll

/-- A visit in which nothing has completed. -/
theorem reachable_idle (hreach : (sendMachine credit).Reachable PollGuard args) :
    (sendMachine credit).Reachable PollGuard (args.visit 0) :=
  hreach.step ⟨Nat.zero_le 32, (reachable_counted hreach).polled_le⟩ rfl

/-- The operation finishes, also when nothing completes. -/
theorem exists_finished (hreach : (sendMachine credit).Reachable PollGuard args) :
    ∃ args', (sendMachine credit).Reachable PollGuard args' ∧ args'.state = .proxyOpNone := by
  generalize hleft : 10 - args.iterations = left
  induction left generalizing args with
  | zero =>
      rcases (reachable_counted hreach).visited 0 with
        ⟨-, hopen, -⟩ | ⟨-, hopen, -⟩ | ⟨-, -, -, -, hstate⟩
      · omega
      · omega
      · exact ⟨_, reachable_idle hreach, hstate⟩
  | succ left ih =>
      refine ih (reachable_idle hreach) ?_
      rcases (reachable_counted hreach).visited 0 with
        ⟨-, -, hiterations, -⟩ | ⟨-, -, hiterations, -⟩ | ⟨hfull, -⟩
      · omega
      · omega
      · omega

/-! ### Do they post the same -/

/-- **Sending under any credit.**  The loop posts ten sends before it is left.  The proxied
operation keeps to its credit, and it finishes with ten sends in every run exactly when the
credit is at least ten. -/
theorem send_posts_iff (credit : Nat) :
    (∀ loop : SendLoop, (sendLoop 10 credit).Reachable
        (fun loop numCompletions => loop.sends.CanPoll numCompletions) loop →
      ¬ loop.i < 10 → loop.sends.posted.length = 10) ∧
    ((∀ args, (sendMachine credit).Reachable PollGuard args →
        args.Credited credit ∧
          (args.state = .proxyOpNone → args.sends.posted.length = 10)) ↔ 10 ≤ credit) := by
  refine ⟨fun _ hreach hleft => sendLoop_posts hreach hleft, ?_, ?_⟩
  · intro hall
    have hstarted : SendArgs.Started credit ⟨false, .proxyOpReady, 0, credit, .empty 0⟩ :=
      ⟨rfl, rfl, rfl, rfl⟩
    obtain ⟨args, hreach, hdone⟩ := exists_finished (.initial hstarted)
    have hten := (hall args hreach).2 hdone
    have hcounted := reachable_counted hreach
    have hfull := hcounted.finished hdone
    have hpolled := hcounted.polled (by rw [hten, hfull])
    have hwithin := hcounted.within
    omega
  · intro hcredit args hreach
    have hcounted := reachable_counted hreach
    refine ⟨hcounted.toCredited, fun hdone => ?_⟩
    have hfull := hcounted.finished hdone
    have hle := hcounted.posted_le
    by_contra hfew
    have hused := hcounted.credit_le (by omega)
    omega

/-- With a credit of 1 and no completion the operation finishes after a single send. -/
theorem send_stops_short :
    ¬ ∀ args, (sendMachine 1).Reachable PollGuard args →
      args.state = .proxyOpNone → args.sends.posted.length = 10 := by
  intro hall
  have hexec : (sendMachine 1).exec PollGuard ⟨false, .proxyOpReady, 0, 1, .empty 0⟩
      (List.replicate 11 0) = some ⟨false, .proxyOpNone, 10, 0, ⟨1, [1], 0⟩⟩ := by
    decide
  have hrun := (sendMachine 1).run_of_exec PollGuard _ _ ⟨rfl, rfl, rfl, rfl⟩ hexec
  exact absurd (hall _ hrun.reachable rfl) (by decide)

end Benchmark
end FlashReduce
