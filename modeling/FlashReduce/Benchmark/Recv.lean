import Mathlib.Data.List.Induction
import FlashReduce.Proxy.Handler

/-!
# The receive benchmark

`recv_benchmark` exists twice: as a loop that polls until it has seen its
messages, and as a progress callback that the proxy calls for one poll at a time.

* `recvBenchmark` is the callback, `visit` the call of it by the worker, and
  `proxied` an operation after one visit for each poll result.
* `RecvLoop.body` is the body of the loop and `blocking` the loop after each poll
  result.
* The loop counts completions and the callback counts polls that return some
  (`proxied_done_iff`, `blocking_left_iff`).  So the two finish together exactly
  when the first nine polls that return something return fewer than ten
  completions (`recv_agree_iff`).

The cycle counter is only read for the bandwidth in the log and is not modelled.
-/

namespace FlashReduce
namespace Benchmark

open Proxy

/-! ### Poll results -/

/-- What `ibv_poll_cq(cq, 32, wcs)` returns: the `wr_id`s of the completions. -/
structure PollResult where
  wcs : List UInt64
  length_le : wcs.length ≤ 32
  deriving DecidableEq

/-- The return value of `ibv_poll_cq`. -/
def PollResult.numCompletions (poll : PollResult) : Nat := poll.wcs.length

/-- The polls that return something. -/
def nonempty (polls : List PollResult) : List PollResult :=
  polls.filter fun poll => poll.numCompletions ≠ 0

/-- The completions of a sequence of polls. -/
def total (polls : List PollResult) : Nat := (polls.map PollResult.numCompletions).sum

@[simp] theorem nonempty_nil : nonempty [] = [] := rfl

@[simp] theorem total_nil : total [] = 0 := rfl

theorem total_append (first second : List PollResult) :
    total (first ++ second) = total first + total second := by
  simp [total]

@[simp] theorem total_concat (polls : List PollResult) (poll : PollResult) :
    total (polls ++ [poll]) = total polls + poll.numCompletions := by
  simp [total]

theorem nonempty_length_concat (polls : List PollResult) (poll : PollResult) :
    (nonempty (polls ++ [poll])).length =
      if poll.numCompletions ≠ 0 then (nonempty polls).length + 1
      else (nonempty polls).length := by
  unfold nonempty
  by_cases hempty : poll.numCompletions = 0
  · simp [hempty]
  · simp [hempty]

/-- Empty polls return nothing. -/
theorem total_nonempty (polls : List PollResult) : total (nonempty polls) = total polls := by
  induction polls with
  | nil => rfl
  | cons poll polls ih =>
      by_cases hempty : poll.numCompletions = 0
      · simpa [nonempty, total, hempty] using ih
      · simpa [nonempty, total, hempty] using ih

/-- The polls that return something return at least one completion each, and exactly one
each when they return no more than that together. -/
theorem total_eq_length_iff (polls : List PollResult) :
    (nonempty polls).length ≤ total polls ∧
      (total polls ≤ (nonempty polls).length ↔ ∀ poll ∈ polls, poll.numCompletions ≤ 1) := by
  induction polls with
  | nil => simp
  | cons poll polls ih =>
      have hcons : total (poll :: polls) = poll.numCompletions + total polls := by simp [total]
      have hlength : (nonempty (poll :: polls)).length =
          (if poll.numCompletions ≠ 0 then 1 else 0) + (nonempty polls).length := by
        by_cases hempty : poll.numCompletions = 0
        · simp [nonempty, hempty]
        · simp [nonempty, hempty, Nat.add_comm]
      rw [List.forall_mem_cons, ← ih.2, hcons, hlength]
      have hle := ih.1
      split <;> omega

theorem total_le_of_prefix {first polls : List PollResult} (h : first <+: polls) :
    total first ≤ total polls := by
  obtain ⟨rest, rfl⟩ := h
  rw [total_append]
  omega

/-! ### Receive requests -/

/-- `endpoint.recv_wr` and the requests that have been posted, by their `wr_id`s. -/
structure RecvQueue where
  recvWr : UInt64
  posted : List UInt64
  deriving DecidableEq

/-- `ibv_post_recv` of a request with the `wr_id` of a completion. -/
def RecvQueue.postRecv (queue : RecvQueue) (wrId : UInt64) : RecvQueue :=
  ⟨wrId, queue.posted ++ [wrId]⟩

/-! ### The progress callback -/

/-- The fields of `ProxyArgs` that `recv_benchmark` works on. -/
structure RecvArgs where
  idle : Bool
  state : ProxyOpState
  iterations : Nat
  firstCompletion : Bool
  count : Nat
  recvs : RecvQueue
  deriving DecidableEq

/-- The operation as it is appended. -/
def RecvArgs.ready (args : RecvArgs) : RecvArgs :=
  { args with state := .proxyOpReady, iterations := 0 }

/-- The first branch of `recv_benchmark`. -/
def RecvArgs.start (args : RecvArgs) : RecvArgs :=
  if args.state = .proxyOpReady then
    { args with state := .proxyOpProgress, firstCompletion := true, count := 0 }
  else args

/-- The second branch of `recv_benchmark`: one poll. -/
def RecvArgs.receive (args : RecvArgs) (poll : PollResult) : RecvArgs :=
  if args.state = .proxyOpProgress ∧ args.iterations < 10 then
    let args :=
      { args with
        idle := false
        iterations :=
          if poll.numCompletions ≠ 0 then args.iterations + 1 else args.iterations
        count := args.count + poll.numCompletions
        recvs := poll.wcs.foldl RecvQueue.postRecv args.recvs }
    if 0 < args.count ∧ args.firstCompletion then
      { args with firstCompletion := false, count := 0 }
    else args
  else args

/-- The third branch of `recv_benchmark`. -/
def RecvArgs.finish (args : RecvArgs) : RecvArgs :=
  if args.iterations = 10 then { args with state := .proxyOpNone, idle := false } else args

/-- `recv_benchmark` of the proxy. -/
def recvBenchmark (args : RecvArgs) (poll : PollResult) : RecvArgs :=
  (args.start.receive poll).finish

/-- The call of the callback by `persistentThread`. -/
def visit (args : RecvArgs) (poll : PollResult) : RecvArgs :=
  let args := { args with idle := false }
  if args.state ≠ .proxyOpNone then recvBenchmark args poll else args

/-- The operation after the worker has visited it once for each poll result. -/
def proxied (args : RecvArgs) (polls : List PollResult) : RecvArgs :=
  polls.foldl visit args.ready

theorem proxied_concat (args : RecvArgs) (polls : List PollResult) (poll : PollResult) :
    proxied args (polls ++ [poll]) = visit (proxied args polls) poll := by
  simp [proxied]

/-- `iterations` counts the polls that return something, up to 10, and the operation is
finished when there have been 10 of them. -/
structure Counted (polls : List PollResult) (args : RecvArgs) : Prop where
  iterations : args.iterations = min (nonempty polls).length 10
  done : args.state = .proxyOpNone ↔ args.iterations = 10

/-- A visit of an unfinished operation polls once. -/
theorem visit_open {args : RecvArgs} (hstate : args.state ≠ .proxyOpNone)
    (hopen : args.iterations < 10) (poll : PollResult) :
    (visit args poll).iterations =
        (if poll.numCompletions ≠ 0 then args.iterations + 1 else args.iterations) ∧
      ((visit args poll).state = .proxyOpNone ↔ (visit args poll).iterations = 10) := by
  have hstart : ({ args with idle := false } : RecvArgs).start.state = .proxyOpProgress ∧
      ({ args with idle := false } : RecvArgs).start.iterations = args.iterations := by
    unfold RecvArgs.start
    cases hcase : args.state <;> simp_all
  obtain ⟨hprogress, hsame⟩ := hstart
  have hvisit : visit args poll =
      ((({ args with idle := false } : RecvArgs).start.receive poll).finish) := by
    unfold visit
    rw [if_pos hstate]
    rfl
  generalize ({ args with idle := false } : RecvArgs).start = started at *
  have hreceive : (started.receive poll).state = .proxyOpProgress ∧
      (started.receive poll).iterations =
        (if poll.numCompletions ≠ 0 then args.iterations + 1 else args.iterations) := by
    unfold RecvArgs.receive
    rw [if_pos ⟨hprogress, by omega⟩, ← hsame]
    dsimp only
    split <;> exact ⟨hprogress, rfl⟩
  rw [hvisit]
  unfold RecvArgs.finish
  split
  · next hten => exact ⟨hreceive.2, by simp [hten]⟩
  · next hten => exact ⟨hreceive.2, by simp [hten, hreceive.1]⟩

theorem visit_done {args : RecvArgs} (hstate : args.state = .proxyOpNone) (poll : PollResult) :
    visit args poll = { args with idle := false } := by
  simp [visit, hstate]

theorem Counted.visit {polls : List PollResult} {args : RecvArgs} (h : Counted polls args)
    (poll : PollResult) : Counted (polls ++ [poll]) (visit args poll) := by
  by_cases hstate : args.state = .proxyOpNone
  · have hten := h.done.mp hstate
    have hlength := h.iterations
    have hmore := nonempty_length_concat polls poll
    rw [visit_done hstate]
    refine ⟨?_, h.done⟩
    change args.iterations = _
    split at hmore <;> omega
  · have hopen : args.iterations < 10 := by
      have hne : args.iterations ≠ 10 := fun hten => hstate (h.done.mpr hten)
      have hlength := h.iterations
      omega
    obtain ⟨hiterations, hdone⟩ := visit_open hstate hopen poll
    refine ⟨?_, hdone⟩
    have hlength := h.iterations
    rw [hiterations, nonempty_length_concat]
    split <;> omega

theorem proxied_counted (args : RecvArgs) (polls : List PollResult) :
    Counted polls (proxied args polls) := by
  induction polls using List.reverseRecOn with
  | nil => exact ⟨rfl, by simp [proxied, RecvArgs.ready]⟩
  | append_singleton polls poll ih =>
      rw [proxied_concat]
      exact ih.visit poll

/-- The callback counts the polls that return something. -/
theorem proxied_done_iff (args : RecvArgs) (polls : List PollResult) :
    (proxied args polls).state = .proxyOpNone ↔ 10 ≤ (nonempty polls).length := by
  have hcounted := proxied_counted args polls
  have hiterations := hcounted.iterations
  rw [hcounted.done]
  omega

/-! ### The blocking loop -/

/-- The local variables of the blocking `recv_benchmark`. -/
structure RecvLoop where
  i : Nat
  firstCompletion : Bool
  count : Nat
  recvs : RecvQueue
  deriving DecidableEq

def RecvLoop.initial (recvs : RecvQueue) : RecvLoop := ⟨0, true, 0, recvs⟩

/-- The body of the loop. -/
def RecvLoop.body (loop : RecvLoop) (poll : PollResult) : RecvLoop :=
  let loop :=
    { loop with
      recvs := poll.wcs.foldl RecvQueue.postRecv loop.recvs
      i := loop.i + poll.numCompletions
      count := loop.count + poll.numCompletions }
  if 0 < loop.count ∧ loop.firstCompletion then
    { loop with firstCompletion := false, count := 0 }
  else loop

/-- The loop has been left: its condition is false. -/
def RecvLoop.Left (iterations : Nat) (loop : RecvLoop) : Prop := ¬ loop.i < iterations

instance (iterations : Nat) (loop : RecvLoop) : Decidable (loop.Left iterations) :=
  inferInstanceAs (Decidable (¬ loop.i < iterations))

/-- One round of the loop, if it has not been left. -/
def RecvLoop.round (iterations : Nat) (loop : RecvLoop) (poll : PollResult) : RecvLoop :=
  if loop.i < iterations then loop.body poll else loop

/-- The blocking `recv_benchmark` after each poll result. -/
def blocking (iterations : Nat) (recvs : RecvQueue) (polls : List PollResult) : RecvLoop :=
  polls.foldl (RecvLoop.round iterations) (.initial recvs)

@[simp] theorem body_i (loop : RecvLoop) (poll : PollResult) :
    (loop.body poll).i = loop.i + poll.numCompletions := by
  unfold RecvLoop.body
  dsimp only
  split <;> rfl

/-- `i` counts completions until the loop is left. -/
theorem blocking_i (iterations : Nat) (recvs : RecvQueue) (polls : List PollResult) :
    (blocking iterations recvs polls).i = total polls ∨
      iterations ≤ (blocking iterations recvs polls).i ∧ iterations ≤ total polls := by
  induction polls using List.reverseRecOn with
  | nil => exact .inl rfl
  | append_singleton polls poll ih =>
      have hconcat : blocking iterations recvs (polls ++ [poll]) =
          (blocking iterations recvs polls).round iterations poll := by
        simp [blocking]
      rw [hconcat, total_concat]
      unfold RecvLoop.round
      split
      · rw [body_i]
        omega
      · omega

/-- The loop counts completions. -/
theorem blocking_left_iff (iterations : Nat) (recvs : RecvQueue) (polls : List PollResult) :
    (blocking iterations recvs polls).Left iterations ↔ iterations ≤ total polls := by
  have hcount := blocking_i iterations recvs polls
  unfold RecvLoop.Left
  omega

/-! ### Do they finish together -/

/-- The prefix of the polls up to their ninth that returns something. -/
theorem exists_prefix_nonempty (polls : List PollResult) (n : Nat) :
    ∃ first, first <+: polls ∧ nonempty first = (nonempty polls).take n := by
  have hsplit : nonempty polls = (nonempty polls).take n ++ (nonempty polls).drop n :=
    (List.take_append_drop n _).symm
  obtain ⟨first, rest, hpolls, hfirst, -⟩ := List.filter_eq_append_iff.mp hsplit
  exact ⟨first, ⟨rest, hpolls.symm⟩, hfirst⟩

/-- **Receiving under any batching.**  The proxied operation has finished after the same
prefixes of the polls as the blocking loop exactly when the first nine polls that return
something return fewer than ten completions together; and when ten messages come, the
proxied operation finishes exactly when no poll returns two of them. -/
theorem recv_agree_iff (args : RecvArgs) (recvs : RecvQueue) (polls : List PollResult) :
    ((∀ first, first <+: polls →
        ((proxied args first).state = .proxyOpNone ↔ (blocking 10 recvs first).Left 10)) ↔
      total ((nonempty polls).take 9) < 10) ∧
    (total polls = 10 → ((proxied args polls).state = .proxyOpNone ↔
      ∀ poll ∈ polls, poll.numCompletions ≤ 1)) := by
  constructor
  · constructor
    · intro hagree
      obtain ⟨first, hprefix, hfirst⟩ := exists_prefix_nonempty polls 9
      have hsame := hagree first hprefix
      rw [proxied_done_iff, blocking_left_iff, ← total_nonempty first, hfirst,
        List.length_take] at hsame
      omega
    · intro hsmall first hprefix
      rw [proxied_done_iff, blocking_left_iff]
      constructor
      · intro hten
        have hle := (total_eq_length_iff first).1
        omega
      · intro hleft
        by_contra hfew
        -- all of the prefix that returns something is among the first nine such polls
        have hamong : nonempty first <+: (nonempty polls).take 9 :=
          List.prefix_take_iff.mpr ⟨List.IsPrefix.filter _ hprefix, by omega⟩
        have hle := total_le_of_prefix hamong
        rw [total_nonempty] at hle
        omega
  · intro hten
    have hcount := total_eq_length_iff polls
    rw [proxied_done_iff, ← hcount.2, hten]

/-- All ten messages in one poll. -/
def tenAtOnce : PollResult := ⟨[0, 1, 2, 3, 4, 5, 6, 7, 8, 9], by decide⟩

/-- The operation of the example: zeroed, then made ready. -/
def recvExample : RecvArgs := ⟨false, .proxyOpReady, 0, false, 0, ⟨0, []⟩⟩

/-- The blocking loop is left after that poll, and the proxied operation waits for nine more
polls that return something. -/
theorem recv_disagree :
    ¬ ∀ first, first <+: [tenAtOnce] →
      ((proxied recvExample first).state = .proxyOpNone ↔
        (blocking 10 ⟨0, []⟩ first).Left 10) := by
  intro hagree
  have hsame := hagree [tenAtOnce] (List.prefix_refl _)
  exact absurd hsame (by decide)

end Benchmark
end FlashReduce
