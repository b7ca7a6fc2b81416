import FlashReduce.Benchmark.Recv
import FlashReduce.Benchmark.Send

/-!
# The scripts of the write tests

The programs `rdma_write_rc_test`, `rdma_write_uc_test` and `proxy_send_recv` run on two
hosts.  One of them posts receives, the other one writes with immediate data, and in
between both call `syncData` and `syncReady` on a socket.

* A `Command` is a statement of such a program that the other host can notice, and a
  script the list of them.
* `weightBefore` adds up what a script does before its `k`-th `sync`, and
  `weightBefore_append` follows it through a run.
* `Sender` and `Receiver` are what both forms of the benchmark have in common, the loop
  of the write tests and the progress callback of the proxy.
-/

namespace FlashReduce
namespace WriteTest

open Benchmark Proxy

/-! ### Commands -/

inductive Command
  /-- the next call of `syncData` or `syncReady` -/
  | sync
  /-- `modify_qp_to_rts` with the neighbour's `QpInfo`, and the `CHECK` of its result -/
  | modifyQpToRts
  | postRecv (wrId : UInt64)
  | postSend (wrId : Nat)
  /-- poll until a completion is returned -/
  | waitCompletion
  /-- the benchmark of the side -/
  | benchmark
  /-- the destructor of the endpoint -/
  | closeSocket
  deriving DecidableEq

/-- What a command adds to the receives that are posted. -/
def Command.recvs : Command → Nat
  | .postRecv _ => 1
  | _ => 0

/-- What a command can add to the sends that are posted.  A benchmark posts ten at most. -/
def Command.sends : Command → Nat
  | .postSend _ => 1
  | .benchmark => 10
  | _ => 0

/-- The benchmark of a script is running or can be: it is the next command, or the worker of a
proxy may have it while the host has to close the socket. -/
def benchmarks : List Command → Bool
  | .benchmark :: _ => true
  | .closeSocket :: .benchmark :: _ => true
  | _ => false

theorem benchmarks_of_head {script : List Command} (h : script.head? = some .benchmark) :
    benchmarks script = true := by
  obtain ⟨rest, rfl⟩ := List.head?_eq_some_iff.mp h
  rfl

/-- The next command is the benchmark, or a `closeSocket` before it. -/
theorem benchmarks_cons {command : Command} {rest : List Command}
    (h : benchmarks (command :: rest) = true) :
    command = .benchmark ∨ command = .closeSocket ∧ rest.head? = some .benchmark := by
  unfold benchmarks at h
  split at h
  · next heq => exact .inl (List.cons.inj heq).1
  · next heq =>
    obtain ⟨rfl, rfl⟩ := List.cons.inj heq
    exact .inr ⟨rfl, rfl⟩
  · cases h

/-- How often a script synchronises. -/
def syncs (script : List Command) : Nat := script.count .sync

/-- What the commands of a script add up to. -/
def weight (w : Command → Nat) (script : List Command) : Nat := (script.map w).sum

/-- What the commands before the `k`-th `sync` add up to, and all commands when there are
fewer. -/
def weightBefore (w : Command → Nat) : List Command → Nat → Nat
  | [], _ => 0
  | command :: rest, k =>
      if command = .sync then if k = 0 then 0 else weightBefore w rest (k - 1)
      else w command + weightBefore w rest k

section Weight

variable {w : Command → Nat} {command : Command} {script first rest : List Command} {k : Nat}

@[simp] theorem syncs_nil : syncs [] = 0 := rfl

@[simp] theorem syncs_cons :
    syncs (command :: rest) = (if command = .sync then 1 else 0) + syncs rest := by
  simp only [syncs, List.count_cons, beq_iff_eq]
  omega

@[simp] theorem syncs_append : syncs (first ++ rest) = syncs first + syncs rest :=
  List.count_append

@[simp] theorem weight_nil : weight w [] = 0 := rfl

@[simp] theorem weight_cons : weight w (command :: rest) = w command + weight w rest := by
  simp [weight]

@[simp] theorem weight_append : weight w (first ++ rest) = weight w first + weight w rest := by
  simp [weight]

theorem weightBefore_le (w : Command → Nat) (script : List Command) (k : Nat) :
    weightBefore w script k ≤ weight w script := by
  induction script generalizing k with
  | nil => exact Nat.zero_le _
  | cons command rest ih =>
      rw [weightBefore, weight_cons]
      split
      · split
        · exact Nat.zero_le _
        · exact (ih _).trans (Nat.le_add_left ..)
      · exact Nat.add_le_add_left (ih _) _

/-- A script that has been run up to somewhere. -/
theorem weightBefore_append (hsync : w .sync = 0) :
    weightBefore w (first ++ rest) k =
      if k < syncs first then weightBefore w first k
      else weight w first + weightBefore w rest (k - syncs first) := by
  induction first generalizing k with
  | nil => simp
  | cons command first ih =>
      rw [List.cons_append, weightBefore, weightBefore]
      by_cases hcommand : command = .sync
      · subst hcommand
        cases k with
        | zero => simp
        | succ k =>
            simp only [if_true, Nat.succ_ne_zero, if_false, Nat.add_sub_cancel, ih, syncs_cons,
              weight_cons, hsync, Nat.zero_add]
            by_cases hlt : k < syncs first
            · rw [if_pos hlt, if_pos (by omega)]
            · rw [if_neg hlt, if_neg (by omega), Nat.add_comm 1, Nat.add_sub_add_right]
      · simp only [if_neg hcommand, ih, syncs_cons, weight_cons, Nat.zero_add]
        split
        · rfl
        · rw [Nat.add_assoc]

/-- What comes before a `sync` that has been entered has been done. -/
theorem weightBefore_le_of_entered (hsync : w .sync = 0)
    (hentered : k < syncs first ∨ k = syncs first ∧ rest.head? = some .sync) :
    weightBefore w (first ++ rest) k ≤ weight w first := by
  rw [weightBefore_append hsync]
  rcases hentered with hlt | ⟨rfl, hhead⟩
  · rw [if_pos hlt]
    exact weightBefore_le ..
  · obtain ⟨rest', rfl⟩ : ∃ rest', rest = .sync :: rest' := by
      cases rest with
      | nil => cases hhead
      | cons command rest' => exact ⟨rest', by rw [Option.some.inj hhead]⟩
    rw [if_neg (Nat.lt_irrefl _), Nat.sub_self]
    simp [weightBefore]

/-- What has been done is among what comes before the next `sync`. -/
theorem weight_add_le (hsync : w .sync = 0) :
    weight w first + weightBefore w rest 0 = weightBefore w (first ++ rest) (syncs first) := by
  rw [weightBefore_append hsync, if_neg (Nat.lt_irrefl _), Nat.sub_self]

end Weight

/-! ### Benchmarks -/

/-- The sending form of a benchmark.  `spent` is what it counts its rounds by, and `round` is
a round whose poll would return the given number, or nothing when the benchmark has
returned. -/
structure Sender (σ : Type) where
  start : σ
  sends : σ → SendQueue
  withSends : σ → SendQueue → σ
  spent : σ → Nat
  polls : σ → Bool
  round : σ → Nat → Option σ
  sends_start : sends start = .empty 0
  spent_start : spent start = 0
  sends_withSends : ∀ s queue, sends (withSends s queue) = queue
  spent_withSends : ∀ s queue, spent (withSends s queue) = spent s
  round_sends : ∀ s n s', round s n = some s' →
    if polls s then sends s' = (sends s).pollCq n ∧ spent s ≤ spent s'
    else sends s' = sends s ∧ spent s ≤ spent s' ∨
      ∃ wrId, sends s' = (sends s).postSend wrId ∧ spent s + 1 ≤ spent s'
  round_spent : ∀ s n s', round s n = some s' → spent s ≤ 10 → spent s' ≤ 10

/-- The receiving form of a benchmark. -/
structure Receiver (τ : Type) where
  start : τ
  recvs : τ → RecvQueue
  withRecvs : τ → RecvQueue → τ
  polls : τ → Bool
  round : τ → PollResult → Option τ
  recvs_start : recvs start = ⟨0, []⟩
  recvs_withRecvs : ∀ t queue, recvs (withRecvs t queue) = queue
  round_recvs : ∀ t poll t', round t poll = some t' →
    recvs t' = if polls t then poll.wcs.foldl RecvQueue.postRecv (recvs t) else recvs t

/-- The loop `send_benchmark` with ten iterations and a credit of `kSendQueueDepth`. -/
def loopSender : Sender SendLoop where
  start := ⟨0, 256, .empty 0⟩
  sends := SendLoop.sends
  withSends loop queue := { loop with sends := queue }
  spent := SendLoop.i
  polls loop := loop.availableWqes = 0
  round := SendLoop.round 10
  sends_start := rfl
  spent_start := rfl
  sends_withSends _ _ := rfl
  spent_withSends _ _ := rfl
  round_sends := by
    intro loop n loop' hround
    unfold SendLoop.round at hround
    split at hround
    · split at hround
      · next hcredit =>
        cases hround
        simp [hcredit]
      · next hcredit =>
        cases hround
        simp only [hcredit, decide_false, Bool.false_eq_true, if_false]
        exact .inr ⟨loop.i, rfl, Nat.le_refl _⟩
    · cases hround
  round_spent := by
    intro loop n loop' hround hle
    unfold SendLoop.round at hround
    split at hround
    · split at hround <;> cases hround
      · exact hle
      · next hopen _ => exact hopen
    · cases hround

/-- The loop `recv_benchmark` with ten iterations. -/
def loopReceiver : Receiver RecvLoop where
  start := .initial ⟨0, []⟩
  recvs := RecvLoop.recvs
  withRecvs loop queue := { loop with recvs := queue }
  polls _ := true
  round loop poll := if loop.i < 10 then some (loop.body poll) else none
  recvs_start := rfl
  recvs_withRecvs _ _ := rfl
  round_recvs := by
    intro loop poll loop' hround
    split at hround
    · obtain rfl := Option.some.inj hround
      unfold RecvLoop.body
      dsimp only
      split <;> rfl
    · cases hround

/-- A visit of the worker, as long as the operation has not finished. -/
theorem visit_running {args : SendArgs} (hstate : args.state ≠ .proxyOpNone) (n : Nat) :
    (args.visit n).sends =
        (if args.iterations < 10 then
          if args.availableWqes = 0 then args.sends.pollCq n
          else args.sends.postSend (args.iterations + 1)
        else args.sends) ∧
      (args.visit n).iterations =
        if args.iterations < 10 then args.iterations + 1 else args.iterations := by
  have hvisit : args.visit n = sendBenchmark { args with idle := false } n := by
    simp [SendArgs.visit, hstate]
  have hstart : ({ args with idle := false } : SendArgs).start.state = .proxyOpProgress :=
    start_state hstate
  rw [hvisit]
  unfold sendBenchmark
  dsimp only
  by_cases hopen : args.iterations < 10
  · rw [if_pos ⟨hstart, by simpa using hopen⟩, if_pos hopen, if_pos hopen]
    by_cases hempty : args.availableWqes = 0
    · rw [if_pos (by simpa using hempty), if_pos hempty]
      exact ⟨by simp [SendArgs.poll], by simp [SendArgs.poll]⟩
    · rw [if_neg (by simpa using hempty), if_neg hempty]
      exact ⟨by simp [SendArgs.post], by simp [SendArgs.post]⟩
  · rw [if_neg (by simp [hopen]), if_neg hopen, if_neg hopen]
    exact ⟨by simp, by simp⟩

/-- The progress callback `send_benchmark`, visited by the worker until the operation has
finished, with a credit of `kSendQueueDepth`. -/
def proxySender : Sender SendArgs where
  start := ⟨false, .proxyOpReady, 0, 256, .empty 0⟩
  sends := SendArgs.sends
  withSends args queue := { args with sends := queue }
  spent := SendArgs.iterations
  polls args := args.iterations < 10 ∧ args.availableWqes = 0
  round args n := if args.state = .proxyOpNone then none else some (args.visit n)
  sends_start := rfl
  spent_start := rfl
  sends_withSends _ _ := rfl
  spent_withSends _ _ := rfl
  round_sends := by
    intro args n args' hround
    split at hround
    · cases hround
    · next hstate =>
      obtain rfl := Option.some.inj hround
      obtain ⟨hsends, hiterations⟩ := visit_running hstate n
      rw [hsends, hiterations]
      by_cases hopen : args.iterations < 10
      · by_cases hempty : args.availableWqes = 0
        · simp [hopen, hempty]
        · simp only [hopen, hempty, if_true, and_false, decide_false, Bool.false_eq_true, if_false]
          exact .inr ⟨_, rfl, Nat.le_refl _⟩
      · simp [hopen]
  round_spent := by
    intro args n args' hround hle
    split at hround
    · cases hround
    · next hstate =>
      obtain rfl := Option.some.inj hround
      rw [(visit_running hstate n).2]
      split <;> omega

/-- The progress callback `recv_benchmark`, visited by the worker until the operation has
finished. -/
def proxyReceiver : Receiver RecvArgs where
  start := ⟨false, .proxyOpReady, 0, false, 0, ⟨0, []⟩⟩
  recvs := RecvArgs.recvs
  withRecvs args queue := { args with recvs := queue }
  polls args := args.iterations < 10
  round args poll := if args.state = .proxyOpNone then none else some (visit args poll)
  recvs_start := rfl
  recvs_withRecvs _ _ := rfl
  round_recvs := by
    intro args poll args' hround
    split at hround
    · cases hround
    · next hstate =>
      obtain rfl := Option.some.inj hround
      have hstart : ({ args with idle := false } : RecvArgs).start.state = .proxyOpProgress ∧
          ({ args with idle := false } : RecvArgs).start.iterations = args.iterations ∧
          ({ args with idle := false } : RecvArgs).start.recvs = args.recvs := by
        unfold RecvArgs.start
        cases hcase : args.state <;> simp_all
      obtain ⟨hprogress, hsame, hrecvs⟩ := hstart
      have hfinish (args : RecvArgs) : args.finish.recvs = args.recvs := by
        unfold RecvArgs.finish
        split <;> rfl
      unfold visit
      rw [if_pos hstate, recvBenchmark, hfinish]
      unfold RecvArgs.receive
      by_cases hopen : args.iterations < 10
      · rw [if_pos ⟨hprogress, by omega⟩]
        dsimp only
        split <;> simp [hrecvs, hopen]
      · rw [if_neg (by omega)]
        simp [hrecvs, hopen]

end WriteTest
end FlashReduce
