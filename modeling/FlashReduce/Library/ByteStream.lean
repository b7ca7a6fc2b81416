import Mathlib.Data.List.Flatten
import Mathlib.Data.List.Infix
import Mathlib.Tactic.Common

/-!
# Reliable streams

A `ByteStream` is one direction of a reliable connection: everything that was written
to it, in order, and how much of that was read.  Writes and reads need not match.

`messages f n` are the first `n` messages of a sequence, one after the other; a reader
that takes each message as a whole finds the next one at `offset f n`
(`messages_slice`).
-/

namespace FlashReduce
namespace Library

variable {β : Type*}

/-- One direction of a reliable connection. -/
structure ByteStream (β : Type*) where
  written : List β
  read : Nat
  read_le : read ≤ written.length

namespace ByteStream

def empty : ByteStream β := ⟨[], 0, Nat.le_refl 0⟩

/-- What was written and not yet read. -/
def available (s : ByteStream β) : List β := s.written.drop s.read

def write (s : ByteStream β) (xs : List β) : ByteStream β where
  written := s.written ++ xs
  read := s.read
  read_le := by
    rw [List.length_append]
    exact Nat.le_add_right_of_le s.read_le

/-- Take the next `n` elements, or all that there are. -/
def skip (s : ByteStream β) (n : Nat) : ByteStream β where
  written := s.written
  read := min (s.read + n) s.written.length
  read_le := Nat.min_le_right ..

@[simp] theorem write_written (s : ByteStream β) (xs : List β) :
    (s.write xs).written = s.written ++ xs := rfl

theorem skip_read (s : ByteStream β) {n : Nat} (hn : n ≤ s.available.length) :
    (s.skip n).read = s.read + n := by
  rw [available, List.length_drop] at hn
  have hle := s.read_le
  show min (s.read + n) s.written.length = s.read + n
  omega

end ByteStream

/-! ### Messages -/

/-- The first `n` messages, one after the other. -/
def messages (f : Nat → List β) (n : Nat) : List β := (List.range n).flatMap f

/-- Where the message `n` begins. -/
def offset (f : Nat → List β) (n : Nat) : Nat := (messages f n).length

variable {f : Nat → List β} {m n : Nat}

theorem messages_succ (f : Nat → List β) (n : Nat) : messages f (n + 1) = messages f n ++ f n := by
  simp [messages, List.range_succ]

theorem offset_succ (f : Nat → List β) (n : Nat) : offset f (n + 1) = offset f n + (f n).length := by
  simp [offset, messages_succ]

theorem messages_isPrefix (h : m ≤ n) : messages f m <+: messages f n := by
  induction n, h using Nat.le_induction with
  | base => exact List.prefix_refl _
  | succ n _ ih =>
      rw [messages_succ]
      exact ih.trans (List.prefix_append _ _)

theorem offset_le (h : m ≤ n) : offset f m ≤ offset f n := (messages_isPrefix h).length_le

/-- When the message `n` was written completely, it is what comes after the messages before
it. -/
theorem messages_slice (h : offset f n + (f n).length ≤ offset f m) :
    ((messages f m).drop (offset f n)).take (f n).length = f n := by
  rcases Nat.lt_or_ge n m with hlt | hge
  · obtain ⟨rest, hrest⟩ := messages_isPrefix (f := f) (Nat.succ_le_of_lt hlt)
    rw [← hrest, messages_succ, List.append_assoc, offset, List.drop_left, List.take_left]
  · -- then there is nothing to read
    have hle : offset f m ≤ offset f n := offset_le hge
    have hnil : f n = [] := List.eq_nil_of_length_eq_zero (by omega)
    simp [hnil]

end Library
end FlashReduce
