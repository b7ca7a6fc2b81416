import Mathlib.Algebra.GroupWithZero.Nat
import Mathlib.Data.List.Basic
import Mathlib.Tactic.Common

/-!
# Base-128 varints

A number is written as groups of seven bits, the lowest first, one group in a byte;
every byte but the last has its high bit set.  `encodeVarint more n` writes at most
`more + 1` bytes, which is enough for `n < 128 ^ (more + 1)`; `decodeVarint more`
reads no more than that.
-/

namespace FlashReduce
namespace Library

/-- The varint of a number, in at most `more + 1` bytes. -/
def encodeVarint : Nat → Nat → List UInt8
  | 0, n => [UInt8.ofNat n]
  | more + 1, n =>
      if n < 128 then [UInt8.ofNat n]
      else UInt8.ofNat (n % 128 + 128) :: encodeVarint more (n / 128)

/-- The varint at the front of some bytes, with the bytes after it. -/
def decodeVarint : Nat → List UInt8 → Option (Nat × List UInt8)
  | _, [] => none
  | 0, b :: rest => if b.toNat < 128 then some (b.toNat, rest) else none
  | more + 1, b :: rest =>
      if b.toNat < 128 then some (b.toNat, rest)
      else (decodeVarint more rest).map fun (n, rest) => (b.toNat - 128 + 128 * n, rest)

/-- How many bytes the varint of a number takes. -/
def varintSize : Nat → Nat → Nat
  | 0, _ => 1
  | more + 1, n => if n < 128 then 1 else varintSize more (n / 128) + 1

theorem length_encodeVarint (more n : Nat) :
    (encodeVarint more n).length = varintSize more n := by
  induction more generalizing n with
  | zero => rfl
  | succ more ih =>
      unfold encodeVarint varintSize
      split
      · rfl
      · rw [List.length_cons, ih]

/-- A varint is read back, with whatever comes after it. -/
theorem decodeVarint_encodeVarint (more n : Nat) (rest : List UInt8) (hn : n < 128 ^ (more + 1)) :
    decodeVarint more (encodeVarint more n ++ rest) = some (n, rest) := by
  have hlast {n : Nat} (hn : n < 128) : (UInt8.ofNat n).toNat = n := by
    rw [UInt8.toNat_ofNat']
    omega
  induction more generalizing n with
  | zero =>
      have hn : n < 128 := by simpa using hn
      simp [encodeVarint, decodeVarint, hlast hn, hn]
  | succ more ih =>
      by_cases hsmall : n < 128
      · simp [encodeVarint, decodeVarint, hlast hsmall, hsmall]
      · have hbyte : (UInt8.ofNat (n % 128 + 128)).toNat = n % 128 + 128 := by
          rw [UInt8.toNat_ofNat']
          omega
        have hquot : n / 128 < 128 ^ (more + 1) := by
          rw [Nat.div_lt_iff_lt_mul (by decide), ← Nat.pow_succ]
          exact hn
        have hbig : ¬ n % 128 + 128 < 128 := by omega
        rw [encodeVarint, if_neg hsmall, List.cons_append, decodeVarint, hbyte, if_neg hbig,
          ih (n / 128) hquot, Option.map_some]
        have hsum : n % 128 + 128 - 128 + 128 * (n / 128) = n := by omega
        exact congrArg (fun n => some (n, rest)) hsum

example : encodeVarint 9 300 = [0xAC, 0x02] := by decide

end Library
end FlashReduce
