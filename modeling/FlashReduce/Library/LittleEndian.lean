import Mathlib.Algebra.GroupWithZero.Nat
import Mathlib.Data.List.Basic
import Mathlib.Tactic.Common

/-!
# Little-endian numbers

`leBytes w n` are the `w` lowest bytes of `n`, the lowest first, and `leValue` is the number
that some bytes stand for.  A number that fits into `w` bytes is read back from them
(`leValue_leBytes`), and a row of such numbers from their bytes (`leRead_leWrite`).
-/

namespace FlashReduce
namespace Library

def leBytes : Nat → Nat → List UInt8
  | 0, _ => []
  | w + 1, n => UInt8.ofNat (n % 256) :: leBytes w (n / 256)

def leValue : List UInt8 → Nat
  | [] => 0
  | b :: bytes => b.toNat + 256 * leValue bytes

@[simp] theorem length_leBytes (w n : Nat) : (leBytes w n).length = w := by
  induction w generalizing n with
  | zero => rfl
  | succ w ih => rw [leBytes, List.length_cons, ih]

theorem leValue_leBytes (w n : Nat) (hn : n < 256 ^ w) : leValue (leBytes w n) = n := by
  induction w generalizing n with
  | zero =>
      have hzero : n = 0 := by simpa using hn
      rw [hzero]
      rfl
  | succ w ih =>
      have hquot : n / 256 < 256 ^ w := by
        rw [Nat.div_lt_iff_lt_mul (by decide), ← Nat.pow_succ]
        exact hn
      have hbyte : (UInt8.ofNat (n % 256)).toNat = n % 256 := by
        rw [UInt8.toNat_ofNat']
        omega
      rw [leBytes, leValue, ih _ hquot, hbyte]
      omega

/-! ### Rows -/

/-- Numbers in a row, each with its width. -/
def leWrite : List (Nat × Nat) → List UInt8
  | [] => []
  | (w, n) :: fields => leBytes w n ++ leWrite fields

/-- The numbers of the given widths. -/
def leRead : List Nat → List UInt8 → List Nat
  | [], _ => []
  | w :: widths, bytes => leValue (bytes.take w) :: leRead widths (bytes.drop w)

theorem length_leWrite (fields : List (Nat × Nat)) :
    (leWrite fields).length = (fields.map Prod.fst).sum := by
  induction fields with
  | nil => rfl
  | cons field fields ih => simp [leWrite, ih]

theorem leRead_leWrite (fields : List (Nat × Nat)) (h : ∀ field ∈ fields, field.2 < 256 ^ field.1) :
    leRead (fields.map Prod.fst) (leWrite fields) = fields.map Prod.snd := by
  induction fields with
  | nil => rfl
  | cons field fields ih =>
      obtain ⟨hfield, hfields⟩ := List.forall_mem_cons.mp h
      rw [List.map_cons, List.map_cons, leWrite, leRead,
        List.take_left' (length_leBytes ..), List.drop_left' (length_leBytes ..),
        leValue_leBytes _ _ hfield, ih hfields]

end Library
end FlashReduce
