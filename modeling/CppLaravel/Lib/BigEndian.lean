import Mathlib.Data.Nat.Basic
import Mathlib.Tactic.Ring

/-!
# `CppLaravel.Lib.BigEndian`: numbers as bytes, most significant first

`bigEndian` is the number that a list of bytes denotes in base 256, and `toBigEndian k n` the
last `k` digits of `n`. `bigEndian_toBigEndian` is the round trip.
-/

set_option autoImplicit false

namespace CppLaravel.Lib

/-- The number that the bytes denote. -/
def bigEndian (l : List UInt8) : Nat := l.foldl (fun n b => n * 256 + b.toNat) 0

/-- The last `k` digits of the number in base 256. -/
def toBigEndian : Nat → Nat → List UInt8
  | 0, _ => []
  | k + 1, n => UInt8.ofNat (n / 256 ^ k % 256) :: toBigEndian k n

@[simp] theorem length_toBigEndian (k n : Nat) : (toBigEndian k n).length = k := by
  induction k with
  | zero => rfl
  | succ k ih => rw [toBigEndian, List.length_cons, ih]

/-- Digits read behind a number shift it to the left. -/
theorem foldl_toBigEndian (k n acc : Nat) :
    (toBigEndian k n).foldl (fun n b => n * 256 + b.toNat) acc = acc * 256 ^ k + n % 256 ^ k := by
  induction k generalizing acc with
  | zero => simp [toBigEndian, Nat.mod_one]
  | succ k ih =>
    have hdigit : (UInt8.ofNat (n / 256 ^ k % 256)).toNat = n / 256 ^ k % 256 := by
      rw [UInt8.toNat_ofNat']
      exact Nat.mod_eq_of_lt (Nat.mod_lt _ (by omega))
    rw [toBigEndian, List.foldl_cons, ih, hdigit, Nat.pow_succ, Nat.mod_mul]
    ring

/-- The digits of a number that fits denote it. -/
theorem bigEndian_toBigEndian {k n : Nat} (h : n < 256 ^ k) : bigEndian (toBigEndian k n) = n := by
  rw [bigEndian, foldl_toBigEndian, Nat.zero_mul, Nat.zero_add, Nat.mod_eq_of_lt h]

end CppLaravel.Lib
