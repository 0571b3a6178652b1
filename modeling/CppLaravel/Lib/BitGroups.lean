import Mathlib.Tactic.Ring

/-!
# `CppLaravel.Lib.BitGroups`: a string of bits in groups of a fixed size

`bitsBE k n` are the last `k` bits of the number `n`, most significant first, and `ofBits` is the
number that such a string denotes. `bitGroups w` cuts a string of bits into groups of `w`, read as
numbers; zeros fill up the last one.

* `ofBits_bitsBE`: the round trip.
* `bitGroups_bitsBE_append`, `bitGroups_bitsBE_short`: the first group, and a last one that is not
  full.
-/

set_option autoImplicit false

namespace CppLaravel.Lib

/-- The last `k` bits of a number. -/
def bitsBE : Nat → Nat → List Bool
  | 0, _ => []
  | k + 1, n => (n / 2 ^ k % 2 == 1) :: bitsBE k n

/-- The number that the bits denote. -/
def ofBits (l : List Bool) : Nat := l.foldl (fun n b => n * 2 + b.toNat) 0

/-- The bits in groups of `w`, the last one filled up with zeros. -/
def bitGroups (w : Nat) (l : List Bool) : List Nat :=
  if 0 < w ∧ l ≠ [] then
    ofBits (l.take w ++ List.replicate (w - l.length) false) :: bitGroups w (l.drop w)
  else []
termination_by l.length
decreasing_by
  rename_i h
  have hpos := List.length_pos_iff.mpr h.2
  rw [List.length_drop]
  omega

@[simp] theorem length_bitsBE (k n : Nat) : (bitsBE k n).length = k := by
  induction k with
  | zero => rfl
  | succ k ih => rw [bitsBE, List.length_cons, ih]

/-- Bits read behind a number shift it to the left. -/
theorem foldl_bitsBE (k n acc : Nat) :
    (bitsBE k n).foldl (fun n b => n * 2 + b.toNat) acc = acc * 2 ^ k + n % 2 ^ k := by
  induction k generalizing acc with
  | zero => simp [bitsBE, Nat.mod_one]
  | succ k ih =>
    have hbit : (n / 2 ^ k % 2 == 1).toNat = n / 2 ^ k % 2 := by
      rcases Nat.mod_two_eq_zero_or_one (n / 2 ^ k) with h | h <;> simp [h]
    rw [bitsBE, List.foldl_cons, ih, hbit, Nat.pow_succ, Nat.mod_mul]
    ring

/-- The bits of a number denote it, up to what does not fit. -/
theorem ofBits_bitsBE (k n : Nat) : ofBits (bitsBE k n) = n % 2 ^ k := by
  rw [ofBits, foldl_bitsBE, Nat.zero_mul, Nat.zero_add]

/-- What stands above the last `k` bits does not count. -/
theorem bitsBE_add_mul (k m n : Nat) : bitsBE k (m * 2 ^ k + n) = bitsBE k n := by
  induction k generalizing m with
  | zero => rfl
  | succ k ih =>
    have hpow : m * 2 ^ (k + 1) = m * 2 * 2 ^ k := by
      rw [Nat.pow_succ]
      ring
    have hdiv : (m * 2 * 2 ^ k + n) / 2 ^ k = m * 2 + n / 2 ^ k := by
      rw [Nat.add_comm, Nat.add_mul_div_right _ _ (Nat.two_pow_pos k), Nat.add_comm]
    rw [bitsBE, bitsBE, hpow, ih (m * 2), hdiv, Nat.add_comm, Nat.add_mul_mod_self_right]

/-- High and low bits. -/
theorem bitsBE_append (j k n : Nat) : bitsBE j (n / 2 ^ k) ++ bitsBE k n = bitsBE (j + k) n := by
  induction j with
  | zero => rw [bitsBE, List.nil_append, Nat.zero_add]
  | succ j ih =>
    have hdiv : n / 2 ^ k / 2 ^ j = n / 2 ^ (j + k) := by
      rw [Nat.div_div_eq_div_mul, ← Nat.pow_add, Nat.add_comm k j]
    rw [bitsBE, List.cons_append, ih, Nat.succ_add, bitsBE, hdiv]

/-- The bits of two numbers are those of one. -/
theorem bitsBE_append_bitsBE {k n : Nat} (h : n < 2 ^ k) (j m : Nat) :
    bitsBE j m ++ bitsBE k n = bitsBE (j + k) (m * 2 ^ k + n) := by
  have hdiv : (m * 2 ^ k + n) / 2 ^ k = m := by
    rw [Nat.add_comm, Nat.add_mul_div_right _ _ (Nat.two_pow_pos k), Nat.div_eq_of_lt h,
      Nat.zero_add]
  rw [← bitsBE_append, hdiv, bitsBE_add_mul]

/-- Zeros behind a number multiply it. -/
theorem bitsBE_append_replicate (j k n : Nat) :
    bitsBE j n ++ List.replicate k false = bitsBE (j + k) (n * 2 ^ k) := by
  have hzero : List.replicate k false = bitsBE k 0 := by
    induction k with
    | zero => rfl
    | succ k ih =>
      rw [List.replicate_succ, ih, bitsBE, Nat.zero_div]
      rfl
  rw [hzero, bitsBE_append_bitsBE (Nat.two_pow_pos k), Nat.add_zero]

@[simp] theorem bitGroups_nil (w : Nat) : bitGroups w [] = [] := by
  rw [bitGroups, if_neg (by simp)]

/-- **The first group.** -/
theorem bitGroups_bitsBE_append {w : Nat} (hw : 0 < w) (n : Nat) (l : List Bool) :
    bitGroups w (bitsBE w n ++ l) = n % 2 ^ w :: bitGroups w l := by
  have hne : bitsBE w n ++ l ≠ [] := by
    rw [← List.length_pos_iff, List.length_append, length_bitsBE]
    omega
  have htake : (bitsBE w n ++ l).take w = bitsBE w n := List.take_left' (length_bitsBE w n)
  have hdrop : (bitsBE w n ++ l).drop w = l := List.drop_left' (length_bitsBE w n)
  have hfull : w - (bitsBE w n ++ l).length = 0 := by
    rw [List.length_append, length_bitsBE]
    omega
  rw [bitGroups, if_pos ⟨hw, hne⟩, htake, hdrop, hfull, List.replicate_zero, List.append_nil,
    ofBits_bitsBE]

/-- **A last group that is not full.** -/
theorem bitGroups_bitsBE_short {w k : Nat} (hk : 0 < k) (hkw : k < w) (n : Nat) :
    bitGroups w (bitsBE k n) = [n * 2 ^ (w - k) % 2 ^ w] := by
  have hne : bitsBE k n ≠ [] := by
    rw [← List.length_pos_iff, length_bitsBE]
    exact hk
  have htake : (bitsBE k n).take w = bitsBE k n :=
    List.take_of_length_le (by rw [length_bitsBE]; omega)
  have hdrop : (bitsBE k n).drop w = [] :=
    List.drop_eq_nil_of_le (by rw [length_bitsBE]; omega)
  rw [bitGroups, if_pos ⟨by omega, hne⟩, htake, hdrop, length_bitsBE, bitsBE_append_replicate,
    ofBits_bitsBE, bitGroups_nil, Nat.add_sub_cancel' (by omega)]

end CppLaravel.Lib
