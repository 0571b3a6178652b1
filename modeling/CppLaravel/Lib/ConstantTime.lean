import Mathlib.Data.List.Basic
import Mathlib.Data.UInt

/-!
# `CppLaravel.Lib.ConstantTime`: comparing texts without a branch

A comparison in constant time or-s the differences of all bytes together and looks at the result
alone. At equal lengths it is zero exactly for equal texts (`difference_eq_zero_iff`).
-/

set_option autoImplicit false

namespace CppLaravel.Lib

/-- The differences of the bytes of two texts, together. -/
def difference (a b : List UInt8) : UInt8 :=
  (a.zip b).foldl (fun diff x => diff ||| (x.1 ^^^ x.2)) 0

theorem foldl_or_eq_zero {diff : UInt8} {l : List (UInt8 × UInt8)} :
    l.foldl (fun diff x => diff ||| (x.1 ^^^ x.2)) diff = 0 ↔ diff = 0 ∧ ∀ x ∈ l, x.1 = x.2 := by
  induction l generalizing diff with
  | nil => simp
  | cons x l ih => simp [ih, and_assoc]

theorem eq_of_forall_zip {a b : List UInt8} (hlength : a.length = b.length) :
    (∀ x ∈ a.zip b, x.1 = x.2) ↔ a = b := by
  induction a generalizing b with
  | nil => simp [List.length_eq_zero_iff.mp hlength.symm]
  | cons c a ih =>
    cases b with
    | nil => cases hlength
    | cons d b =>
      have htail := ih (Nat.succ.inj hlength)
      simp only [List.zip_cons_cons, List.forall_mem_cons, htail, List.cons.injEq]

/-- Texts of one length differ nowhere exactly if they are equal. -/
theorem difference_eq_zero_iff {a b : List UInt8} (hlength : a.length = b.length) :
    difference a b = 0 ↔ a = b := by
  rw [difference, foldl_or_eq_zero, eq_of_forall_zip hlength]
  exact and_iff_right rfl

/-- The differences, taken before they are put together. -/
theorem foldl_zipWith_xor (a b : List UInt8) :
    (List.zipWith (· ^^^ ·) a b).foldl (· ||| ·) 0 = difference a b := by
  rw [difference, ← List.map_uncurry_zip_eq_zipWith, List.foldl_map]
  rfl

/-- A comparison by length and differences tells the texts apart. -/
theorem same_iff {a b : List UInt8} :
    (if a.length ≠ b.length then false else decide (difference a b = 0)) = true ↔ a = b := by
  split
  · rename_i hlength
    simpa using fun h : a = b => hlength (congrArg List.length h)
  · rename_i hlength
    rw [decide_eq_true_iff, difference_eq_zero_iff (not_not.mp hlength)]

end CppLaravel.Lib
