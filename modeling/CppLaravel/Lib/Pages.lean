import Mathlib.Algebra.Order.Floor.Div
import Mathlib.Data.List.Basic

/-!
# `CppLaravel.Lib.Pages`: a list cut into pages

`page n l k` is the page with the number `k`, from `0`, of a list in pages of `n`. There are
`l.length ⌈/⌉ n` pages: they make up the list (`flatMap_page`), and all later ones are empty
(`page_eq_nil_iff`).
-/

set_option autoImplicit false

namespace CppLaravel.Lib

variable {α : Type*}

/-- The page with the number `k`. -/
def page (n : Nat) (l : List α) (k : Nat) : List α := (l.drop (k * n)).take n

theorem flatMap_range_page (n : Nat) (l : List α) (k : Nat) :
    (List.range k).flatMap (page n l) = l.take (k * n) := by
  induction k with
  | zero => simp
  | succ k ih =>
    rw [List.range_succ, List.flatMap_append, ih, List.flatMap_singleton, page, Nat.succ_mul,
      List.take_add]

/-- A page is empty iff the list ends before it. -/
theorem page_eq_nil_iff {n : Nat} (hn : 0 < n) {l : List α} {k : Nat} :
    page n l k = [] ↔ l.length ⌈/⌉ n ≤ k := by
  rw [page, List.take_eq_nil_iff, List.drop_eq_nil_iff, ceilDiv_le_iff_le_mul hn, Nat.mul_comm]
  exact or_iff_right (Nat.ne_of_gt hn)

/-- The pages make up the list. -/
theorem flatMap_page {n : Nat} (hn : 0 < n) (l : List α) :
    (List.range (l.length ⌈/⌉ n)).flatMap (page n l) = l := by
  have hle : l.length ≤ n * (l.length ⌈/⌉ n) := (ceilDiv_le_iff_le_mul hn).mp (le_refl _)
  rw [flatMap_range_page, List.take_of_length_le]
  rwa [Nat.mul_comm]

end CppLaravel.Lib
