import Mathlib.Data.List.Basic

/-!
# `CppLaravel.Lib.Growing`: a vector that grows

A `Growing` vector keeps its elements in a storage with a capacity. `push` uses the storage while
there is room (`¬ full`), and takes a larger one where there is none: that is when positions in the
old storage stop being valid. How much larger is up to a parameter.
-/

set_option autoImplicit false

namespace CppLaravel.Lib

/-- The elements of a vector, and for how many there is room. -/
structure Growing (α : Type*) where
  items : List α
  capacity : Nat
  fits : items.length ≤ capacity

namespace Growing

variable {α : Type*} (v : Growing α)

/-- A vector that never held anything. -/
def empty : Growing α := ⟨[], 0, Nat.le_refl 0⟩

/-- The next element needs a new storage. -/
def full : Bool := v.items.length = v.capacity

/-- Appends an element. -/
def push (grow : Nat → Nat) (x : α) : Growing α where
  items := v.items ++ [x]
  capacity := if v.full then max (v.capacity + 1) (grow v.capacity) else v.capacity
  fits := by
    have hfits := v.fits
    rw [List.length_append, List.length_singleton]
    split
    · omega
    · rename_i hroom
      have hroom : v.items.length ≠ v.capacity := by simpa [full] using hroom
      omega

/-- Removes the elements; the storage stays. -/
def clear : Growing α where
  items := []
  capacity := v.capacity
  fits := Nat.zero_le _

@[simp] theorem items_empty : (empty : Growing α).items = [] := rfl

@[simp] theorem items_push (grow : Nat → Nat) (x : α) :
    (v.push grow x).items = v.items ++ [x] := rfl

@[simp] theorem items_clear : v.clear.items = [] := rfl

end Growing

end CppLaravel.Lib
