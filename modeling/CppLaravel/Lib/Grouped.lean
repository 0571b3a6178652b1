import Mathlib.Data.Finmap

/-!
# `CppLaravel.Lib.Grouped`: a list grouped by a key

`grouped key l` is a map from the keys to the elements that have them, built by appending one
element after the other. Under a key are the elements of the list with the key, in the order of
the list, and a key that none has is not there (`lookup_grouped`). `addUnder` appends something
that an element stands for instead of the element.
-/

set_option autoImplicit false

namespace CppLaravel.Lib

variable {α β κ : Type*} [DecidableEq κ]

/-- What an element stands for is appended to the group of its key. -/
def addUnder (key : α → κ) (val : α → β) (groups : Finmap fun _ : κ => List β) (a : α) :
    Finmap fun _ : κ => List β :=
  groups.insert (key a) ((groups.lookup (key a)).getD [] ++ [val a])

/-- The element is appended to the group of its key. -/
def addTo (key : α → κ) (groups : Finmap fun _ : κ => List α) (a : α) :
    Finmap fun _ : κ => List α :=
  groups.insert (key a) ((groups.lookup (key a)).getD [] ++ [a])

/-- The elements by their keys. -/
def grouped (key : α → κ) (l : List α) : Finmap fun _ : κ => List α := l.foldl (addTo key) ∅

/-- A group as a map holds it: an empty one is not there. -/
def groupOf (l : List α) : Option (List α) := if l = [] then none else some l

theorem getD_groupOf (l : List α) : (groupOf l).getD [] = l := by
  rw [groupOf]
  split
  · rename_i h
    exact h.symm
  · rfl

theorem lookup_foldl_addUnder (key : α → κ) (val : α → β) (groups : Finmap fun _ : κ => List β)
    (before l : List α) (k : κ)
    (h : groups.lookup k = groupOf ((before.filter (key · = k)).map val)) :
    (l.foldl (addUnder key val) groups).lookup k =
      groupOf (((before ++ l).filter (key · = k)).map val) := by
  induction l generalizing groups before with
  | nil => rw [List.append_nil]; exact h
  | cons a l ih =>
    rw [List.foldl_cons, List.append_cons before a l]
    refine ih (addUnder key val groups a) (before ++ [a]) ?_
    rw [addUnder, List.filter_append, List.map_append]
    by_cases ha : key a = k
    · subst ha
      rw [Finmap.lookup_insert, h, getD_groupOf, List.filter_cons_of_pos (by simp),
        List.filter_nil, List.map_singleton, groupOf, if_neg (by simp)]
    · rw [Finmap.lookup_insert_of_ne _ (Ne.symm ha), h, List.filter_cons_of_neg (by simpa using ha),
        List.filter_nil, List.map_nil, List.append_nil]

/-- **What is gathered under a key.** -/
theorem lookup_foldl_empty (key : α → κ) (val : α → β) (l : List α) (k : κ) :
    (l.foldl (addUnder key val) ∅).lookup k = groupOf ((l.filter (key · = k)).map val) :=
  lookup_foldl_addUnder key val ∅ [] l k (Finmap.lookup_empty k)

/-- **What is under a key.** -/
theorem lookup_grouped (key : α → κ) (l : List α) (k : κ) :
    (grouped key l).lookup k = groupOf (l.filter (key · = k)) := by
  have hlookup := lookup_foldl_empty key id l k
  rwa [List.map_id] at hlookup

end CppLaravel.Lib
