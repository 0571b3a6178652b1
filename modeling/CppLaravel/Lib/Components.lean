import Mathlib.Data.List.Basic

/-!
# `CppLaravel.Lib.Components`: the components of a separated text

`components sep s` are the non-empty parts of a text between separators. A text with a
separator and more behind it has the components of both (`components_append_cons`), so a
prefix that ends before a separator is a prefix of the components
(`components_prefix_of_prefix`).
-/

set_option autoImplicit false

namespace CppLaravel.Lib

variable {α : Type*} [DecidableEq α] {sep : α}

/-- The non-empty parts of a text between separators. -/
def components (sep : α) (s : List α) : List (List α) :=
  (s.splitOn sep).filter fun c => c ≠ []

/-- No part between separators contains one. -/
theorem notMem_of_mem_splitOn {s c : List α} (h : c ∈ s.splitOn sep) : sep ∉ c := by
  induction hlength : s.length using Nat.strongRecOn generalizing s with
  | ind n ih =>
    by_cases hsep : sep ∈ s
    · obtain ⟨a, b, rfl, ha⟩ := List.eq_append_cons_of_mem hsep
      rw [List.splitOn_append_cons_self_of_not_mem ha, List.mem_cons] at h
      rw [List.length_append, List.length_cons] at hlength
      cases h with
      | inl hfirst => rwa [hfirst]
      | inr hrest => exact ih b.length (by omega) hrest rfl
    · rw [List.splitOn_eq_singleton hsep, List.mem_singleton] at h
      rwa [h]

@[simp] theorem components_nil : components sep [] = [] := by
  simp [components, List.splitOn_nil]

/-- A separator divides the components. -/
theorem components_append_cons (s t : List α) :
    components sep (s ++ sep :: t) = components sep s ++ components sep t := by
  rw [components, List.splitOn_append_cons_of_beq s t (beq_self_eq_true sep), List.filter_append]
  rfl

/-- A separator at the front does not count. -/
@[simp] theorem components_cons (t : List α) : components sep (sep :: t) = components sep t := by
  have h : components sep ([] ++ sep :: t) = components sep [] ++ components sep t :=
    components_append_cons [] t
  rw [List.nil_append, components_nil, List.nil_append] at h
  exact h

/-- A non-empty text without a separator is one component. -/
theorem components_of_not_mem {c : List α} (hne : c ≠ []) (h : sep ∉ c) :
    components sep c = [c] := by
  rw [components, List.splitOn_eq_singleton h]
  simp [hne]

/-- What begins with a text and a separator begins with its components. -/
theorem components_prefix_of_prefix {s t : List α} (h : s ++ [sep] <+: t) :
    components sep s <+: components sep t := by
  obtain ⟨r, rfl⟩ := h
  rw [List.append_assoc, List.singleton_append, components_append_cons]
  exact List.prefix_append _ _

/-- The components of components that are each put behind a separator. -/
theorem components_flatMap {cs : List (List α)} (h : ∀ c ∈ cs, c ≠ [] ∧ sep ∉ c) :
    components sep (cs.flatMap (sep :: ·)) = cs := by
  induction cs with
  | nil => exact components_nil
  | cons c cs ih =>
    obtain ⟨hne, hsep⟩ := h c List.mem_cons_self
    have hrest := ih fun c' hc' => h c' (List.mem_cons_of_mem _ hc')
    have hone := components_of_not_mem hne hsep
    rw [List.flatMap_cons, List.cons_append, components_cons]
    cases cs with
    | nil => rw [List.flatMap_nil, List.append_nil, hone]
    | cons d cs =>
      rw [List.flatMap_cons, List.cons_append, components_cons] at hrest
      rw [List.flatMap_cons, List.cons_append, components_append_cons, hone, hrest]
      rfl

end CppLaravel.Lib
