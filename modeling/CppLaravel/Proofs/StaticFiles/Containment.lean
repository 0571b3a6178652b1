import CppLaravel.StaticFiles.Resolve

/-!
# `CppLaravel.Proofs.StaticFiles.Containment`: what is resolved lies under the root

`resolved_below_root_iff` says exactly when a path that `safeResolve` returns lies under the
canonical root: whenever the root has one, or the path is refused for another reason.

A prefix of a path that ends before a separator is a prefix of its components
(`comps_prefix_of_string`), so the comparison of two texts is one of components.
-/

set_option autoImplicit false

namespace CppLaravel.StaticFiles

open CppLaravel.Lib

variable {fs : Canonicalise} {root rel : Bytes}

/-- The text of a path has its components. -/
theorem components_string (p : CanonicalPath) : components separator p.string = p.comps := by
  have hplain : ∀ c ∈ p.comps, c ≠ [] ∧ separator ∉ c := fun c hc =>
    ⟨(p.plain c hc).1, (p.plain c hc).2.1⟩
  rw [CanonicalPath.string]
  split
  · rw [components_append_cons, components_flatMap hplain, components_nil, List.append_nil]
  · rw [List.append_nil, components_flatMap hplain]

/-- A path is never the empty text. -/
theorem string_ne_nil (p : CanonicalPath) : p.string ≠ [] := by
  rw [CanonicalPath.string]
  cases hcomps : p.comps with
  | nil => simp
  | cons c cs => simp

/-- A path begins with a separator. -/
theorem separator_prefix_string (p : CanonicalPath) : [separator] <+: p.string := by
  rw [CanonicalPath.string]
  cases hcomps : p.comps with
  | nil => simp
  | cons c cs => simp

/-- A path that is returned is a canonical one: the root itself, or one that begins with the
root and a separator. -/
theorem safeResolve_cases (h : safeResolve fs root rel ≠ []) :
    find rel (bytes "..") 0 = none ∧
      ∃ full, fs (joinPath root rel) = some full ∧ safeResolve fs root rel = full.string ∧
        (full.string = (weaklyCanonical fs root).1 ∨
          (weaklyCanonical fs root).1 ++ [separator] <+: full.string) := by
  simp only [safeResolve] at h ⊢
  -- A path with two dots is refused outright.
  split at h
  · exact absurd rfl h
  · rename_i hdots
    rw [if_neg hdots]
    rw [Bool.not_eq_true, Option.isSome_eq_false_iff, Option.isNone_iff_eq_none] at hdots
    cases hfull : fs (joinPath root rel) with
    | none =>
      -- The error code is set, and the path is refused.
      have hcall : weaklyCanonical fs (joinPath root rel) = ([], true) := by
        rw [weaklyCanonical, hfull]
      rw [hcall] at h
      exact absurd rfl h
    | some full =>
      have hcall : weaklyCanonical fs (joinPath root rel) = (full.string, false) := by
        rw [weaklyCanonical, hfull]
      refine ⟨hdots, full, rfl, ?_⟩
      rw [hcall] at h ⊢
      dsimp only at h ⊢
      rw [if_neg Bool.false_ne_true] at h ⊢
      split at h
      · rename_i hsame
        rw [if_pos hsame]
        exact ⟨rfl, .inl hsame⟩
      · rename_i hsame
        rw [if_neg hsame]
        split at h
        · exact absurd rfl h
        · rename_i hprefix
          rw [if_neg hprefix]
          exact ⟨rfl, .inr (not_not.mp hprefix)⟩

/-- What is returned lies under a root that has a canonical path. -/
theorem below_of_root {base : CanonicalPath} (hroot : fs root = some base)
    (h : safeResolve fs root rel ≠ []) :
    base.comps <+: components separator (safeResolve fs root rel) := by
  obtain ⟨-, full, -, hresult, hcases⟩ := safeResolve_cases h
  rw [hresult, ← components_string base]
  simp only [weaklyCanonical, hroot] at hcases
  cases hcases with
  | inl hsame => rw [hsame]
  | inr hprefix => exact components_prefix_of_prefix hprefix

/-- Where the root has no canonical path, its text is empty, so every path begins with it and
a separator. -/
theorem safeResolve_of_no_root (hroot : fs root = none)
    (hdots : find rel (bytes "..") 0 = none) {full : CanonicalPath}
    (hfull : fs (joinPath root rel) = some full) : safeResolve fs root rel = full.string := by
  simp only [safeResolve, weaklyCanonical, hroot, hfull, hdots]
  rw [if_neg (by exact Bool.false_ne_true), if_neg Bool.false_ne_true,
    if_neg (string_ne_nil full), List.nil_append,
    if_neg (not_not.mpr (separator_prefix_string full))]

/-- What the caller relies on: a path that is returned lies under the canonical root. -/
def ResolvedBelowRoot (fs : Canonicalise) (root rel : Bytes) : Prop :=
  safeResolve fs root rel ≠ [] →
    ∃ base, fs root = some base ∧ base.comps <+: components separator (safeResolve fs root rel)

/-- **What is resolved lies under the root, except where the root has no canonical path.** For
every file system, every root and every path: a path that is returned lies under the
canonical root, if and only if the root has a canonical path, or the path contains `..`, or
the joined path has no canonical path either. -/
theorem resolved_below_root_iff (fs : Canonicalise) (root rel : Bytes) :
    ResolvedBelowRoot fs root rel ↔
      (fs root).isSome ∨ (find rel (bytes "..") 0).isSome ∨
        fs (joinPath root rel) = none := by
  constructor
  · intro hbelow
    by_contra hnone
    obtain ⟨hroot, hdots, hfull⟩ := by simpa only [not_or] using hnone
    rw [Bool.not_eq_true, Option.isSome_eq_false_iff, Option.isNone_iff_eq_none] at hroot hdots
    obtain ⟨full, hfull⟩ := Option.ne_none_iff_exists'.mp hfull
    have hresult := safeResolve_of_no_root hroot hdots hfull
    obtain ⟨base, hbase, -⟩ := hbelow (by rw [hresult]; exact string_ne_nil full)
    rw [hroot] at hbase
    cases hbase
  · intro hcond h
    obtain ⟨hdots, full, hfull, -⟩ := safeResolve_cases h
    rw [hdots, hfull] at hcond
    rcases hcond with hroot | hdots | hfull
    · obtain ⟨base, hroot⟩ := Option.isSome_iff_exists.mp hroot
      exact ⟨base, hroot, below_of_root hroot h⟩
    · cases hdots
    · cases hfull

/-- A file system with `/etc/passwd`, where `/srv/loop` is a symbolic link to itself. -/
def loopingRoot : Canonicalise := fun p =>
  if p = bytes "/etc/passwd" then
    some ⟨[bytes "etc", bytes "passwd"], by decide, false⟩
  else none

/-- A URL that names an absolute path gets it where the root cannot be resolved. -/
theorem absolute_path_escapes : ¬ ∀ fs root rel, ResolvedBelowRoot fs root rel := by
  intro h
  have hresult : safeResolve loopingRoot (bytes "/srv/loop") (bytes "/etc/passwd") =
    bytes "/etc/passwd" := by decide
  obtain ⟨base, hbase, -⟩ := h loopingRoot (bytes "/srv/loop") (bytes "/etc/passwd")
    (by rw [hresult]; decide)
  have hroot : loopingRoot (bytes "/srv/loop") = none := by
    rw [loopingRoot, if_neg (by decide)]
  rw [hroot] at hbase
  cases hbase

end CppLaravel.StaticFiles
