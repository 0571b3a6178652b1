import CppLaravel.Bytes
import CppLaravel.Lib.Components
import CppLaravel.Lib.Find

/-!
# `CppLaravel.StaticFiles.Resolve`: which file a URL names (`include/static_files.hpp`)

`safeResolve` is `staticfiles::safe_resolve`. What the file system answers is a parameter: a
`Canonicalise` gives for a path the normalised absolute path that
`std::filesystem::weakly_canonical` finds, or nothing where it fails.
-/

set_option autoImplicit false

namespace CppLaravel.StaticFiles

open CppLaravel.Lib

/-- `fs::path::preferred_separator`. -/
def separator : UInt8 := 47

/-- A normalised absolute path: its components, none of which is empty, `.` or `..`, and
whether a separator stands behind the last one (`weakly_canonical` keeps it where the file
does not exist). -/
structure CanonicalPath where
  comps : List Bytes
  plain : ∀ c ∈ comps, c ≠ [] ∧ separator ∉ c ∧ c ≠ bytes "." ∧ c ≠ bytes ".."
  separatorAtEnd : Bool

/-- `path::string`. -/
def CanonicalPath.string (p : CanonicalPath) : Bytes :=
  p.comps.flatMap (separator :: ·) ++
    if p.separatorAtEnd || p.comps.isEmpty then [separator] else []

/-- The file system, as `std::filesystem::weakly_canonical` sees it. -/
abbrev Canonicalise := Bytes → Option CanonicalPath

/-- `fs::weakly_canonical(p, ec)`: the path it returns, and whether `ec` is set. -/
def weaklyCanonical (fs : Canonicalise) (p : Bytes) : Bytes × Bool :=
  match fs p with
  | some q => (q.string, false)
  | none => ([], true)

/-- `fs::path(root) / rel`: an absolute path replaces the root, and a separator is put between
the two unless the root ends with one. -/
def joinPath (root rel : Bytes) : Bytes :=
  if rel.head? = some separator then rel
  else if root = [] || root.getLast? = some separator then root ++ rel
  else root ++ separator :: rel

/-- `safe_resolve`; empty when the path is refused. -/
def safeResolve (fs : Canonicalise) (root rel : Bytes) : Bytes :=
  if (find rel (bytes "..") 0).isSome then []
  else
    let (bs, _) := weaklyCanonical fs root
    -- The second call sets the same `ec`, or clears it.
    let (ns, ec) := weaklyCanonical fs (joinPath root rel)
    if ec then []
    else if ns = bs then ns
    else if ¬ bs ++ [separator] <+: ns then []
    else ns

example : joinPath (bytes "/srv") (bytes "a/b") = bytes "/srv/a/b" := by decide

end CppLaravel.StaticFiles
