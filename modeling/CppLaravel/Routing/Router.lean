import CppLaravel.Routing.Pipeline
import CppLaravel.Routing.Syntax

/-!
# `CppLaravel.Routing.Router`: the routes (`include/router.hpp`, `src/router.cpp`)

`add` turns a URI into the text of a regular expression: `{name}` and `{name*}` become groups, what
is between them is escaped. `matchRequest` finds the first route with the method of the request
whose pattern matches its path; `allowedMethods` collects the methods of all whose pattern does.
-/

set_option autoImplicit false

namespace CppLaravel.Routing

open CppLaravel.Http
open CppLaravel.Lib

/-- `Route`. -/
structure Route (W : Type) where
  method : Bytes
  uri : Bytes
  pattern : Regex UInt8
  paramNames : List Bytes
  handler : Handler W
  middleware : List (Middleware W)

/-- `RouteInfo`. -/
structure RouteInfo where
  method : Bytes
  uri : Bytes
deriving DecidableEq

/-- `escape`: a backslash before every special character. -/
def escape (s : Bytes) : Bytes := s.flatMap fun c => if c ∈ syntaxCharacters then [92, c] else [c]

/-! ### Placeholders -/

/-- `\w`. -/
def isWord (c : UInt8) : Bool :=
  (48 ≤ c && c ≤ 57) || (65 ≤ c && c ≤ 90) || (97 ≤ c && c ≤ 122) || c = 95

/-- A match of the expression `seg`. -/
structure Placeholder where
  position : Nat
  name : Bytes
  star : Bool
deriving DecidableEq

/-- The text of a placeholder. -/
def placeholderText (name : Bytes) (star : Bool) : Bytes :=
  123 :: (name ++ (if star then [42, 125] else [125]))

/-- `m.length()`. -/
def Placeholder.length (m : Placeholder) : Nat := (placeholderText m.name m.star).length

/-- What `seg`, which is `\{(\w+)(\*?)\}`, matches at the start of a text. -/
def placeholderAt (s : Bytes) : Option (Bytes × Bool) :=
  match s with
  | [] => none
  | c :: s =>
    let name := s.takeWhile isWord
    let rest := s.dropWhile isWord
    if c ≠ 123 ∨ name = [] then none
    else if [42, 125] <+: rest then some (name, true)
    else if [125] <+: rest then some (name, false)
    else none

/-- `std::sregex_iterator`: the matches of `seg` in a text that starts at the position `pos`, of
which the first `skip` symbols belong to a match already. -/
def placeholders (pos skip : Nat) : Bytes → List Placeholder
  | [] => []
  | c :: s =>
    match skip with
    | skip + 1 => placeholders (pos + 1) skip s
    | 0 =>
      match placeholderAt (c :: s) with
      | none => placeholders (pos + 1) 0 s
      | some (name, star) =>
        let m : Placeholder := ⟨pos, name, star⟩
        m :: placeholders (pos + 1) (m.length - 1) s

/-- The text so far, the names so far, and the end of the last match. -/
structure Compiled where
  rx : Bytes
  names : List Bytes
  last : Nat

/-- One turn of the loop of `add`. -/
def Compiled.segment (uri : Bytes) (c : Compiled) (m : Placeholder) : Compiled where
  rx := c.rx ++ escape (substr uri c.last (m.position - c.last))
    ++ (if m.star then bytes "(.*)" else bytes "([^/]+)")
  names := c.names ++ [m.name]
  last := m.position + m.length

/-- The loop of `add`. -/
def compileUri (uri : Bytes) : Compiled :=
  (placeholders 0 0 uri).foldl (Compiled.segment uri) ⟨bytes "^", [], 0⟩

section
variable {W : Type}

/-- `add`. -/
def add (routes : List (Route W)) (method uri : Bytes) (handler : Handler W)
    (middleware : List (Middleware W)) : Option (List (Route W)) :=
  let c := compileUri uri
  let rx := c.rx ++ escape (uri.drop c.last) ++ bytes "$"
  (compile rx).map fun pattern => routes ++ [⟨method, uri, pattern, c.names, handler, middleware⟩]

/-! ### Requests -/

/-- The parameters of a match, by the names of the groups. -/
def Route.params (r : Route W) (captures : List Bytes) : StringMap :=
  insertAll ∅ (r.paramNames.zipIdx.map fun x => (x.1, (captures[x.2]?).getD []))

/-- The pattern on a path: the parameters if it matches. -/
def Route.matchPath (r : Route W) (path : Bytes) : Option StringMap :=
  (r.pattern.fullMatch path).map r.params

/-- `match`. -/
def matchRequest (req : Request) : List (Route W) → Option (Route W × StringMap)
  | [] => none
  | r :: routes =>
    if r.method ≠ req.method then matchRequest req routes
    else
      match r.matchPath req.path with
      | some params => some (r, params)
      | none => matchRequest req routes

/-- `allowed_methods`. -/
def allowedMethods (path : Bytes) (routes : List (Route W)) : List Bytes :=
  routes.foldl
    (fun out r =>
      if (r.matchPath path).isNone then out
      else if r.method ∈ out then out
      else out ++ [r.method])
    []

/-- `list`. -/
def list (routes : List (Route W)) : List RouteInfo := routes.map fun r => ⟨r.method, r.uri⟩

end

example : (compileUri (bytes "/u/{id}/x.{a*}")).rx = bytes "^/u/([^/]+)/x\\.(.*)" := by decide

end CppLaravel.Routing
