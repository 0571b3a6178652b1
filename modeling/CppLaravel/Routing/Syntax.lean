import CppLaravel.Bytes
import CppLaravel.Lib.Regex

/-!
# `CppLaravel.Routing.Syntax`: the text of a regular expression

`compile` is the constructor of `std::regex` for the part of ECMAScript that routes are made of:
pattern characters, the dot, identity escapes, the class of all symbols but one, the quantifiers `*`
and `+` behind one of these, groups and the two assertions. A text outside of this part has no
regular expression here.
-/

set_option autoImplicit false

namespace CppLaravel.Routing

open CppLaravel.Lib

/-- The characters that do not stand for themselves: `^$\.*+?()[]{}|`. -/
def syntaxCharacters : Bytes := [94, 36, 92, 46, 42, 43, 63, 40, 41, 91, 93, 123, 125, 124]

/-- A line terminator, which the dot does not match. -/
def isLineTerminator (c : UInt8) : Bool := c = 10 || c = 13

inductive Token where
  | atom (p : UInt8 → Bool)
  | repeated (least : Nat)
  | opening
  | closing
  | assertion (r : Regex UInt8)

/-- The token that one character is. -/
def token (c : UInt8) : Option Token :=
  if c = 46 then some (.atom fun a => !isLineTerminator a)
  else if c = 42 then some (.repeated 0)
  else if c = 43 then some (.repeated 1)
  else if c = 40 then some .opening
  else if c = 41 then some .closing
  else if c = 94 then some (.assertion .start)
  else if c = 36 then some (.assertion .stop)
  else if c ∈ syntaxCharacters then none
  else some (.atom (· = c))

/-- Cut a text into tokens. -/
def lex : Bytes → Option (List Token)
  | [] => some []
  -- An identity escape.
  | 92 :: c :: s =>
    if c ∈ syntaxCharacters then (lex s).map (.atom (· = c) :: ·) else none
  -- The class of all symbols but one.
  | 91 :: 94 :: c :: 93 :: s =>
    if c ∈ syntaxCharacters then none else (lex s).map (.atom (· ≠ c) :: ·)
  | c :: s => (token c).bind fun t => (lex s).map (t :: ·)

/-- A parse as far as it has come: what is before each group that is open, what is in the innermost
one, and the last atom, which a quantifier may follow. -/
structure Parse where
  outer : List (Regex UInt8)
  inner : Regex UInt8
  pending : Option (UInt8 → Bool)

/-- The regular expression with the last atom. -/
def Parse.flush (ps : Parse) : Regex UInt8 :=
  match ps.pending with
  | none => ps.inner
  | some p => ps.inner.seq (.sym p)

/-- One token. -/
def Parse.step (ps : Parse) : Token → Option Parse
  | .atom p => some ⟨ps.outer, ps.flush, some p⟩
  | .repeated least => ps.pending.map fun p => ⟨ps.outer, ps.inner.seq (.many p least), none⟩
  | .opening => some ⟨ps.flush :: ps.outer, .empty, none⟩
  | .closing =>
    match ps.outer with
    | [] => none
    | r :: outer => some ⟨outer, r.seq (.group ps.flush), none⟩
  | .assertion r => some ⟨ps.outer, ps.flush.seq r, none⟩

/-- The regular expression that the tokens are. -/
def parse (tokens : List Token) : Option (Regex UInt8) :=
  (tokens.foldlM Parse.step ⟨[], .empty, none⟩).bind fun ps =>
    if ps.outer.isEmpty then some ps.flush else none

/-- `std::regex(rx)`. -/
def compile (rx : Bytes) : Option (Regex UInt8) := (lex rx).bind parse

end CppLaravel.Routing
