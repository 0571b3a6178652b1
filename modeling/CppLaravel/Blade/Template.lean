import CppLaravel.Blade.Render

/-!
# `CppLaravel.Blade.Template`: well-formed templates and what they say

A template as a tree, its text, and its meaning in a scope, independently of how the text is
read. The engine is compared with it in `Proofs.Blade.Meaning`.
-/

set_option autoImplicit false

namespace CppLaravel.Blade

open CppLaravel.Http

/-- A letter, a digit or an underscore. -/
def isWordByte (c : UInt8) : Bool :=
  (48 ≤ c ∧ c ≤ 57) ∨ (65 ≤ c ∧ c ≤ 90) ∨ c = 95 ∨ (97 ≤ c ∧ c ≤ 122)

/-- A name of a variable or a list. -/
structure Identifier where
  text : Bytes
  ne_nil : text ≠ []
  isWord : ∀ c ∈ text, isWordByte c

/-- A text in which no directive begins. -/
structure Literal where
  text : Bytes
  no_at : 64 ∉ text
  no_brace : 123 ∉ text

/-- A template: nothing, or a first piece and the template behind it. -/
inductive Template
  | done
  | text (s : Literal) (rest : Template)
  | escaped (v : Identifier) (rest : Template)
  | raw (v : Identifier) (rest : Template)
  | cond (v : Identifier) (thenPart : Template) (rest : Template)
  | condElse (v : Identifier) (thenPart elsePart : Template) (rest : Template)
  | loop (list item : Identifier) (body : Template) (rest : Template)

namespace Template

/-- The text of a template. -/
def print : Template → Bytes
  | done => []
  | text s rest => s.text ++ rest.print
  | escaped v rest => bytes "\x7b\x7b " ++ (v.text ++ (bytes " \x7d\x7d" ++ rest.print))
  | raw v rest => bytes "\x7b!! " ++ (v.text ++ (bytes " !!\x7d" ++ rest.print))
  | cond v thenPart rest =>
    bytes "@if(" ++ (v.text ++ (bytes ")" ++ (thenPart.print ++ (bytes "@endif" ++ rest.print))))
  | condElse v thenPart elsePart rest =>
    bytes "@if(" ++ (v.text ++ (bytes ")" ++ (thenPart.print ++ (bytes "@else" ++
      (elsePart.print ++ (bytes "@endif" ++ rest.print))))))
  | loop list item body rest =>
    bytes "@foreach(" ++ (list.text ++ (bytes " as " ++ (item.text ++ (bytes ")" ++
      (body.print ++ (bytes "@endforeach" ++ rest.print))))))

/-- The number of pieces. -/
def size : Template → Nat
  | done => 1
  | text _ rest => rest.size + 1
  | escaped _ rest => rest.size + 1
  | raw _ rest => rest.size + 1
  | cond _ thenPart rest => thenPart.size + rest.size + 1
  | condElse _ thenPart elsePart rest => thenPart.size + elsePart.size + rest.size + 1
  | loop _ _ body rest => body.size + rest.size + 1

end Template

/-- What the names in a template stand for. -/
structure Scope where
  var : Bytes → Bytes
  items : Bytes → List View

namespace Scope

/-- The scope of a context. -/
def of (ctx : View) : Scope := ⟨ctx.var, ctx.items⟩

/-- The scope of a loop's body: the variables of the item shadow the outer ones, and the lists
are the item's own. -/
def enter (scope : Scope) (item : View) : Scope where
  var key := (item.vars.lookup key).getD (scope.var key)
  items := item.items

end Scope

/-- The meaning of a template. -/
def Template.eval : Template → Scope → Bytes
  | .done, _ => []
  | .text s rest, scope => s.text ++ rest.eval scope
  | .escaped v rest, scope => escape (scope.var v.text) ++ rest.eval scope
  | .raw v rest, scope => scope.var v.text ++ rest.eval scope
  | .cond v thenPart rest, scope =>
    (if truthy (scope.var v.text) then thenPart.eval scope else []) ++ rest.eval scope
  | .condElse v thenPart elsePart rest, scope =>
    (if truthy (scope.var v.text) then thenPart.eval scope else elsePart.eval scope) ++
      rest.eval scope
  | .loop list _ body rest, scope =>
    (scope.items list.text).flatMap (fun item => body.eval (scope.enter item)) ++ rest.eval scope

end CppLaravel.Blade
