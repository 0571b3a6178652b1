import CppLaravel.Blade.Template

/-!
# `CppLaravel.Blade.Layout`: templates that include, yield and extend

A `Layout` is a template that extends no other: it may include others, and it yields to sections.
A `Child` is one that extends another: it has sections only. `Layout.Says` is what a layout says
in a scope, where each `@yield` says what is yielded for its name and an included template is one
of the known layouts.

`Chain` is a chain of children. `lowest` is the text of a section in the first of them that defines
it, `nearest` its text in the last one, the child of the layout itself.
-/

set_option autoImplicit false

namespace CppLaravel.Blade

open CppLaravel.Http

/-- A name in quotes. -/
structure Quoted where
  name : Bytes
  double : Bool
  no_at : 64 ∉ name
  no_paren : 41 ∉ name

/-- The quotation mark, double or single. -/
def Quoted.mark (q : Quoted) : UInt8 := if q.double then 34 else 39

/-- The name with its quotes. -/
def Quoted.text (q : Quoted) : Bytes := q.mark :: (q.name ++ [q.mark])

/-- A template that extends no other. -/
inductive Layout
  | done
  | text (s : Literal) (rest : Layout)
  | escaped (v : Identifier) (rest : Layout)
  | raw (v : Identifier) (rest : Layout)
  | cond (v : Identifier) (thenPart : Layout) (rest : Layout)
  | condElse (v : Identifier) (thenPart elsePart : Layout) (rest : Layout)
  | loop (list item : Identifier) (body : Layout) (rest : Layout)
  | included (q : Quoted) (rest : Layout)
  | yield (q : Quoted) (rest : Layout)
  | named (q : Quoted) (body : Layout) (rest : Layout)

namespace Layout

/-- The text of a layout. -/
def print : Layout → Bytes
  | done => []
  | text s rest => s.text ++ rest.print
  | escaped v rest => bytes "\x7b\x7b " ++ (v.text ++ (bytes " \x7d\x7d" ++ rest.print))
  | raw v rest => bytes "\x7b!! " ++ (v.text ++ (bytes " !!\x7d" ++ rest.print))
  | cond v thenPart rest =>
    bytes "@if(" ++ (v.text ++ (bytes ")" ++ (thenPart.print ++ (bytes "@endif" ++ rest.print))))
  | condElse v thenPart elsePart rest =>
    bytes "@if(" ++ (v.text ++ (bytes ")" ++ (thenPart.print ++ (bytes "@else" ++
      (elsePart.print ++ (bytes "@endif" ++ rest.print))))))
  | loop list item body rest =>
    bytes "@foreach(" ++ (list.text ++ (bytes " as " ++ (item.text ++ (bytes ")" ++
      (body.print ++ (bytes "@endforeach" ++ rest.print))))))
  | included q rest => bytes "@include(" ++ (q.text ++ (bytes ")" ++ rest.print))
  | yield q rest => bytes "@yield(" ++ (q.text ++ (bytes ")" ++ rest.print))
  | named q body rest =>
    bytes "@section(" ++ (q.text ++ (bytes ")" ++ (body.print ++ (bytes "@endsection" ++
      rest.print))))

/-- The names that a layout yields to. -/
def yields : Layout → List Bytes
  | done => []
  | text _ rest => rest.yields
  | escaped _ rest => rest.yields
  | raw _ rest => rest.yields
  | cond _ thenPart rest => thenPart.yields ++ rest.yields
  | condElse _ thenPart elsePart rest => thenPart.yields ++ (elsePart.yields ++ rest.yields)
  | loop _ _ body rest => body.yields ++ rest.yields
  | included _ rest => rest.yields
  | yield q rest => q.name :: rest.yields
  | named _ body rest => body.yields ++ rest.yields

/-- What a layout says in a scope. The layouts that may be included are known by name; `yielded`
is what stands for a section. A section of the layout itself says what its body says. -/
inductive Says (known : Bytes → Option Layout) (yielded : Bytes → Bytes) :
    Layout → Scope → Bytes → Prop
  | done {scope : Scope} : Says known yielded .done scope []
  | text {s : Literal} {rest : Layout} {scope : Scope} {r : Bytes} :
      Says known yielded rest scope r → Says known yielded (.text s rest) scope (s.text ++ r)
  | escaped {v : Identifier} {rest : Layout} {scope : Scope} {r : Bytes} :
      Says known yielded rest scope r →
      Says known yielded (.escaped v rest) scope (escape (scope.var v.text) ++ r)
  | raw {v : Identifier} {rest : Layout} {scope : Scope} {r : Bytes} :
      Says known yielded rest scope r →
      Says known yielded (.raw v rest) scope (scope.var v.text ++ r)
  | cond {v : Identifier} {thenPart rest : Layout} {scope : Scope} {r r' : Bytes} :
      Says known yielded (if truthy (scope.var v.text) then thenPart else .done) scope r →
      Says known yielded rest scope r' →
      Says known yielded (.cond v thenPart rest) scope (r ++ r')
  | condElse {v : Identifier} {thenPart elsePart rest : Layout} {scope : Scope} {r r' : Bytes} :
      Says known yielded (if truthy (scope.var v.text) then thenPart else elsePart) scope r →
      Says known yielded rest scope r' →
      Says known yielded (.condElse v thenPart elsePart rest) scope (r ++ r')
  | loop {list item : Identifier} {body rest : Layout} {scope : Scope} {r : View → Bytes}
      {r' : Bytes} :
      (∀ item ∈ scope.items list.text, Says known yielded body (scope.enter item) (r item)) →
      Says known yielded rest scope r' →
      Says known yielded (.loop list item body rest) scope
        ((scope.items list.text).flatMap r ++ r')
  | included {q : Quoted} {layout rest : Layout} {scope : Scope} {r r' : Bytes} :
      known q.name = some layout → Says known yielded layout scope r →
      Says known yielded rest scope r' →
      Says known yielded (.included q rest) scope (r ++ r')
  | yield {q : Quoted} {rest : Layout} {scope : Scope} {r : Bytes} :
      Says known yielded rest scope r →
      Says known yielded (.yield q rest) scope (yielded q.name ++ r)
  | named {q : Quoted} {body rest : Layout} {scope : Scope} {r r' : Bytes} :
      Says known yielded body scope r → Says known yielded rest scope r' →
      Says known yielded (.named q body rest) scope (r ++ r')

end Layout

/-- A part of a child: a section, or a text between sections. -/
inductive Part
  | between (s : Bytes) (no_at : 64 ∉ s)
  | block (q : Quoted) (body : Layout)

/-- The text of a part. -/
def Part.print : Part → Bytes
  | between s _ => s
  | block q body =>
    bytes "@section(" ++ (q.text ++ (bytes ")" ++ (body.print ++ bytes "@endsection")))

/-- The section that a part is. -/
def Part.block? : Part → Option (Quoted × Layout)
  | between _ _ => none
  | block q body => some (q, body)

/-- A template that extends another one. -/
structure Child where
  before : List Part
  parent : Quoted
  behind : List Part

namespace Child

/-- The text of a child. -/
def print (child : Child) : Bytes :=
  child.before.flatMap Part.print ++ (bytes "@extends(" ++ (child.parent.text ++ (bytes ")" ++
    child.behind.flatMap Part.print)))

/-- The sections of a child, in order. -/
def blocks (child : Child) : List (Quoted × Layout) :=
  (child.before ++ child.behind).filterMap Part.block?

/-- What the sections of a child say, by name. Nothing is yielded to in a section. -/
def Says (known : Bytes → Option Layout) (scope : Scope) (child : Child)
    (said : List (Bytes × Bytes)) : Prop :=
  List.Forall₂ (fun block entry => entry.1 = block.1.name ∧
    Layout.Says known (fun _ => []) block.2 scope entry.2) child.blocks said

end Child

/-- What a child's section says: the last one of the name. -/
def defined (said : List (Bytes × Bytes)) (name : Bytes) : Option Bytes := said.reverse.lookup name

/-- The section of the first child that defines it, or nothing. -/
def lowest (chain : List (List (Bytes × Bytes))) (name : Bytes) : Bytes :=
  (chain.findSome? (defined · name)).getD []

/-- The section of the last child, or nothing. -/
def nearest (chain : List (List (Bytes × Bytes))) (name : Bytes) : Bytes :=
  (chain.getLast?.bind (defined · name)).getD []

/-- `Views::define`. -/
def Views.define (views : Views) (name tpl : Bytes) : Views := ⟨views.templates.insert name tpl⟩

/-- Children of which each extends the next, and the last one the layout of the name `top`. -/
inductive Chain (views : Views) (top : Bytes) : Bytes → List Child → Prop
  | last {name : Bytes} {child : Child} :
      name ≠ top → views.get name = child.print → child.parent.name = top →
      Chain views top name [child]
  | cons {name : Bytes} {child : Child} {children : List Child} :
      name ≠ top → views.get name = child.print → Chain views top child.parent.name children →
      Chain views top name (child :: children)

/-- The known layouts are templates under their names, and the layout `top` is not among them. -/
def Views.Holds (views : Views) (top : Bytes) (known : Bytes → Option Layout) : Prop :=
  ∀ name layout, known name = some layout → name ≠ top ∧ views.get name = layout.print

end CppLaravel.Blade
