import CppLaravel.Blade.Scan

/-!
# `CppLaravel.Blade.Render`: rendering (`include/view.hpp`)

`renderImpl` is `render_impl` with a bound on the depth of its recursion and on the rounds of
its loops: it returns nothing when the bound is met. `Views.Renders` is what it returns for some
bound; a larger one gives the same (`Proofs.Blade.TwoRuns`).
-/

set_option autoImplicit false

namespace CppLaravel.Blade

open CppLaravel.Lib
open CppLaravel.Http

/-- `View`. A list of views is stored under its name. -/
structure View where
  vars : StringMap := ∅
  lists : List (Bytes × List View) := []

namespace View

/-- `View::var`. -/
def var (v : View) (key : Bytes) : Bytes := (v.vars.lookup key).getD []

/-- The views in a list; none if there is no such list. -/
def items (v : View) (list : Bytes) : List View := (v.lists.lookup list).getD []

/-- The context in which the body of a loop is rendered for an item. -/
def merged (v item : View) : View where
  vars := item.vars ∪ v.vars
  lists := item.lists

end View

/-- `escape`. -/
def escape : Bytes → Bytes
  | [] => []
  | c :: s =>
    if c = 38 then bytes "&amp;" ++ escape s
    else if c = 60 then bytes "&lt;" ++ escape s
    else if c = 62 then bytes "&gt;" ++ escape s
    else if c = 34 then bytes "&quot;" ++ escape s
    else if c = 39 then bytes "&#39;" ++ escape s
    else c :: escape s

/-- `truthy`. -/
def truthy (v : Bytes) : Bool := v ≠ [] ∧ v ≠ bytes "0" ∧ v ≠ bytes "false"

/-- The loop over the items of a list. -/
def renderItems (render : View → Option Bytes) : List View → Option Bytes
  | [] => some []
  | item :: items => (render item).bind fun r => (renderItems render items).map (r ++ ·)

/-- What a directive appends to the output. -/
def perform (render : Bytes → View → Option Bytes) (partials : Bytes → Bytes)
    (sections : Option StringMap) (ctx : View) : Directive → Option Bytes
  | .raw key => some (ctx.var key)
  | .escaped key => some (escape (ctx.var key))
  | .cond key thenPart elsePart => render (if truthy (ctx.var key) then thenPart else elsePart) ctx
  | .loop list inner => renderItems (fun item => render inner (ctx.merged item)) (ctx.items list)
  | .included name => render (partials name) ctx
  | .yield name => some ((sections.bind fun secs => secs.lookup name).getD [])
  | .named body => render body ctx

/-- The loop of `render_impl` from the position `i`. -/
def renderLoop (perform : Directive → Option Bytes) (tpl : Bytes) : Nat → Nat → Bytes → Option Bytes
  | 0, _, _ => none
  | fuel + 1, i, out =>
    if i < tpl.length then
      match scan tpl i with
      | none => some (out ++ tpl.drop i)
      | some (next, directive, i') =>
        (perform directive).bind fun r =>
          renderLoop perform tpl fuel i' (out ++ slice tpl i (some next) ++ r)
    else some out

/-- The loop of `collect_sections` from the position `p`. -/
def collectSections (render : Bytes → Option Bytes) (child : Bytes) :
    Nat → Nat → StringMap → Option StringMap
  | 0, _, _ => none
  | fuel + 1, p, out =>
    match find child (bytes "@section(") p with
    | none => some out
    | some p =>
      let close := find child (bytes ")") p
      let name := unquote (slice child (p + 9) close)
      let body := plus close 1
      let stop := matchingEnd child .named body 1
      (render (slice child body stop)).bind fun r =>
        collectSections render child fuel (plus stop 11) (out.insert name r)

/-- `render_impl`. -/
def renderImpl : Nat → Bytes → View → (Bytes → Bytes) → Option StringMap → Option Bytes
  | 0, _, _, _, _ => none
  | fuel + 1, tpl, ctx, partials, sections =>
    match find tpl (bytes "@extends(") 0 with
    | some ext =>
      let close := find tpl (bytes ")") ext
      let layout := unquote (slice tpl (ext + 9) close)
      (collectSections (fun body => renderImpl fuel body ctx partials none) tpl fuel 0 ∅).bind
        fun secs => renderImpl fuel (partials layout) ctx partials (some secs)
    | none =>
      renderLoop (perform (fun body v => renderImpl fuel body v partials sections) partials
        sections ctx) tpl fuel 0 []

/-- `render`, without other templates. -/
def render (fuel : Nat) (tpl : Bytes) (ctx : View) : Option Bytes :=
  renderImpl fuel tpl ctx (fun _ => []) none

/-- `Views`: templates by name. -/
structure Views where
  templates : StringMap := ∅

namespace Views

/-- `Views::get`. -/
def get (views : Views) (name : Bytes) : Bytes := (views.templates.lookup name).getD []

/-- `Views::render`. -/
def render (fuel : Nat) (views : Views) (name : Bytes) (ctx : View) : Option Bytes :=
  renderImpl fuel (views.get name) ctx views.get none

/-- Rendering terminates with this output. -/
def Renders (views : Views) (name : Bytes) (ctx : View) (out : Bytes) : Prop :=
  ∃ fuel, views.render fuel name ctx = some out

end Views

end CppLaravel.Blade
