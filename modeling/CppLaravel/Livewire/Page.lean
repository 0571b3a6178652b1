import CppLaravel.Lib.Transition
import CppLaravel.Livewire.Morph

/-!
# `CppLaravel.Livewire.Page`: the page that several components share
(`examples/blog/app/livewire_client.hpp`)

Each element with a `wire:id` that is there when the page is loaded is the root of a component, and
acts on its own: a response is morphed into it, `wire:model` writes its state. Users type, and
`setLoading` shows and hides elements. `Shows` is what a patched page is to be: the HTML, where a
component that was there already is opaque.
-/

set_option autoImplicit false

namespace CppLaravel.Livewire

open CppLaravel.Lib CppLaravel.Lib.Dom

abbrev wireLoading : Bytes := bytes "wire:loading"
abbrev style : Bytes := bytes "style"

variable {ι : Type}

/-! ### The page -/

/-- A page: its tree, the element that has the focus, and the identities given out so far. -/
structure Page (ι : Type) where
  tree : Node ι Bytes
  focus : Option ι
  used : List ι

/-- Something that happens on a page. -/
inductive Action (ι : Type) where
  /-- `setState(el, res.state); morph(el, res.html);` for the root `i`. -/
  | respond (i : ι) (copy : ι → ι) (state : Bytes) (html : List (Node ι Bytes))
  /-- The `input` listener of the root `i`: `setState(root, state)`. -/
  | model (i : ι) (state : Bytes)
  /-- A user types into an element. -/
  | type (i : ι) (text : Bytes)
  /-- `setLoading`, `hideLoading`: `el.style.display = ...` of one element. -/
  | loading (i : ι) (css : Bytes)
  /-- Another element gets the focus. -/
  | activate (focus : Option ι)

/-- `setState`. -/
def setState (el : Node ι Bytes) (state : Bytes) : Node ι Bytes :=
  match el with
  | .element i tag as typed o => .element i tag (as.set wireState state) typed o
  | el => el

/-- An element with another text typed into it. -/
def retype (el : Node ι Bytes) (text : Bytes) : Node ι Bytes :=
  match el with
  | .element i tag as _ o => .element i tag as (some text) o
  | el => el

/-- An element of `[wire:loading]` with another style. -/
def restyle (el : Node ι Bytes) (css : Bytes) : Node ι Bytes :=
  match el with
  | .element i tag as typed o =>
    .element i tag (if as.has wireLoading then as.set style css else as) typed o
  | el => el

/-- What the HTML's nodes are copied to. -/
def copies (copy : ι → ι) (html : List (Node ι Bytes)) : List ι :=
  (Node.nodesAll html).map fun m => copy m.id

namespace Page

variable [DecidableEq ι]

/-- The node with an identity. -/
def find (p : Page ι) (i : ι) : Option (Node ι Bytes) := p.tree.nodes.find? (·.id = i)

/-- The page with a node changed; a node that was taken off the page is changed elsewhere. -/
def modify (p : Page ι) (i : ι) (f : Node ι Bytes → Node ι Bytes) : Page ι :=
  match p.find i with
  | some el => { p with tree := p.tree.replace i (f el) }
  | none => p

/-- What an action makes of a page. -/
def act (p : Page ι) : Action ι → Option (Page ι)
  | .respond i copy state html =>
    match p.find i with
    | some el => (morph copy p.focus (setState el state) html).map fun el' =>
        { p with tree := p.tree.replace i el', used := p.used ++ copies copy html }
    | none => some p
  | .model i state => some (p.modify i (setState · state))
  | .type i text => some (p.modify i (retype · text))
  | .loading i css => some (p.modify i (restyle · css))
  | .activate focus => some { p with focus }

end Page

/-! ### What a page shows -/

/-- Attributes that agree, except for the style of an element that is shown and hidden. -/
def Alike (as as' : Attributes Bytes) : Prop :=
  ∀ name, as.get name = as'.get name ∨ (name = style ∧ as'.has wireLoading)

mutual

/-- The node of the page shows the node of the HTML. A component that is kept may stand where an
element with its tag is wanted. -/
inductive Shows (kept : ι → Prop) : Node ι Bytes → Node ι Bytes → Prop
  | text (i j : ι) (data : Bytes) : Shows kept (.text i data) (.text j data)
  | element {i j : ι} {tag : Bytes} {as as' : Attributes Bytes} {typed typed' : Option Bytes}
      {o n : List (Node ι Bytes)} (hattributes : Alike as as')
      (hchildren : ShowsAll kept (n.any hasKey) o n) :
      Shows kept (.element i tag as typed o) (.element j tag as' typed' n)
  | nested {r n : Node ι Bytes} (hkept : kept r.id) (hroot : r.hasAttribute wireId)
      (htag : r.tagName = n.tagName) : Shows kept r n

/-- The children show those of the HTML, in their order; among children with keys, what is not an
element may be left out. -/
inductive ShowsAll (kept : ι → Prop) :
    Bool → List (Node ι Bytes) → List (Node ι Bytes) → Prop
  | nil (keyed : Bool) : ShowsAll kept keyed [] []
  | cons {keyed : Bool} {r n : Node ι Bytes} {rs ns : List (Node ι Bytes)} (h : Shows kept r n)
      (hrest : ShowsAll kept keyed rs ns) : ShowsAll kept keyed (r :: rs) (n :: ns)
  | between {n : Node ι Bytes} {rs ns : List (Node ι Bytes)} (hn : n.nodeType ≠ 1)
      (hrest : ShowsAll kept true rs ns) : ShowsAll kept true rs (n :: ns)

end

/-- The components among the nodes that are there. -/
def Component (present : Node ι Bytes → Prop) (i : ι) : Prop :=
  ∃ m, present m ∧ m.hasAttribute wireId ∧ m.id = i

/-! ### Runs -/

/-- HTML that can be morphed into what is on the page: no comments, no key that every object
inherits, and an element with the key of one on the page has its tag. -/
structure Fits (present : Node ι Bytes → Prop) (n : Node ι Bytes) : Prop where
  comment : n.nodeType ≠ 8
  key : ∀ k, keyOf n = some k → k ∉ inherited
  tag : ∀ m, present m → ∀ k, keyOf m = some k → keyOf n = some k → m.tagName = n.tagName

/-- An action that can happen on a page whose roots are these. -/
def Action.Admissible (roots : List ι) (p : Page ι) : Action ι → Prop
  | .respond i copy _ html =>
    i ∈ roots ∧ (∀ m ∈ Node.nodesAll html, Fits (· ∈ p.tree.nodes) m) ∧
      (p.used ++ copies copy html).Nodup
  | .model i _ => i ∈ roots
  | _ => True

/-- The page as the browser keeps it: identities are unique, and the roots have a `wire:id`. -/
structure Page.Sound (roots : List ι) (p : Page ι) : Prop where
  nodup : (p.tree.nodes.map Node.id).Nodup
  used : ∀ m ∈ p.tree.nodes, m.id ∈ p.used
  nodup_used : p.used.Nodup
  roots_used : ∀ i ∈ roots, i ∈ p.used
  wireId : ∀ m ∈ p.tree.nodes, m.id ∈ roots → m.hasAttribute wireId

/-- Actions that can happen, in any order. -/
abbrev Run [DecidableEq ι] (roots : List ι) : Page ι → List (Action ι) → Page ι → Prop :=
  Trace (Guarded (fun p a => a.Admissible roots p) (Steps Page.act))

end CppLaravel.Livewire
