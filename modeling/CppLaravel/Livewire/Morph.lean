import CppLaravel.Bytes
import CppLaravel.Lib.Dom

/-!
# `CppLaravel.Livewire.Morph`: how the client patches a page
(`examples/blog/app/livewire_client.hpp`)

`livewire_js` is the script that a page runs. `morph` makes the children of a component like the
HTML that the server sent: `reconcile` goes through two lists of children by position, or by
`wire:key` if the new ones have keys, and `syncAttrs` takes over attributes. A throw, here `none`,
ends the script's work on a response.

The HTML is parsed by the browser; its nodes are inputs here. `copy` gives a node that is copied
onto the page its identity there, and `focus` is `document.activeElement`.
-/

set_option autoImplicit false

namespace CppLaravel.Livewire

open CppLaravel.Lib CppLaravel.Lib.Dom

/-- An attribute that `livewire_js` looks at. -/
abbrev wireId : Bytes := bytes "wire:id"
abbrev wireKey : Bytes := bytes "wire:key"
abbrev wireState : Bytes := bytes "wire:state"

/-- The names that an object has without being given them. -/
def inherited : List Bytes :=
  [ bytes "constructor", bytes "hasOwnProperty", bytes "isPrototypeOf",
    bytes "propertyIsEnumerable", bytes "toLocaleString", bytes "toString", bytes "valueOf",
    bytes "__proto__", bytes "__defineGetter__", bytes "__defineSetter__",
    bytes "__lookupGetter__", bytes "__lookupSetter__" ]

/-- `getAttribute('value') || ''`. -/
def want (as : Attributes Bytes) : Bytes := (as.get (bytes "value")).getD []

/-- `value` of an input: what was typed, or else the attribute. -/
def inputValue (as : Attributes Bytes) (typed : Option Bytes) : Bytes := typed.getD (want as)

/-- The attributes after `syncAttrs`. -/
def syncAttributes (o n : Attributes Bytes) : Attributes Bytes :=
  n.entries.foldl (fun o a => if o.get a.1 = some a.2 then o else o.set a.1 a.2)
    (o.entries.foldl (fun o a => if n.has a.1 then o else o.remove a.1) o)

section

variable {ι : Type} [DecidableEq ι]

/-- What is typed into an element after `syncAttrs`. -/
def syncValue (focus : Option ι) (i : ι) (tag : Bytes) (o n : Attributes Bytes)
    (typed : Option Bytes) : Option Bytes :=
  if tag = bytes "INPUT" ∧ focus ≠ some i ∧ inputValue o typed ≠ want n then some (want n)
  else typed

/-- A child with a key. -/
def hasKey (c : Node ι Bytes) : Bool := c.nodeType = 1 && c.hasAttribute wireKey

/-- The key of a child. -/
def keyOf (c : Node ι Bytes) : Option Bytes := c.getAttribute wireKey

/-- `oldByKey`: of two children with the same key the later one. -/
def oldByKey (o : List (Node ι Bytes)) : List (Node ι Bytes) := (o.filter hasKey).reverse

/-- Two nodes of which the old one is replaced. -/
def differs (oc nc : Node ι Bytes) : Bool :=
  oc.nodeType ≠ nc.nodeType || (oc.nodeType = 1 && oc.tagName ≠ nc.tagName)

/-- The body of the loop of `reconcile` for an old child and a new one, where `renewed` is what
`syncAttrs(oc, nc); reconcile(oc, nc);` comes to. -/
def patchChild (copy : ι → ι) (oc nc : Node ι Bytes) (renewed : Option (Node ι Bytes)) :
    Option (Node ι Bytes) :=
  if differs oc nc then some (nc.clone copy)
  else match oc, nc with
    | .text i _, .text _ data => some (.text i data)
    | oc, _ =>
      -- A nested component is left alone.
      if oc.nodeType = 1 ∧ oc.hasAttribute wireId then some oc else renewed

/-- The body of the loop of `reconcileKeyed` for an old child with the key of a new one. -/
def patchKeyed (oc : Node ι Bytes) (renewed : Option (Node ι Bytes)) : Option (Node ι Bytes) :=
  if oc.hasAttribute wireId then some oc else renewed

variable (copy : ι → ι) (focus : Option ι)

mutual

/-- `syncAttrs(oc, nc); reconcile(oc, nc);`, which throws unless both are elements. -/
def renew (oc : Node ι Bytes) : Node ι Bytes → Option (Node ι Bytes)
  | .element _ _ as' _ n =>
    match oc with
    | .element i tag as typed o =>
      (if n.any hasKey then reconcileKeyed (oldByKey o) n else reconcileLoop o n).map
        (.element i tag (syncAttributes as as')
          (syncValue focus i tag (syncAttributes as as') as' typed))
    | _ => none
  | _ => none

/-- The loops of `reconcile`. -/
def reconcileLoop : List (Node ι Bytes) → List (Node ι Bytes) → Option (List (Node ι Bytes))
  -- The old children that are left over are removed.
  | _, [] => some []
  | [], nc :: n => (reconcileLoop [] n).map (nc.clone copy :: ·)
  | oc :: o, nc :: n =>
    (patchChild copy oc nc (renew oc nc)).bind fun x => (reconcileLoop o n).map (x :: ·)

/-- The loop of `reconcileKeyed` over the new children. All others are removed, and these are put
in order. -/
def reconcileKeyed (byKey : List (Node ι Bytes)) :
    List (Node ι Bytes) → Option (List (Node ι Bytes))
  | [] => some []
  | nc :: n =>
    if nc.nodeType ≠ 1 then reconcileKeyed byKey n
    else if keyOf nc = none ∨ keyOf nc = some [] then
      (reconcileKeyed byKey n).map (nc.clone copy :: ·)
    else
      match getKey keyOf (keyOf nc) byKey with
      | some oc =>
        (patchKeyed oc (renew oc nc)).bind fun x =>
          (reconcileKeyed (eraseKey keyOf (keyOf nc) byKey) n).map (x :: ·)
      | none =>
        -- What is inherited is not a node, and has no `hasAttribute`.
        if (keyOf nc).getD [] ∈ inherited then none
        else (reconcileKeyed byKey n).map (nc.clone copy :: ·)

end

/-- `reconcile`: the children of the old element, made like those of the new one. -/
def reconcile (o n : List (Node ι Bytes)) : Option (List (Node ι Bytes)) :=
  if n.any hasKey then reconcileKeyed copy focus (oldByKey o) n else reconcileLoop copy focus o n

/-- `morph`. -/
def morph (root : Node ι Bytes) (html : List (Node ι Bytes)) : Option (Node ι Bytes) :=
  match root with
  | .element i tag as typed o => (reconcile copy focus o html).map (.element i tag as typed)
  | root => some root

end

end CppLaravel.Livewire
