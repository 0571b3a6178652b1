import CppLaravel.Livewire.Json

/-!
# `CppLaravel.Livewire.Mount`: the first rendering of a component (`include/livewire.hpp`)

`Livewire::mount` makes a component, runs its `mount` hook, and writes its state into an
attribute of the element around what it renders.
-/

set_option autoImplicit false

namespace CppLaravel.Livewire

open CppLaravel.Http

/-- `Livewire` and the components that it makes: the hook `mount`, the state in the order in
which an iteration meets its entries, and `render`, which may mount children. -/
structure Registry (C : Type) where
  make : Bytes → Option C
  onMount : C → C
  state : C → List (Bytes × Bytes)
  nodup : ∀ c, ((state c).map Prod.fst).Nodup
  render : C → Bytes

/-- The wrapper up to the opening quote of the state. -/
def wrapperHead (domId name : Bytes) : Bytes :=
  bytes "<div wire:id=\"" ++ (domId ++ (bytes "\" wire:component=\"" ++
    (name ++ bytes "\" wire:state='")))

/-- The wrapper behind the closing quote of the state. -/
def wrapperTail (html : Bytes) : Bytes := bytes ">" ++ (html ++ bytes "</div>")

/-- `Livewire::mount`. -/
def Registry.mount {C : Type} (lw : Registry C) (name id : Bytes) : Bytes :=
  match lw.make name with
  | none => []
  | some c =>
    let c := lw.onMount c
    let domId := if id = [] then name else id
    wrapperHead domId name ++ (object (lw.state c) ++ 39 :: wrapperTail (lw.render c))

end CppLaravel.Livewire
