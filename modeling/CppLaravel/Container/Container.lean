import Mathlib.Logic.Function.Basic
import CppLaravel.Bytes
import CppLaravel.Lib.Callback

/-!
# `CppLaravel.Container.Container`: the service container

`include/container.hpp` and `include/container_contract.hpp`. `T` are the types, by their
`std::type_index`, and `V` the values in `std::any`. A factory is a `Program`: it may resolve
types, catch what that throws, enter a context and change the world `W`, and registers nothing.
`makeErased` has a bound on how deep factories resolve each other; out of it there is no result, as
there is none when the stack of the program overflows.

The state has, besides the members of the class, the world and `answers`: every type that was asked
for so far, with what came back.
-/

set_option autoImplicit false

namespace CppLaravel.Container

open CppLaravel.Lib

/-- What is thrown: `BindingResolutionException`, or something of a factory's own. -/
inductive Failure where
  | unresolved (message : Bytes)
  | thrown
deriving DecidableEq

abbrev Factory (T V W : Type) := Program T V W

/-- What `factories_` holds for a type: the lambda that was stored, by how it was registered. -/
inductive Binding (T V W : Type) where
  | bind (factory : Factory T V W)
  | singleton (factory : Factory T V W)
  | perScope (factory : Factory T V W)
  | object (obj : V)

structure State (T V W : Type) where
  factories : T → Option (Binding T V W)
  instances : T → Option V
  scopedInstances : T → Option V
  contextual : T → T → Option (Factory T V W)
  /-- From the bottom to the top. -/
  building : List T
  world : W
  answers : List (T × Option V)

section
variable {T V W : Type}

def State.empty (w : W) : State T V W :=
  ⟨fun _ => none, fun _ => none, fun _ => none, fun _ _ => none, [], w, []⟩

/-- The container with another stack. -/
def State.on (c : State T V W) (building : List T) : State T V W := { c with building := building }

/-! ### Registration -/

section
variable [DecidableEq T]

/-- `bind_erased`. -/
def bindErased (c : State T V W) (key : T) (factory : Factory T V W) : State T V W :=
  { c with factories := Function.update c.factories key (some (.bind factory)) }

/-- `singleton_erased`. -/
def singletonErased (c : State T V W) (key : T) (factory : Factory T V W) : State T V W :=
  { c with factories := Function.update c.factories key (some (.singleton factory)) }

/-- `scoped_erased`. -/
def scopedErased (c : State T V W) (key : T) (factory : Factory T V W) : State T V W :=
  { c with factories := Function.update c.factories key (some (.perScope factory)) }

/-- `instance_erased`. -/
def instanceErased (c : State T V W) (key : T) (obj : V) : State T V W :=
  { c with
    instances := Function.update c.instances key (some obj)
    factories := Function.update c.factories key (some (.object obj)) }

/-- `bind_contextual_erased`. -/
def bindContextualErased (c : State T V W) (consumer dep : T) (resolver : Factory T V W) :
    State T V W :=
  let deps := Function.update (c.contextual consumer) dep (some resolver)
  { c with contextual := Function.update c.contextual consumer deps }

end

/-- `forget_scoped`. -/
def forgetScoped (c : State T V W) : State T V W := { c with scopedInstances := fun _ => none }

/-- `bound_erased`. -/
def boundErased (c : State T V W) (key : T) : Bool := (c.factories key).isSome

/-! ### Resolution -/

/-- `push_building`. -/
def pushBuilding (c : State T V W) (t : T) : State T V W :=
  { c with building := c.building ++ [t] }

/-- `pop_building`. -/
def popBuilding (c : State T V W) : State T V W := { c with building := c.building.dropLast }

/-- The container as the host of its factories, for a given `make_erased`. -/
def host (make : State T V W → T → Option (Except Failure V × State T V W)) :
    Host T V W Failure (State T V W) where
  call := make
  world c := c.world
  setWorld c w := { c with world := w }
  enter := pushBuilding
  leave := popBuilding
  fault := .thrown

/-- The text of the exception of `unresolved`; `name` is the demangled name of a type. -/
def unresolved (name : T → Bytes) (key : T) (building : List T) : Bytes :=
  bytes "No binding registered for [" ++ name key ++ bytes "]" ++
    if building.isEmpty then []
    else bytes " while building [" ++ (bytes " -> ").intercalate (building.map name) ++ bytes "]"

section
variable [DecidableEq T]

/-- `instances_[key] = made`, if something was made. -/
def State.keepInstance (c : State T V W) (key : T) : Option V → State T V W
  | none => c
  | some made => { c with instances := Function.update c.instances key (some made) }

/-- `scoped_[key] = made`, if something was made. -/
def State.keepScoped (c : State T V W) (key : T) : Option V → State T V W
  | none => c
  | some made => { c with scopedInstances := Function.update c.scopedInstances key (some made) }

/-- The lambda in `factories_`. -/
def Binding.run (H : Host T V W Failure (State T V W)) (key : T) (c : State T V W) :
    Binding T V W → Option (Except Failure V × State T V W)
  | .bind factory => exec H factory c
  | .singleton factory =>
    match c.instances key with
    | some v => some (.ok v, c)
    | none => (exec H factory c).map fun x => (x.1, x.2.keepInstance key x.1.toOption)
  | .perScope factory =>
    match c.scopedInstances key with
    | some v => some (.ok v, c)
    | none => (exec H factory c).map fun x => (x.1, x.2.keepScoped key x.1.toOption)
  | .object obj => some (.ok obj, c)

/-- The contextual override: what the type on top of the stack has for `key`. -/
def override (c : State T V W) (key : T) : Option (Factory T V W) :=
  c.building.getLast?.bind fun top => c.contextual top key

/-- The request is answered. -/
def State.answer (key : T) (x : Except Failure V × State T V W) :
    Except Failure V × State T V W :=
  (x.1, { x.2 with answers := x.2.answers ++ [(key, x.1.toOption)] })

variable (name : T → Bytes)

/-- `make_erased`; factories resolve each other at most `n` deep. -/
def makeErased : Nat → State T V W → T → Option (Except Failure V × State T V W)
  | 0, _, _ => none
  | n + 1, c, key => Option.map (State.answer key) <|
    match override c key with
    | some resolver => exec (host (makeErased n)) resolver c
    | none =>
      match c.factories key with
      | none => some (.error (.unresolved (unresolved name key c.building)), c)
      | some binding => binding.run (host (makeErased n)) key c

/-! ### Autowiring -/

/-- `c.resolve<Deps>()...`: the dependencies in the order in which the compiler evaluates them. -/
def resolveAll : List T → (List V → Factory T V W) → Factory T V W
  | [], next => next []
  | t :: ts, next => .resolve t fun v => resolveAll ts fun vs => next (v :: vs)

/-- The lambda of `bind_auto<T, Deps...>`, `singleton_auto` and `scoped_auto`: within the context
of the type, the constructor gets its dependencies. -/
def auto (t : T) (deps : List T) (construct : List V → Factory T V W) : Factory T V W :=
  .within t (resolveAll deps construct)

/-- `bind_auto<T, Deps...>`. -/
def bindAuto (c : State T V W) (t : T) (deps : List T) (construct : List V → Factory T V W) :
    State T V W :=
  bindErased c t (auto t deps construct)

/-- `singleton_auto<T, Deps...>`. -/
def singletonAuto (c : State T V W) (t : T) (deps : List T) (construct : List V → Factory T V W) :
    State T V W :=
  singletonErased c t (auto t deps construct)

/-- `scoped_auto<T, Deps...>`. -/
def scopedAuto (c : State T V W) (t : T) (deps : List T) (construct : List V → Factory T V W) :
    State T V W :=
  scopedErased c t (auto t deps construct)

/-- The resolver of `give<Impl>`. -/
def give (impl : T) : Factory T V W := .resolve impl .done

/-! ### Calls -/

/-- A call of the container. -/
inductive Call (T V W : Type) where
  | bind (key : T) (factory : Factory T V W)
  | singleton (key : T) (factory : Factory T V W)
  | perScope (key : T) (factory : Factory T V W)
  | object (key : T) (obj : V)
  | contextual (consumer dep : T) (resolver : Factory T V W)
  | forgetScoped
  | resolve (key : T)

/-- A call, with what `resolve` gives. -/
def step (n : Nat) (c : State T V W) : Call T V W → Option (Option V × State T V W)
  | .bind key factory => some (none, bindErased c key factory)
  | .singleton key factory => some (none, singletonErased c key factory)
  | .perScope key factory => some (none, scopedErased c key factory)
  | .object key obj => some (none, instanceErased c key obj)
  | .contextual consumer dep resolver => some (none, bindContextualErased c consumer dep resolver)
  | .forgetScoped => some (none, forgetScoped c)
  | .resolve key => (makeErased name n c key).map fun x => (x.1.toOption, x.2)

/-- A call that returns, with what it gives. -/
def Step (c : State T V W) (a : Call T V W × Option V) (c' : State T V W) : Prop :=
  ∃ n, step name n c a.1 = some (a.2, c')

end
end

end CppLaravel.Container
