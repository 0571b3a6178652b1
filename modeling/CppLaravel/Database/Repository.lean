import CppLaravel.Database.MemoryConnection

/-!
# `CppLaravel.Database.Repository`: typed models over a connection (`include/repository.hpp`)

A `Mapper` turns models into rows and back. `Repository` is the five calls over a
`MemoryConnection`: the connection assigns the ids, and the row of a model is kept under the id
that the mapper reads off it.
-/

set_option autoImplicit false

namespace CppLaravel.Database

/-- What a mapper provides. `hydrate` is `none` where it throws, as `Row::get` does for a column
that is not there. -/
structure Mapper (T : Type) where
  table : Bytes
  hydrate : Row → Option T
  toRow : T → Row
  id : T → Int
  setId : T → Int → T

namespace Repository

variable {T : Type} (M : Mapper T) (c : MemoryConnection)

/-- `find`. -/
def find (id : Int) : Option (Option T) :=
  match c.find M.table id with
  | none => some none
  | some row => (M.hydrate row).map some

/-- The loop of `all`: every row is hydrated. -/
def hydrateAll : List Row → Option (List T)
  | [] => some []
  | r :: rows =>
    match M.hydrate r with
    | none => none
    | some a => (hydrateAll rows).map (a :: ·)

/-- `all`. -/
def all : Option (List T) := hydrateAll M (c.all M.table)

/-- `insert`: the model with its id. -/
def insert (model : T) : T × MemoryConnection :=
  let row := (M.toRow model).erase (bytes "id")
  let (id, c) := c.insert M.table row
  (M.setId model id, c)

/-- `update`. -/
def update (model : T) : Bool × MemoryConnection := c.update M.table (M.id model) (M.toRow model)

/-- `remove`. -/
def remove (model : T) : Bool × MemoryConnection := c.remove M.table (M.id model)

end Repository

/-! ### Calls one after the other -/

/-- A call of a repository, with what it answered. -/
inductive RepositoryCall (T : Type) where
  | inserted (model assigned : T)
  | updated (model : T) (ok : Bool)
  | removed (model : T) (ok : Bool)
  | found (id : Int) (result : Option (Option T))
  | listed (result : Option (List T))

/-- A call is made. -/
inductive Repository.Step {T : Type} (M : Mapper T) :
    MemoryConnection → RepositoryCall T → MemoryConnection → Prop
  | insert (c : MemoryConnection) (model : T) :
      Step M c (.inserted model (insert M c model).1) (insert M c model).2
  | update (c : MemoryConnection) (model : T) :
      Step M c (.updated model (update M c model).1) (update M c model).2
  | remove (c : MemoryConnection) (model : T) :
      Step M c (.removed model (remove M c model).1) (remove M c model).2
  | find (c : MemoryConnection) (id : Int) : Step M c (.found id (find M c id)) c
  | all (c : MemoryConnection) : Step M c (.listed (all M c)) c

end CppLaravel.Database
