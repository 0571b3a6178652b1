import CppLaravel.Database.Repository
import CppLaravel.Database.Select

/-!
# `CppLaravel.Database.QueryBuilder`: the fluent builder (`include/repository.hpp`)

A builder is the query it has accumulated. A member that takes a column is `none` where the column
is no plain identifier, which the source refuses with an exception. Sizes and positions are
`size_t`, here `UInt64`.
-/

set_option autoImplicit false

namespace CppLaravel.Database

/-- `Page`. -/
structure Page (T : Type) where
  items : List T
  total : UInt64
  page : UInt64
  perPage : UInt64
  lastPage : UInt64
deriving DecidableEq

namespace QueryBuilder

/-- `checked`. -/
def checked (column : Bytes) : Option Bytes :=
  if isSqlIdentifier column then some column else none

section
variable (query : Query)

/-- `where`. -/
def whereOp (column : Bytes) (op : Op) (value : Value) : Option Query :=
  (checked column).map fun column =>
    { query with wheres := query.wheres ++ [⟨column, op, value, []⟩] }

/-- `where` with two arguments. -/
def whereEq (column : Bytes) (value : Value) : Option Query := whereOp query column .eq value

/-- `where_in`. The value of the clause is a default one. -/
def whereIn (column : Bytes) (values : List Value) : Option Query :=
  (checked column).map fun column =>
    { query with wheres := query.wheres ++ [⟨column, .oneOf, .int 0, values⟩] }

/-- `order_by`. -/
def orderBy (column : Bytes) (descending : Bool) : Option Query :=
  (checked column).map fun column => { query with order := some ⟨column, descending⟩ }

/-- `limit`. -/
def limit (n : UInt64) : Query := { query with limit := some n.toNat }

/-- `offset`. -/
def offset (n : UInt64) : Query := { query with offset := some n.toNat }

/-- The query without a limit and an offset. -/
def unpaged : Query := { query with limit := none, offset := none }

end

section
variable {T : Type} (M : Mapper T) (c : MemoryConnection) (query : Query)

/-- `get`; none where the selection or a hydration throws. -/
def get : Option (List T) := (c.selectQuery M.table query).bind (Repository.hydrateAll M)

/-- `first`. -/
def first : Option (Option T) :=
  (c.selectQuery M.table { query with limit := some 1 }).bind fun rows =>
    match rows with
    | [] => some none
    | r :: _ => (M.hydrate r).map some

/-- `count`. -/
def count : Nat := c.count M.table query

/-- `paginate`. -/
def paginate (page perPage : UInt64) : Option (Page T) :=
  let base := unpaged query
  let total := UInt64.ofNat (c.count M.table base)
  let q := { base with
    limit := some perPage.toNat
    offset := some ((if page = 0 then 0 else page - 1) * perPage).toNat }
  ((c.selectQuery M.table q).bind (Repository.hydrateAll M)).map fun items =>
    ⟨items, total, page, perPage, if perPage = 0 then 1 else (total + perPage - 1) / perPage⟩

end

end QueryBuilder

end CppLaravel.Database
