import CppLaravel.Database.Row

/-!
# `CppLaravel.Database.Query`: queries (`include/database.hpp`)
-/

set_option autoImplicit false

namespace CppLaravel.Database

/-- `is_sql_identifier`. -/
def isSqlIdentifier (s : Bytes) : Bool :=
  let word (c : UInt8) : Bool := 97 ≤ c && c ≤ 122 || 65 ≤ c && c ≤ 90 || c = 95
  match s with
  | [] => false
  | c :: _ => word c && s.all fun c => word c || 48 ≤ c && c ≤ 57

/-- The operators of a where clause; `oneOf` is `In`. -/
inductive Op where
  | eq
  | ne
  | lt
  | lte
  | gt
  | gte
  | oneOf
deriving DecidableEq

/-- `In` matches against `values`, the other operators against `value`. -/
structure WhereClause where
  column : Bytes
  op : Op
  value : Value
  values : List Value

structure OrderClause where
  column : Bytes
  descending : Bool

/-- A description of a selection; the where clauses are joined by `AND`. -/
structure Query where
  wheres : List WhereClause
  order : Option OrderClause
  limit : Option Nat
  offset : Option Nat

/-- `Query{}`: all rows. -/
def Query.all : Query := ⟨[], none, none, none⟩

end CppLaravel.Database
