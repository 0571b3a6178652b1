import CppLaravel.Database.QueryBuilder
import CppLaravel.Lib.Grouped

/-!
# `CppLaravel.Database.Relations`: relations between models (`include/relations.hpp`)

A relation is a query by the foreign key. `loadHasMany` asks once for the children of many parents
and groups them by the key that the caller reads off a child. Each function is `none` where it
throws: at a foreign key that is no plain identifier, or in the mapper.
-/

set_option autoImplicit false

namespace CppLaravel.Database

open CppLaravel.Lib

variable {T : Type} (M : Mapper T) (c : MemoryConnection)

/-- `has_many`. -/
def hasMany (foreignKey : Bytes) (parentId : Int) : Option Query :=
  QueryBuilder.whereEq .all foreignKey (.int parentId)

/-- `has_one`. -/
def hasOne (foreignKey : Bytes) (parentId : Int) : Option (Option T) :=
  (hasMany foreignKey parentId).bind (QueryBuilder.first M c)

/-- `belongs_to`. -/
def belongsTo (foreignId : Int) : Option (Option T) :=
  (QueryBuilder.whereEq .all (bytes "id") (.int foreignId)).bind (QueryBuilder.first M c)

/-- `has_many(…).get()`. -/
def childrenOf (foreignKey : Bytes) (parentId : Int) : Option (List T) :=
  (hasMany foreignKey parentId).bind (QueryBuilder.get M c)

/-- `load_has_many`. -/
def loadHasMany (foreignKey : Bytes) (parentIds : List Int) (keyOf : T → Int) :
    Option (Finmap fun _ : Int => List T) :=
  ((QueryBuilder.whereIn .all foreignKey (parentIds.map Value.int)).bind
    (QueryBuilder.get M c)).map (grouped keyOf)

end CppLaravel.Database
