import CppLaravel.Database.MemoryConnection
import CppLaravel.Database.Query

/-!
# `CppLaravel.Database.Select`: queries on the in-memory backend (`src/database.cpp`)

`selectQuery` is `MemoryConnection::select` with a whole query: it filters, orders and cuts. The
order is that of `std::stable_sort`. Its comparison throws where a row has no cell in the order
column, which happens once there are two rows to compare.
-/

set_option autoImplicit false

namespace CppLaravel.Database

/-- `<=` of doubles. -/
def Double.le (d d' : Double) : Bool := !d.isNan && !d'.isNan && d.key ≤ d'.key

namespace Value

/-- `index()`: the alternative that a cell holds. -/
def index : Value → Nat
  | .int _ => 0
  | .double _ => 1
  | .string _ => 2
  | .bool _ => 3

/-- `<` of two cells: of one alternative by their values, else by the alternatives. -/
def lt : Value → Value → Bool
  | .int i, .int i' => i < i'
  | .double d, .double d' => d.lt d'
  | .string s, .string s' => s < s'
  | .bool b, .bool b' => !b && b'
  | v, w => v.index < w.index

/-- `<=` of two cells. -/
def le : Value → Value → Bool
  | .int i, .int i' => i ≤ i'
  | .double d, .double d' => d.le d'
  | .string s, .string s' => s ≤ s'
  | .bool b, .bool b' => !b || b'
  | v, w => v.index < w.index

end Value

/-- `matches`. -/
def Op.matches (cell : Value) : Op → Value → Bool
  | .eq, v => cell.eq v
  | .ne, v => !cell.eq v
  | .lt, v => cell.lt v
  | .lte, v => cell.le v
  | .gt, v => v.lt cell
  | .gte, v => v.le cell
  | .oneOf, _ => false

/-- A row satisfies a where clause. -/
def WhereClause.accepts (w : WhereClause) (r : Row) : Bool :=
  match r.get? w.column with
  | none => false
  | some cell => if w.op = .oneOf then w.values.any cell.eq else w.op.matches cell w.value

/-- The comparison by which the rows are ordered. -/
def OrderClause.less (oc : OrderClause) (a b : Row) : Bool :=
  match a.get? oc.column, b.get? oc.column with
  | some av, some bv => if oc.descending then bv.lt av else av.lt bv
  | _, _ => false

/-- The rows in order; none where the comparison throws. -/
def inOrder (order : Option OrderClause) (rows : List Row) : Option (List Row) :=
  match order with
  | none => some rows
  | some oc =>
    if 2 ≤ rows.length ∧ rows.any (fun r => (r.get? oc.column).isNone) then none
    else some (rows.mergeSort fun a b => !oc.less b a)

namespace MemoryConnection

/-- The rows that satisfy every where clause. -/
def filtered (c : MemoryConnection) (table : Bytes) (wheres : List WhereClause) : List Row :=
  (c.tables table).filter fun r => wheres.all (·.accepts r)

/-- `select`. -/
def selectQuery (c : MemoryConnection) (table : Bytes) (query : Query) : Option (List Row) :=
  (inOrder query.order (c.filtered table query.wheres)).map fun rows =>
    let rows := match query.offset with
      | none => rows
      | some offset => if rows.length ≤ offset then [] else rows.drop offset
    match query.limit with
    | none => rows
    | some limit => rows.take limit

/-- `Connection::count`. -/
def count (c : MemoryConnection) (table : Bytes) (query : Query) : Nat :=
  ((c.selectQuery table { query with order := none, limit := none, offset := none }).getD []).length

/-- With equalities only, the rows are those with these cells. -/
theorem selectQuery_of_eq (c : MemoryConnection) (table : Bytes) (wheres : List (Bytes × Value)) :
    c.selectQuery table { Query.all with wheres := wheres.map fun w => ⟨w.1, .eq, w.2, []⟩ } =
      some (c.select table wheres) := by
  have haccepts : ∀ (w : Bytes × Value) (r : Row),
      WhereClause.accepts ⟨w.1, .eq, w.2, []⟩ r = (r.get? w.1).any (·.eq w.2) := by
    intro w r
    rw [WhereClause.accepts]
    cases r.get? w.1 <;> rfl
  show some (c.filtered table _) = _
  rw [filtered, select]
  simp only [List.all_map, Function.comp_def, haccepts]

end MemoryConnection

end CppLaravel.Database
