import CppLaravel.Database.Query

/-!
# `CppLaravel.Database.SqliteConnection`: the SQLite backend (`src/sqlite_connection.cpp`)

Every operation builds a text and a list of values to bind; one that is refused throws before
anything reaches the library. The library itself is the parameter `Engine`: what it does with a
text and what is bound to it. A row is handed to an operation as the list of its columns in the
order in which the map is walked. Indices are natural numbers, `int` in the source.
-/

set_option autoImplicit false

namespace CppLaravel.Database

/-- What `c_str()` shows of a string: nothing from the first NUL on. -/
def cStr (s : Bytes) : Bytes := s.takeWhile (· ≠ 0)

namespace SqliteConnection

/-- The exceptions that are thrown, with their texts. -/
inductive Error where
  | invalidArgument (what : Bytes)
  | runtimeError (what : Bytes)

/-! ### Texts -/

/-- `op_sql`. -/
def opSql : Op → Bytes
  | .eq => bytes "="
  | .ne => bytes "!="
  | .lt => bytes "<"
  | .lte => bytes "<="
  | .gt => bytes ">"
  | .gte => bytes ">="
  | .oneOf => bytes "="

/-- `ident`. -/
def ident (name : Bytes) : Except Error Bytes :=
  if isSqlIdentifier name then .ok name
  else .error (.invalidArgument (bytes "sqlite: unsafe SQL identifier: " ++ name))

/-- The marks of an `In` list from the index `j` on. -/
def inMarks : Nat → List Value → Bytes
  | _, [] => []
  | j, _ :: vs => (if j = 0 then bytes "?" else bytes ",?") ++ inMarks (j + 1) vs

/-- The loop of `append_wheres` from the index `i` on. -/
def appendWheres : Nat → Bytes → List WhereClause → Except Error Bytes
  | _, sql, [] => .ok sql
  | i, sql, w :: ws => do
    let sql := sql ++ (if i = 0 then bytes " WHERE " else bytes " AND ")
    let column ← ident w.column
    match w.op with
    | .oneOf => appendWheres (i + 1) (sql ++ column ++ bytes " IN (" ++ inMarks 0 w.values ++
        bytes ")") ws
    | op => appendWheres (i + 1) (sql ++ column ++ bytes " " ++ opSql op ++ bytes " ?") ws

/-- Values bound from the index `idx` on. -/
def bindFrom (idx : Nat) (vs : List Value) : List (Nat × Value) :=
  (vs.zipIdx idx).map Prod.swap

/-- The loop of `bind_wheres` from the index `idx` on. -/
def bindWheres : Nat → List WhereClause → List (Nat × Value)
  | _, [] => []
  | idx, w :: ws =>
    match w.op with
    | .oneOf => bindFrom idx w.values ++ bindWheres (idx + w.values.length) ws
    | _ => (idx, w.value) :: bindWheres (idx + 1) ws

/-- The loop over the columns in `insert`: the names and the marks. -/
def namesAndMarks : Nat → Bytes × Bytes → List (Bytes × Value) → Except Error (Bytes × Bytes)
  | _, acc, [] => .ok acc
  | i, (names, marks), c :: cols => do
    let separator := if i = 0 then [] else bytes ", "
    let column ← ident c.1
    namesAndMarks (i + 1) (names ++ separator ++ column, marks ++ separator ++ bytes "?") cols

/-- The loop over the columns in `update` and `update_if`. -/
def appendSets : Nat → Bytes → List (Bytes × Value) → Except Error Bytes
  | _, sets, [] => .ok sets
  | i, sets, c :: cols => do
    let column ← ident c.1
    appendSets (i + 1) (sets ++ (if i = 0 then [] else bytes ", ") ++ column ++ bytes " = ?") cols

/-- The order of `select`. -/
def appendOrder (sql : Bytes) : Option OrderClause → Except Error Bytes
  | none => .ok sql
  | some order => do
    let column ← ident order.column
    return sql ++ bytes " ORDER BY " ++ column ++
      (if order.descending then bytes " DESC" else bytes " ASC")

/-- The limit and the offset of `select`; SQLite requires a limit before an offset. -/
def appendLimit (sql : Bytes) (query : Query) : Bytes :=
  let sql := match query.limit with
    | none => sql
    | some limit => sql ++ bytes " LIMIT " ++ natToString limit
  match query.offset with
  | none => sql
  | some offset =>
    let sql := if query.limit.isNone then sql ++ bytes " LIMIT -1" else sql
    sql ++ bytes " OFFSET " ++ natToString offset

/-- A text and what is bound to its marks. -/
structure Statement where
  sql : Bytes
  binds : List (Nat × Value)

section
variable (table : Bytes)

def insertStatement (cols : List (Bytes × Value)) : Except Error Statement := do
  let (names, marks) ← namesAndMarks 0 ([], []) cols
  let table ← ident table
  return {
    sql := bytes "INSERT INTO " ++ table ++ bytes " (" ++ names ++ bytes ") VALUES (" ++ marks ++
      bytes ")"
    binds := bindFrom 1 (cols.map Prod.snd) }

def findStatement (id : Int) : Except Error Statement := do
  let table ← ident table
  return {
    sql := bytes "SELECT * FROM " ++ table ++ bytes " WHERE id = ?"
    binds := [(1, .int id)] }

def selectStatement (query : Query) : Except Error Statement := do
  let table ← ident table
  let sql ← appendWheres 0 (bytes "SELECT * FROM " ++ table) query.wheres
  let sql ← appendOrder sql query.order
  return { sql := appendLimit sql query, binds := bindWheres 1 query.wheres }

/-- The order, the limit and the offset of the query are not used. -/
def countStatement (query : Query) : Except Error Statement := do
  let table ← ident table
  let sql ← appendWheres 0 (bytes "SELECT COUNT(*) FROM " ++ table) query.wheres
  return { sql := sql, binds := bindWheres 1 query.wheres }

/-- The columns that `update` and `update_if` set. -/
def withoutId (cols : List (Bytes × Value)) : List (Bytes × Value) :=
  cols.filter fun c => c.1 ≠ bytes "id"

def updateStatement (id : Int) (cols : List (Bytes × Value)) : Except Error Statement := do
  let cols := withoutId cols
  let sets ← appendSets 0 [] cols
  let table ← ident table
  return {
    sql := bytes "UPDATE " ++ table ++ bytes " SET " ++ sets ++ bytes " WHERE id = ?"
    binds := bindFrom 1 (cols.map Prod.snd ++ [.int id]) }

def updateIfStatement (id : Int) (guardCol : Bytes) (guardValue : Value)
    (cols : List (Bytes × Value)) : Except Error Statement := do
  let cols := withoutId cols
  let sets ← appendSets 0 [] cols
  let table ← ident table
  let guardCol ← ident guardCol
  return {
    sql := bytes "UPDATE " ++ table ++ bytes " SET " ++ sets ++ bytes " WHERE id = ? AND " ++
      guardCol ++ bytes " = ?"
    binds := bindFrom 1 (cols.map Prod.snd ++ [.int id, guardValue]) }

def removeStatement (id : Int) : Except Error Statement := do
  let table ← ident table
  return {
    sql := bytes "DELETE FROM " ++ table ++ bytes " WHERE id = ?"
    binds := [(1, .int id)] }

end

/-! ### The library -/

/-- What is handed to the library for a mark. -/
inductive Binding where
  | int64 (i : Int)
  | double (d : Double)
  | text (s : Bytes)
deriving DecidableEq

/-- `bind_value`. -/
def bindValue : Value → Binding
  | .int i => .int64 i
  | .double d => .double d
  | .bool b => .int64 (if b then 1 else 0)
  | .string s => .text (cStr s)

/-- The storage classes; nothing binds a blob. -/
inductive Storage where
  | null
  | integer (i : Int)
  | real (d : Double)
  | text (s : Bytes)
deriving DecidableEq

/-- `read_column`. -/
def readColumn : Storage → Value
  | .integer i => .int i
  | .real d => .double d
  | .text s => .string (cStr s)
  | .null => .string []

/-- `read_row`. -/
def readRow (columns : List (Bytes × Storage)) : Row :=
  columns.foldl (fun row c => row.set c.1 (readColumn c.2)) .empty

/-- A statement after its last step: the rows it gave, the error if the step has not ended with
`SQLITE_DONE`, and the database. -/
structure Outcome (δ : Type) where
  rows : List (List (Bytes × Storage))
  error : Option Bytes
  db : δ

/-- The library over databases of the type `δ`. -/
structure Engine (δ : Type) where
  /-- `sqlite3_exec`: the error, if there is one, and the database. -/
  exec : δ → Bytes → Option Bytes × δ
  /-- `sqlite3_prepare_v2`: the error, if there is one. -/
  prepareError : δ → Bytes → Option Bytes
  /-- The bind calls, and the steps until there are no more rows. -/
  run : δ → Bytes → List (Nat × Binding) → Outcome δ
  changes : δ → Int
  lastInsertRowid : δ → Int

section
variable {δ : Type} (E : Engine δ) (db : δ)

/-- The message of a refused text. -/
def refused (message sql : Bytes) : Error :=
  .runtimeError (bytes "sqlite: " ++ message ++ bytes " [" ++ sql ++ bytes "]")

/-- `statement`. -/
def statement (sql : Bytes) : Except Error δ :=
  match E.exec db (cStr sql) with
  | (none, db) => .ok db
  | (some message, _) => .error (refused message sql)

/-- Prepare, bind and step; `none` if the text is refused. -/
def runStatement (s : Statement) : Option (Outcome δ) :=
  match E.prepareError db (cStr s.sql) with
  | some _ => none
  | none => some (E.run db (cStr s.sql) (s.binds.map fun b => (b.1, bindValue b.2)))

variable (table : Bytes)

/-- `insert`. -/
def insert (cols : List (Bytes × Value)) : Except Error (Int × δ) := do
  let s ← insertStatement table cols
  match E.prepareError db (cStr s.sql) with
  | some message => .error (refused message s.sql)
  | none =>
    let o := E.run db (cStr s.sql) (s.binds.map fun b => (b.1, bindValue b.2))
    match o.error with
    | some message => .error (refused message s.sql)
    | none => .ok (E.lastInsertRowid o.db, o.db)

/-- `find`. -/
def find (id : Int) : Except Error (Option Row) := do
  let s ← findStatement table id
  match runStatement E db s with
  | none => return none
  | some o => return o.rows.head?.map readRow

/-- `select`. -/
def select (query : Query) : Except Error (List Row) := do
  let s ← selectStatement table query
  match runStatement E db s with
  | none => return []
  | some o => return o.rows.map readRow

/-- `update`. -/
def update (id : Int) (cols : List (Bytes × Value)) : Except Error (Bool × δ) := do
  let s ← updateStatement table id cols
  match runStatement E db s with
  | none => return (false, db)
  | some o => return (decide (E.changes o.db > 0), o.db)

/-- `update_if`. -/
def updateIf (id : Int) (guardCol : Bytes) (guardValue : Value) (cols : List (Bytes × Value)) :
    Except Error (Bool × δ) := do
  let s ← updateIfStatement table id guardCol guardValue cols
  match runStatement E db s with
  | none => return (false, db)
  | some o => return (decide (E.changes o.db > 0), o.db)

/-- `remove`. -/
def remove (id : Int) : Except Error (Bool × δ) := do
  let s ← removeStatement table id
  match runStatement E db s with
  | none => return (false, db)
  | some o => return (decide (E.changes o.db > 0), o.db)

end

end SqliteConnection

end CppLaravel.Database
