import CppLaravel.Proofs.Database.SqlText

/-!
# `CppLaravel.Proofs.Database.Documented`: what SQLite documents

The library is not part of the source. What the results about it take from its documentation is
stated here: how a table that a `Blueprint` made converts what is stored in its columns, and what
the statements that pick a row by its id do with it. Each statement is named by its text. A value
is compared with another as the mapper reads it, by the `value_as` of the column.
-/

set_option autoImplicit false

namespace CppLaravel.Database

/-- The columns that a `Blueprint` adds to `id`. -/
inductive ColumnKind where
  | integer
  | boolean
  | string
  | real

structure Column where
  name : Bytes
  kind : ColumnKind

/-- All columns of a table. -/
def withId (schema : List Column) : List Column := ⟨bytes "id", .integer⟩ :: schema

/-- Two cells that a column of the kind reads as the same value. -/
def sameReading : ColumnKind → Value → Value → Bool
  | .integer, v, w => v.asInt = w.asInt
  | .boolean, v, w => v.asBool = w.asBool
  | .string, v, w => v.asString = w.asString
  | .real, v, w => v.asDouble.eq w.asDouble

/-- A walk through the columns of a row. -/
structure Enumerates (row : Row) (cols : List (Bytes × Value)) : Prop where
  nodup : (cols.map Prod.fst).Nodup
  mem_iff : ∀ name v, (name, v) ∈ cols ↔ row.get? name = some v

theorem enumerates_ofList {cols : List (Bytes × Value)} (hnodup : (cols.map Prod.fst).Nodup) :
    Enumerates (.ofList cols) cols :=
  ⟨hnodup, fun _ _ => (Row.get?_ofList hnodup).symm⟩

namespace SqliteConnection

/-- What a binding is as a value; a NaN is a NULL. -/
def Binding.storage : Binding → Storage
  | .int64 i => .integer i
  | .double d => if d.isNan then .null else .real d
  | .text s => .text s

/-- What is stored for a cell before the column converts it. -/
def storageOf (v : Value) : Storage := (bindValue v).storage

/-- The tables of a database that were made by a `Blueprint` with an id: their other columns, and
the cells of the row with an id. -/
structure Contents (δ : Type) where
  columns : δ → Bytes → Option (List Column)
  cells : δ → Bytes → Int → Option (Bytes → Storage)
  /-- What a column of the kind stores for a value. -/
  affinity : ColumnKind → Storage → Storage
  nodup : ∀ {db table schema}, columns db table = some schema →
    ((withId schema).map Column.name).Nodup
  cells_id : ∀ {db table id cells'}, cells db table id = some cells' →
    cells' (bytes "id") = .integer id

section
variable {δ : Type} (E : Engine δ) (V : Contents δ) (table : Bytes)

/-- Column affinity: a value of the class of its column is stored as it is, up to the sign of a
zero. -/
structure Affinity : Prop where
  integer : ∀ i, V.affinity .integer (.integer i) = .integer i
  boolean : ∀ i, V.affinity .boolean (.integer i) = .integer i
  string : ∀ s, V.affinity .string (.text s) = .text s
  real : ∀ d, d.isNan = false → ∃ d', V.affinity .real (.real d) = .real d' ∧ d.eq d' = true

/-- The text of a call with its values left out. -/
abbrev Call.text (call : Call) : Bytes := sqlText call.tokens

/-- The values of a call as the library gets them. -/
def Call.bindings (call : Call) : List (Nat × Binding) :=
  (bindFrom 1 (markValues call.tokens)).map fun b => (b.1, bindValue b.2)

/-- `SELECT * FROM table WHERE id = ?`: the cells of the row, under the names of the columns. A
column whose name is no identifier may be called otherwise. -/
structure Finds : Prop where
  prepares : ∀ {db schema}, V.columns db table = some schema →
    ∀ id, E.prepareError db (Call.find table id).text = none
  rows_none : ∀ {db schema id}, V.columns db table = some schema → V.cells db table id = none →
    (E.run db (Call.find table id).text (Call.find table id).bindings).rows = []
  rows_some : ∀ {db schema id cells}, V.columns db table = some schema →
    V.cells db table id = some cells →
    ∃ row, (E.run db (Call.find table id).text (Call.find table id).bindings).rows = [row] ∧
      (row.map Prod.fst).Nodup ∧
      ∀ column ∈ withId schema, isSqlIdentifier column.name = true →
        (column.name, cells column.name) ∈ row

/-- Whether a table has these columns. -/
def Has (schema : List Column) (names : List Bytes) : Prop :=
  ∀ name ∈ names, ∃ column ∈ schema, column.name = name

instance (schema : List Column) (names : List Bytes) : Decidable (Has schema names) :=
  inferInstanceAs (Decidable (∀ name ∈ names, ∃ column ∈ schema, column.name = name))

/-- The cells of a row after it is stored with these values. -/
def Stores (schema : List Column) (sets : List (Bytes × Value))
    (cells cells' : Bytes → Storage) : Prop :=
  (∀ column ∈ schema, ∀ v, (column.name, v) ∈ sets →
    cells' column.name = V.affinity column.kind (storageOf v)) ∧
  ∀ name, name ∉ sets.map Prod.fst → cells' name = cells name

/-- An update with a guard, or without one. -/
def updateCall (id : Int) (cols : List (Bytes × Value)) : Option (Bytes × Value) → Call
  | none => .update table id cols
  | some (guardCol, guardValue) => .updateIf table id guardCol guardValue cols

/-- The guard holds of the cells: the column converts the value it is compared with. -/
def Matching (schema : List Column) (guard : Option (Bytes × Value)) (cells : Bytes → Storage) :
    Prop :=
  ∀ g ∈ guard, ∃ column ∈ withId schema, column.name = g.1 ∧
    cells g.1 = V.affinity column.kind (storageOf g.2)

/-- `UPDATE table SET .. WHERE id = ?`, with or without a guard. Without a column to set the text
has a syntax error, and a column refuses a NULL. -/
structure Updates (id : Int) (guard : Option (Bytes × Value)) (call : Call)
    (sets : List (Bytes × Value)) : Prop where
  refuses : ∀ db, sets = [] → ∃ message, E.prepareError db call.text = some message
  prepares : ∀ {db schema}, V.columns db table = some schema → sets ≠ [] →
    Has schema (sets.map Prod.fst) → Has (withId schema) (guard.toList.map Prod.fst) →
    E.prepareError db call.text = none
  columns : ∀ db, V.columns (E.run db call.text call.bindings).db table = V.columns db table
  absent : ∀ {db}, V.cells db table id = none →
    V.cells (E.run db call.text call.bindings).db table id = none ∧
    E.changes (E.run db call.text call.bindings).db = 0
  stored : ∀ {db schema cells}, V.columns db table = some schema →
    V.cells db table id = some cells → Matching V schema guard cells →
    (∀ c ∈ sets, storageOf c.2 ≠ .null) →
    E.changes (E.run db call.text call.bindings).db = 1 ∧
    ∃ cells', V.cells (E.run db call.text call.bindings).db table id = some cells' ∧
      Stores V schema sets cells cells'

/-- `INSERT INTO table ..`: if it is done, there is a row with the id that it gave. -/
structure Inserts (cols : List (Bytes × Value)) : Prop where
  columns : ∀ db, V.columns (E.run db (Call.insert table cols).text
    (Call.insert table cols).bindings).db table = V.columns db table
  stored : ∀ {db schema}, V.columns db table = some schema →
    (E.run db (Call.insert table cols).text (Call.insert table cols).bindings).error = none →
    ∃ cells, V.cells (E.run db (Call.insert table cols).text (Call.insert table cols).bindings).db
        table (E.lastInsertRowid (E.run db (Call.insert table cols).text
          (Call.insert table cols).bindings).db) = some cells ∧
      ∀ column ∈ schema, ∀ v, (column.name, v) ∈ cols →
        cells column.name = V.affinity column.kind (storageOf v)

end

/-! ### `find` -/

theorem get?_readRow {columns : List (Bytes × Storage)} (hnodup : (columns.map Prod.fst).Nodup)
    {name : Bytes} {s : Storage} (h : (name, s) ∈ columns) :
    (readRow columns).get? name = some (readColumn s) := by
  have hrow : readRow columns = .ofList (columns.map fun c => (c.1, readColumn c.2)) := by
    rw [readRow, Row.ofList, List.foldl_map]
  have hnames : ((columns.map fun c => (c.1, readColumn c.2)).map Prod.fst).Nodup := by
    rw [List.map_map]
    exact hnodup
  rw [hrow, Row.get?_ofList hnames]
  exact List.mem_map_of_mem (f := fun c => (c.1, readColumn c.2)) h

section
variable {δ : Type} {E : Engine δ} {V : Contents δ} {table : Bytes} {db : δ}
  {schema : List Column} {id : Int}

/-- What an operation with safe names hands to the library. -/
theorem runStatement_spelled {call : Call} (h : Safe call.names) :
    runStatement E db (spelled call.tokens) =
      match E.prepareError db call.text with
      | some _ => none
      | none => some (E.run db call.text call.bindings) := by
  rw [runStatement]
  show (match E.prepareError db (cStr (sqlText call.tokens)) with
    | some _ => none
    | none => some (E.run db (cStr (sqlText call.tokens)) _)) = _
  rw [cStr_sqlText (allPlain_tokens h)]
  rfl

/-- A statement with safe names is run. -/
theorem ok_of_safe {call : Call} (h : Safe call.names) :
    call.statement = .ok (spelled call.tokens) := by
  obtain ⟨-, hsafe⟩ | ⟨hok, -⟩ := checked_call call
  · exact absurd h hsafe
  · exact hok

theorem error_of_not_safe {call : Call} (h : ¬ Safe call.names) :
    ∃ what, call.statement = .error (.invalidArgument what) := by
  obtain ⟨herror, -⟩ | ⟨-, hsafe⟩ := checked_call call
  · exact herror
  · exact absurd hsafe h

variable (hE : Finds E V table) (htable : isSqlIdentifier table = true)
  (hschema : V.columns db table = some schema)
include hE htable hschema

theorem find_eq : find E db table id =
    .ok ((E.run db (Call.find table id).text (Call.find table id).bindings).rows.head?.map
      readRow) := by
  have hsafe : Safe (Call.find table id).names := by simpa [Call.names] using htable
  have hok : findStatement table id = .ok (spelled (Call.find table id).tokens) :=
    ok_of_safe hsafe
  rw [find, hok]
  dsimp only [bind, Except.bind]
  rw [runStatement_spelled hsafe, hE.prepares hschema id]
  rfl

/-- A row that is not there. -/
theorem find_of_cells_none (h : V.cells db table id = none) : find E db table id = .ok none := by
  rw [find_eq hE htable hschema, hE.rows_none hschema h]
  rfl

/-- A row that is there. -/
theorem find_of_cells {cells : Bytes → Storage} (h : V.cells db table id = some cells) :
    ∃ row, find E db table id = .ok (some row) ∧
      ∀ column ∈ withId schema, isSqlIdentifier column.name = true →
        row.get? column.name = some (readColumn (cells column.name)) := by
  obtain ⟨columns, hrows, hnodup, hmem⟩ := hE.rows_some hschema h
  refine ⟨readRow columns, by rw [find_eq hE htable hschema, hrows]; rfl, ?_⟩
  intro column hcolumn hsafe
  exact get?_readRow hnodup (hmem column hcolumn hsafe)

end

/-! ### A library with one row

What is documented holds of a library that keeps the row with the id `1` of one table, with
columns that convert nothing, and knows one statement beside the search. -/

/-- The row, and the number of rows that the last statement has changed. -/
structure OneRow where
  row : Option (Bytes → Storage)
  changes : Int

namespace OneRow

section
variable (table : Bytes) (schema : List Column) (call : Call) (sets : List (Bytes × Value))

/-- The cells after these are set. -/
def store (cells : Bytes → Storage) (name : Bytes) : Storage :=
  match (Row.ofList sets).get? name with
  | some v => storageOf v
  | none => cells name

/-- The library; `call` makes a row out of the one before. -/
def engine (write : Option (Bytes → Storage) → Option (Bytes → Storage)) : Engine OneRow where
  exec db _ := (none, db)
  prepareError _ sql :=
    if sql = call.text ∧ sets = [] then some (bytes "syntax error") else none
  run db sql binds :=
    if sql = call.text then
      { rows := [], error := none, db := ⟨write db.row, if db.row.isSome then 1 else 0⟩ }
    else
      { rows := if binds.any fun b => b.2 = .int64 1 then db.row.toList.map fun cells =>
            (bytes "id", .integer 1) :: schema.map fun c => (c.name, cells c.name)
          else []
        error := none
        db := db }
  changes db := db.changes
  lastInsertRowid _ := 1

/-- What the library holds. -/
def contents (h : ((withId schema).map Column.name).Nodup) : Contents OneRow where
  columns _ t := if t = table then some schema else none
  cells db t id :=
    if t = table ∧ id = 1 then
      db.row.map fun cells name => if name = bytes "id" then .integer 1 else cells name
    else none
  affinity _ s := s
  nodup := by
    intro db t schema' hschema
    split at hschema
    · cases hschema
      exact h
    · cases hschema
  cells_id := by
    intro db t id cells hcells
    split at hcells
    · rename_i hid
      obtain ⟨cells', -, rfl⟩ := Option.map_eq_some_iff.mp hcells
      exact congrArg Storage.integer hid.2.symm
    · cases hcells

variable {table schema call sets} {h : ((withId schema).map Column.name).Nodup}
  {write : Option (Bytes → Storage) → Option (Bytes → Storage)}

theorem columns_contents (db : OneRow) :
    (contents table schema h).columns db table = some schema := if_pos rfl

theorem cells_contents (cells : Bytes → Storage) (n : Int) :
    (contents table schema h).cells ⟨some cells, n⟩ table 1 =
      some fun name => if name = bytes "id" then .integer 1 else cells name := if_pos ⟨rfl, rfl⟩

theorem affinity : Affinity (contents table schema h) where
  integer _ := rfl
  boolean _ := rfl
  string _ := rfl
  real d hd := ⟨d, rfl, by simp [Double.eq, hd]⟩

theorem rows_find (hcall : (Call.find table 1).text ≠ call.text) (db : OneRow) (id : Int) :
    ((engine schema call sets write).run db (Call.find table id).text
      (Call.find table id).bindings).rows =
    if id = 1 then db.row.toList.map fun cells =>
      (bytes "id", .integer 1) :: schema.map fun c => (c.name, cells c.name) else [] := by
  show (ite ((Call.find table 1).text = call.text) _ _ : Outcome OneRow).rows = _
  rw [if_neg hcall]
  show (if [((1 : Nat), Binding.int64 id)].any (fun b => decide (b.2 = .int64 1)) then _ else _) = _
  by_cases hid : id = 1 <;> simp [hid]

theorem finds (hcall : (Call.find table 1).text ≠ call.text) :
    Finds (engine schema call sets write) (contents table schema h) table where
  prepares _ id := if_neg fun heq => hcall heq.1
  rows_none := by
    intro db schema' id _ hcells
    rw [rows_find hcall]
    by_cases hid : id = 1
    · have hrow : db.row = none := by
        simpa [contents, hid] using hcells
      rw [if_pos hid, hrow]
      rfl
    · rw [if_neg hid]
  rows_some := by
    intro db schema' id cells hschema hcells
    obtain rfl : schema = schema' := by
      simpa [contents] using hschema
    -- The table has one row, under the id 1.
    have hid : id = 1 := by
      by_contra hid
      simp [contents, hid] at hcells
    obtain ⟨cells', hrow, rfl⟩ : ∃ cells', db.row = some cells' ∧
        (fun name => if name = bytes "id" then .integer 1 else cells' name) = cells := by
      simpa [contents, hid] using hcells
    obtain ⟨hnot, hschemaNodup⟩ := List.nodup_cons.mp h
    refine ⟨_, by rw [rows_find hcall, if_pos hid, hrow]; rfl, ?_, ?_⟩
    · rw [List.map_cons, List.map_map]
      exact List.nodup_cons.mpr ⟨hnot, hschemaNodup⟩
    · -- The id column is read as the id, every other as its cell.
      intro column hcolumn _
      cases List.mem_cons.mp hcolumn with
      | inl heq =>
        subst heq
        exact List.mem_cons_self
      | inr hmem =>
        have hne : column.name ≠ bytes "id" := fun heq => hnot (List.mem_map.mpr ⟨_, hmem, heq⟩)
        refine List.mem_cons_of_mem _ (List.mem_map.mpr ⟨column, hmem, ?_⟩)
        exact congrArg (Prod.mk column.name) (if_neg hne).symm

/-- An update that sets what the call says. -/
theorem updates {guard : Option (Bytes × Value)} (hnodup : (sets.map Prod.fst).Nodup)
    (hid : bytes "id" ∉ sets.map Prod.fst) :
    Updates (engine schema call sets (Option.map (store sets))) (contents table schema h) table 1
      guard call sets where
  refuses _ hsets := ⟨_, if_pos ⟨rfl, hsets⟩⟩
  prepares := by
    intro db schema' _ hsets _ _
    exact if_neg fun heq => hsets heq.2
  columns _ := rfl
  absent := by
    intro db hcells
    have hrow : db.row = none := by
      simpa [contents] using hcells
    simp [contents, engine, hrow]
  stored := by
    intro db schema' cells hschema hcells _ _
    obtain rfl : schema = schema' := by
      simpa [contents] using hschema
    obtain ⟨cells', hrow, rfl⟩ : ∃ cells', db.row = some cells' ∧
        (fun name => if name = bytes "id" then .integer 1 else cells' name) = cells := by
      simpa [contents] using hcells
    refine ⟨by simp [engine, hrow], fun name => if name = bytes "id" then .integer 1 else
      store sets cells' name, by simp [contents, engine, hrow], ?_, ?_⟩
    · intro column hcolumn v hv
      -- A column that is set holds what is set, since no set names the id.
      have hne : column.name ≠ bytes "id" := by
        rintro heq
        exact hid (List.mem_map.mpr ⟨_, hv, heq⟩)
      show (if column.name = bytes "id" then .integer 1 else store sets cells' column.name) =
        storageOf v
      rw [if_neg hne, store, (Row.get?_ofList hnodup).mpr hv]
    · intro name hname
      -- Any other name keeps its cell.
      have hnone : (Row.ofList sets).get? name = none := by
        refine Option.eq_none_iff_forall_not_mem.mpr fun v hv => ?_
        exact hname (List.mem_map.mpr ⟨_, (Row.get?_ofList hnodup).mp hv, rfl⟩)
      simp only [store, hnone]

end

end OneRow

end SqliteConnection

end CppLaravel.Database
