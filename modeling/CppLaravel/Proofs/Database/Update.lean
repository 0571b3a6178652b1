import CppLaravel.Proofs.Database.Documented
import CppLaravel.Proofs.Database.MemoryIds

/-!
# `CppLaravel.Proofs.Database.Update`: updates on the two backends

`update` of the memory backend replaces the row, `update` of SQLite sets the columns that are
named. `update_agrees` says when the two cannot be told apart: the new row names every column,
and each of its cells survives its column. A row that names no column is refused by SQLite alone.
-/

set_option autoImplicit false

namespace CppLaravel.Database

namespace MemoryConnection

/-- `update`, or `update_if` with a guard. -/
def guardedUpdate (c : MemoryConnection) (table : Bytes) (id : Int) (row : Row) :
    Option (Bytes × Value) → Bool × MemoryConnection
  | none => c.update table id row
  | some (guardCol, guardValue) => c.updateIf table id guardCol guardValue row

section
variable {c : MemoryConnection} {table : Bytes} {id : Int} {guard : Option (Bytes × Value)}

theorem guardedUpdate_of_find_none (h : c.find table id = none) (row : Row) :
    c.guardedUpdate table id row guard = (false, c) := by
  rcases guard with _ | ⟨g, v⟩
  · rw [guardedUpdate, update, h]
  · rw [guardedUpdate, updateIf, h]

theorem guardedUpdate_of_find {m : Row} (h : c.find table id = some m)
    (hguard : ∀ g ∈ guard, (m.get? g.1).any (·.eq g.2) = true) (row : Row) :
    c.guardedUpdate table id row guard = (true, c.overwrite table id row) := by
  rcases guard with _ | ⟨g, v⟩
  · rw [guardedUpdate, update, h]
  · have hmatch := hguard (g, v) rfl
    rw [guardedUpdate, updateIf, h]
    exact if_pos hmatch

end

end MemoryConnection

namespace SqliteConnection

section
variable {δ : Type} (E : Engine δ) (V : Contents δ)

/-- `update`, or `update_if` with a guard. -/
def guardedUpdate (db : δ) (table : Bytes) (id : Int) (cols : List (Bytes × Value)) :
    Option (Bytes × Value) → Except Error (Bool × δ)
  | none => update E db table id cols
  | some (guardCol, guardValue) => updateIf E db table id guardCol guardValue cols

/-- What the two backends find: no row, or rows that every column reads as the same. -/
def Agree (schema : List Column) : Option Row → Option Row → Prop
  | none, none => True
  | some m, some s => ∀ column ∈ withId schema, ∃ v w, m.get? column.name = some v ∧
      s.get? column.name = some w ∧ sameReading column.kind v w = true
  | _, _ => False

/-- Two operations return the same, and the row with the id is then the same. -/
def SameResult (schema : List Column) (table : Bytes) (id : Int)
    (memory : Bool × MemoryConnection) (sqlite : Except Error (Bool × δ)) : Prop :=
  ∃ db' found, sqlite = .ok (memory.1, db') ∧ find E db' table id = .ok found ∧
    Agree schema (memory.2.find table id) found

/-- A cell that a column of the kind stores, and then reads as the same value. -/
def Survives (kind : ColumnKind) (v : Value) : Prop :=
  storageOf v ≠ .null ∧ sameReading kind v (readColumn (V.affinity kind (storageOf v))) = true

/-- Every column is set, to a cell that survives it, and there is one. -/
structure SetsAll (schema : List Column) (sets : List (Bytes × Value)) : Prop where
  nonempty : sets ≠ []
  survives : ∀ column ∈ schema, ∃ v, (column.name, v) ∈ sets ∧ Survives V column.kind v

end

section
variable {δ : Type} {E : Engine δ} {V : Contents δ} {db : δ} {table : Bytes} {id : Int}
  {cols : List (Bytes × Value)} {guard : Option (Bytes × Value)} {schema : List Column}

theorem guardedUpdate_eq : guardedUpdate E db table id cols guard = (do
    let s ← (updateCall table id cols guard).statement
    match runStatement E db s with
    | none => return (false, db)
    | some o => return (decide (E.changes o.db > 0), o.db)) := by
  rcases guard with _ | ⟨g, v⟩ <;> rfl

theorem names_updateCall : (updateCall table id cols guard).names =
    (withoutId cols).map Prod.fst ++ table :: guard.toList.map Prod.fst := by
  rcases guard with _ | ⟨g, v⟩ <;> rfl

theorem guardedUpdate_of_not_safe (h : ¬ Safe (updateCall table id cols guard).names) :
    ∃ what, guardedUpdate E db table id cols guard = .error (.invalidArgument what) := by
  obtain ⟨what, herror⟩ := error_of_not_safe h
  exact ⟨what, by rw [guardedUpdate_eq, herror]; rfl⟩

theorem guardedUpdate_of_safe (h : Safe (updateCall table id cols guard).names) :
    guardedUpdate E db table id cols guard =
      match E.prepareError db (updateCall table id cols guard).text with
      | some _ => .ok (false, db)
      | none =>
        let o := E.run db (updateCall table id cols guard).text
          (updateCall table id cols guard).bindings
        .ok (decide (E.changes o.db > 0), o.db) := by
  rw [guardedUpdate_eq, ok_of_safe h]
  show (match runStatement E db (spelled (updateCall table id cols guard).tokens) with
    | none => Except.ok (false, db)
    | some o => .ok (decide (E.changes o.db > 0), o.db)) = _
  rw [runStatement_spelled h]
  cases E.prepareError db (updateCall table id cols guard).text <;> rfl

/-- The cells that are set are those of the row, without the id. -/
theorem mem_withoutId {row : Row} (hcols : Enumerates row cols) {name : Bytes} {v : Value} :
    (name, v) ∈ withoutId cols ↔ name ≠ bytes "id" ∧ row.get? name = some v := by
  rw [withoutId, List.mem_filter, hcols.mem_iff, and_comm, decide_eq_true_eq]

theorem name_ne_id (hschema : V.columns db table = some schema) {column : Column}
    (h : column ∈ schema) : column.name ≠ bytes "id" := by
  obtain ⟨hid, -⟩ := List.nodup_cons.mp (V.nodup hschema)
  have hmem : column.name ∈ schema.map Column.name := List.mem_map_of_mem h
  exact fun heq => hid (heq ▸ hmem)

/-! ### When they agree -/

variable {row : Row}

theorem isSqlIdentifier_id : isSqlIdentifier (bytes "id") = true := by decide

/-- A row that sets every column is found as the memory backend stores it. -/
theorem agree_of_setsAll (hcols : Enumerates row cols) (h : SetsAll V schema (withoutId cols))
    {cells cells' : Bytes → Storage}
    (hid : cells' (bytes "id") = .integer id)
    (hstores : Stores V schema (withoutId cols) cells cells') {found : Row}
    (hfound : ∀ column ∈ withId schema,
      found.get? column.name = some (readColumn (cells' column.name))) :
    Agree schema (some (row.set (bytes "id") (.int id))) (some found) := by
  intro column hcolumn
  rw [hfound column hcolumn]
  cases List.mem_cons.mp hcolumn with
  | inl heq =>
    subst heq
    exact ⟨.int id, _, by rw [Row.get?_set, if_pos rfl], rfl, by rw [hid]; simp [sameReading,
      readColumn]⟩
  | inr hmem =>
    obtain ⟨v, hv, -, hsame⟩ := h.survives column hmem
    obtain ⟨hne, hget⟩ := (mem_withoutId hcols).mp hv
    rw [← hstores.1 column hmem v hv] at hsame
    exact ⟨v, _, by rw [Row.get?_set, if_neg hne, hget], rfl, hsame⟩

section
variable {c : MemoryConnection} (hfind : Finds E V table)
  (hupdates : Updates E V table id guard (updateCall table id cols guard) (withoutId cols))
  (hschema : V.columns db table = some schema) (hcols : Enumerates row cols)
  (hnames : Has schema ((withoutId cols).map Prod.fst))
  (hguards : Has (withId schema) (guard.toList.map Prod.fst))
  (hstored : (c.find table id).isSome = (V.cells db table id).isSome)
include hfind hupdates hschema hnames hguards hstored

/-- Without a row nothing is updated. -/
theorem sameResult_of_cells_none (hsafe : Safe (updateCall table id cols guard).names)
    (hcells : V.cells db table id = none) : SameResult E schema table id
      (c.guardedUpdate table id row guard) (guardedUpdate E db table id cols guard) := by
  have htable : isSqlIdentifier table = true := by
    rw [names_updateCall, safe_append, safe_cons] at hsafe
    exact hsafe.2.1
  have hnone : c.find table id = none := by
    rw [hcells] at hstored
    simpa using hstored
  rw [MemoryConnection.guardedUpdate_of_find_none hnone, guardedUpdate_of_safe hsafe]
  have hagree : Agree schema (c.find table id) none := by
    rw [hnone]
    trivial
  by_cases hempty : withoutId cols = []
  · obtain ⟨message, hrefused⟩ := hupdates.refuses db hempty
    rw [hrefused]
    exact ⟨db, none, rfl, find_of_cells_none hfind htable hschema hcells, hagree⟩
  · rw [hupdates.prepares hschema hempty hnames hguards]
    obtain ⟨hcells', hchanges⟩ := hupdates.absent hcells
    have hschema' := (hupdates.columns db).trans hschema
    refine ⟨_, none, ?_, find_of_cells_none hfind htable hschema' hcells', hagree⟩
    simp [hchanges]

variable {cells : Bytes → Storage} (hcells : V.cells db table id = some cells)
  (hguardM : ∀ g ∈ guard, ∀ m, c.find table id = some m → (m.get? g.1).any (·.eq g.2) = true)
  (hguard : Matching V schema guard cells)
include hcells hguardM hguard

/-- With every column set the rows are the same. -/
theorem sameResult_of_setsAll (hcols : Enumerates row cols)
    (hsafe : Safe (updateCall table id cols guard).names)
    (hall : SetsAll V schema (withoutId cols)) : SameResult E schema table id
      (c.guardedUpdate table id row guard) (guardedUpdate E db table id cols guard) := by
  have hnamesSafe := hsafe
  rw [names_updateCall, safe_append, safe_cons] at hnamesSafe
  obtain ⟨hcolsSafe, htable, -⟩ := hnamesSafe
  obtain ⟨m, hm⟩ : ∃ m, c.find table id = some m := by
    rw [hcells] at hstored
    exact Option.isSome_iff_exists.mp hstored
  rw [MemoryConnection.guardedUpdate_of_find hm fun g hg => hguardM g hg m hm,
    guardedUpdate_of_safe hsafe, hupdates.prepares hschema hall.nonempty hnames hguards]
  -- Every cell that is set is the one that survives its column.
  have hnull : ∀ set ∈ withoutId cols, storageOf set.2 ≠ .null := by
    rintro ⟨name, v⟩ hset
    obtain ⟨column, hcolumn, rfl⟩ := hnames name (List.mem_map_of_mem hset)
    obtain ⟨v', hv', hstorage, -⟩ := hall.survives column hcolumn
    have hsame : v = v' := by
      have h := ((mem_withoutId hcols).mp hset).2
      rw [((mem_withoutId hcols).mp hv').2, Option.some_inj] at h
      exact h.symm
    exact hsame ▸ hstorage
  obtain ⟨hchanges, cells', hcells', hstores⟩ := hupdates.stored hschema hcells hguard hnull
  have hschema' := (hupdates.columns db).trans hschema
  have hschemaSafe : ∀ column ∈ withId schema, isSqlIdentifier column.name = true := by
    refine List.forall_mem_cons.mpr ⟨isSqlIdentifier_id, fun column hcolumn => ?_⟩
    obtain ⟨v, hv, -⟩ := hall.survives column hcolumn
    exact hcolsSafe _ (List.mem_map_of_mem hv)
  obtain ⟨found, hfound, hget⟩ := find_of_cells hfind htable hschema' hcells'
  refine ⟨_, some found, ?_, hfound, ?_⟩
  · simp [hchanges]
  · rw [MemoryConnection.find_overwrite hm]
    exact agree_of_setsAll hcols hall (V.cells_id hcells') hstores fun column hcolumn =>
      hget column hcolumn (hschemaSafe column hcolumn)

/-- Rows that are the same have every column set. -/
theorem setsAll_of_sameResult (hcols : Enumerates row cols)
    (hnull : ∀ set ∈ withoutId cols, storageOf set.2 ≠ .null)
    (hsafe : Safe (updateCall table id cols guard).names)
    (h : SameResult E schema table id (c.guardedUpdate table id row guard)
      (guardedUpdate E db table id cols guard)) : SetsAll V schema (withoutId cols) := by
  have hnamesSafe := hsafe
  rw [names_updateCall, safe_append, safe_cons] at hnamesSafe
  obtain ⟨hcolsSafe, htable, -⟩ := hnamesSafe
  obtain ⟨m, hm⟩ : ∃ m, c.find table id = some m := by
    rw [hcells] at hstored
    exact Option.isSome_iff_exists.mp hstored
  rw [MemoryConnection.guardedUpdate_of_find hm fun g hg => hguardM g hg m hm,
    guardedUpdate_of_safe hsafe] at h
  have hempty : withoutId cols ≠ [] := by
    intro hempty
    obtain ⟨message, hrefused⟩ := hupdates.refuses db hempty
    obtain ⟨db', found, hresult, -⟩ := h
    rw [hrefused] at hresult
    cases hresult
  rw [hupdates.prepares hschema hempty hnames hguards] at h
  obtain ⟨hchanges, cells', hcells', hstores⟩ := hupdates.stored hschema hcells hguard hnull
  have hschema' := (hupdates.columns db).trans hschema
  obtain ⟨db', found, hresult, hfound, hagree⟩ := h
  simp only [Except.ok.injEq, Prod.mk.injEq] at hresult
  obtain ⟨-, rfl⟩ := hresult
  rw [MemoryConnection.find_overwrite hm] at hagree
  cases found with
  | none => cases hagree
  | some found =>
    -- The memory backend has only what the row names.
    have hcovers : ∀ column ∈ schema, ∃ v w, (column.name, v) ∈ withoutId cols ∧
        found.get? column.name = some w ∧ sameReading column.kind v w = true := by
      intro column hcolumn
      obtain ⟨v, w, hv, hw, hsame⟩ := hagree column (List.mem_cons_of_mem _ hcolumn)
      rw [Row.get?_set, if_neg (name_ne_id hschema hcolumn)] at hv
      exact ⟨v, w, (mem_withoutId hcols).mpr ⟨name_ne_id hschema hcolumn, hv⟩, hw, hsame⟩
    obtain ⟨found', hfound', hget⟩ := find_of_cells hfind htable hschema' hcells'
    rw [hfound'] at hfound
    obtain rfl := Option.some.inj (Except.ok.inj hfound)
    refine ⟨hempty, fun column hcolumn => ?_⟩
    obtain ⟨v, w, hv, hw, hsame⟩ := hcovers column hcolumn
    refine ⟨v, hv, hnull _ hv, ?_⟩
    have hsafe : isSqlIdentifier column.name = true := hcolsSafe _ (List.mem_map_of_mem hv)
    rw [hget column (List.mem_cons_of_mem _ hcolumn) hsafe, Option.some_inj] at hw
    rw [← hstores.1 column hcolumn v hv, hw]
    exact hsame

end

/-- An update of the same row, with the same guard if there is one, cannot be told apart if the
new row has names that may stand in a text and, where there is a row with the id, sets every
column to a cell that survives it. Without a NaN among the cells, it can be told apart
otherwise. -/
theorem update_agrees {c : MemoryConnection} (hfind : Finds E V table)
    (hupdates : Updates E V table id guard (updateCall table id cols guard) (withoutId cols))
    (hschema : V.columns db table = some schema) (hcols : Enumerates row cols)
    (hnames : Has schema ((withoutId cols).map Prod.fst))
    (hguards : Has (withId schema) (guard.toList.map Prod.fst))
    (hstored : (c.find table id).isSome = (V.cells db table id).isSome)
    (hguardM : ∀ g ∈ guard, ∀ m, c.find table id = some m → (m.get? g.1).any (·.eq g.2) = true)
    (hguard : ∀ cells, V.cells db table id = some cells → Matching V schema guard cells) :
    let same := SameResult E schema table id (c.guardedUpdate table id row guard)
      (guardedUpdate E db table id cols guard)
    let condition := Safe (updateCall table id cols guard).names ∧
      ∀ cells, V.cells db table id = some cells → SetsAll V schema (withoutId cols)
    (condition → same) ∧
      ((∀ set ∈ withoutId cols, storageOf set.2 ≠ .null) → same → condition) := by
  intro same condition
  constructor
  · rintro ⟨hsafe, hall⟩
    cases hcells : V.cells db table id with
    | none =>
      exact sameResult_of_cells_none hfind hupdates hschema hnames hguards hstored hsafe hcells
    | some cells =>
      exact sameResult_of_setsAll hfind hupdates hschema hnames hguards hstored hcells hguardM
        (hguard cells hcells) hcols hsafe (hall cells hcells)
  · intro hnull hsame
    -- With an unsafe name SQLite is not even asked, and the results differ.
    have hsafe : Safe (updateCall table id cols guard).names := by
      by_contra hunsafe
      obtain ⟨db', found, hresult, -⟩ := hsame
      obtain ⟨what, herror⟩ := guardedUpdate_of_not_safe hunsafe
      rw [herror] at hresult
      cases hresult
    refine ⟨hsafe, fun cells hcells => ?_⟩
    exact setsAll_of_sameResult hfind hupdates hschema hnames hguards hstored hcells hguardM
      (hguard cells hcells) hcols hnull hsafe hsame

/-! ### The cells of a column's own type -/

section
variable (hV : Affinity V)
include hV

theorem survives_int (i : Int) : Survives V .integer (.int i) := by
  refine ⟨fun h => (by cases h), ?_⟩
  show sameReading .integer (.int i) (readColumn (V.affinity .integer (.integer i))) = true
  rw [hV.integer]
  simp [sameReading, readColumn]

theorem survives_bool (b : Bool) : Survives V .boolean (.bool b) := by
  refine ⟨fun h => (by cases h), ?_⟩
  show sameReading .boolean (.bool b)
    (readColumn (V.affinity .boolean (.integer (if b then 1 else 0)))) = true
  rw [hV.boolean]
  cases b <;> rfl

/-- A text is cut at its first NUL. -/
theorem survives_string (s : Bytes) : Survives V .string (.string s) ↔ 0 ∉ s := by
  have hread : readColumn (V.affinity .string (storageOf (.string s))) = .string (cStr s) := by
    show readColumn (V.affinity .string (.text (cStr s))) = _
    rw [hV.string, readColumn, cStr_cStr]
  have hnull : storageOf (.string s) ≠ .null := fun h => (by cases h)
  have hsame : sameReading .string (.string s) (.string (cStr s)) = true ↔ s = cStr s :=
    decide_eq_true_iff
  rw [Survives, hread, hsame, ← cStr_eq_self_iff, and_iff_right hnull, eq_comm]

theorem survives_double (d : Double) : Survives V .real (.double d) ↔ d.isNan = false := by
  cases hnan : d.isNan with
  | true => simp [Survives, storageOf, bindValue, Binding.storage, hnan]
  | false =>
    obtain ⟨d', hd', heq⟩ := hV.real d hnan
    have hstorage : storageOf (.double d) = .real d := by
      simp [storageOf, bindValue, Binding.storage, hnan]
    simp [Survives, hstorage, hd', readColumn, sameReading, Value.asDouble, heq]

end

/-- A row with a number and a text, replaced by another, with the number as the guard. -/
theorem update_agrees_applies :
    let schema : List Column := [⟨bytes "n", .integer⟩, ⟨bytes "s", .string⟩]
    let stored := [(bytes "n", .int 1), (bytes "s", .string (bytes "a"))]
    let cols := [(bytes "n", .int 2), (bytes "s", .string (bytes "b"))]
    let guard := some (bytes "n", Value.int 1)
    let E := OneRow.engine schema (updateCall (bytes "t") 1 cols guard) cols
      (Option.map (OneRow.store cols))
    let c := (MemoryConnection.empty.insert (bytes "t") (.ofList stored)).2
    let db : OneRow := ⟨some (OneRow.store stored fun _ => .null), 0⟩
    SameResult E schema (bytes "t") 1 (c.guardedUpdate (bytes "t") 1 (.ofList cols) guard)
      (guardedUpdate E db (bytes "t") 1 cols guard) := by
  intro schema stored cols guard E c db
  have hnodup : ((withId schema).map Column.name).Nodup := by decide
  let V := OneRow.contents (bytes "t") schema hnodup
  have hrow : c.find (bytes "t") 1 = some ((Row.ofList stored).set (bytes "id") (.int 1)) := rfl
  have hall : SetsAll V schema cols := by
    refine ⟨by decide, ?_⟩
    rw [List.forall_mem_cons, List.forall_mem_singleton]
    exact ⟨⟨_, List.mem_cons_self, survives_int OneRow.affinity 2⟩, ⟨_, List.mem_cons_of_mem _
      List.mem_cons_self, (survives_string OneRow.affinity _).mpr (by decide)⟩⟩
  have hguard : Matching V schema guard fun name =>
      if name = bytes "id" then .integer 1 else OneRow.store stored (fun _ => .null) name := by
    intro g hg
    obtain rfl := Option.some.inj hg
    exact ⟨⟨bytes "n", .integer⟩, by simp [withId, schema], rfl, rfl⟩
  refine (update_agrees (V := V) (OneRow.finds (by decide))
    (OneRow.updates (by decide) (by decide)) (OneRow.columns_contents _)
    (enumerates_ofList (by decide)) (by decide) (by decide) ?_ ?_ ?_).1 ⟨?_, ?_⟩
  · rw [hrow, OneRow.cells_contents]
    rfl
  · intro g hg m hm
    obtain rfl := Option.some.inj hg
    rw [hrow, Option.some_inj] at hm
    rw [← hm]
    rfl
  · intro cells hcells
    rw [OneRow.cells_contents, Option.some_inj] at hcells
    exact hcells ▸ hguard
  · show ∀ n ∈ [bytes "n", bytes "s", bytes "t", bytes "n"], isSqlIdentifier n = true
    decide
  · exact fun _ _ => hall

/-- A row of two numbers, of which only one is named: the backends agree on the row before, and
not on the row after. -/
theorem partial_update_differs :
    let schema : List Column := [⟨bytes "a", .integer⟩, ⟨bytes "b", .integer⟩]
    let stored := [(bytes "a", Value.int 1), (bytes "b", .int 2)]
    let cols := [(bytes "a", Value.int 5)]
    let E := OneRow.engine schema (Call.update (bytes "t") 1 cols) cols
      (Option.map (OneRow.store cols))
    let c := (MemoryConnection.empty.insert (bytes "t") (.ofList stored)).2
    let db : OneRow := ⟨some (OneRow.store stored fun _ => .null), 0⟩
    (∃ found, find E db (bytes "t") 1 = .ok found ∧ Agree schema (c.find (bytes "t") 1) found) ∧
    ¬ SameResult E schema (bytes "t") 1 (c.update (bytes "t") 1 (.ofList cols))
      (update E db (bytes "t") 1 cols) := by
  intro schema stored cols E c db
  have hnodup : ((withId schema).map Column.name).Nodup := by decide
  have hfinds : Finds E (OneRow.contents (bytes "t") schema hnodup) (bytes "t") :=
    OneRow.finds (by decide)
  constructor
  · -- Before the update both backends find both numbers.
    obtain ⟨found, hfound, hget⟩ := find_of_cells hfinds (by decide)
      (OneRow.columns_contents db) (OneRow.cells_contents _ _)
    refine ⟨some found, hfound, ?_⟩
    have hagree : ∀ column ∈ withId schema, ∃ v w,
        ((Row.ofList stored).set (bytes "id") (.int 1)).get? column.name = some v ∧
        some (readColumn (if column.name = bytes "id" then .integer 1
          else OneRow.store stored (fun _ => .null) column.name)) = some w ∧
        sameReading column.kind v w = true := by
      rw [withId, List.forall_mem_cons, List.forall_mem_cons, List.forall_mem_singleton]
      exact ⟨⟨_, _, rfl, rfl, rfl⟩, ⟨_, _, rfl, rfl, rfl⟩, ⟨_, _, rfl, rfl, rfl⟩⟩
    have hsafe : ∀ column ∈ withId schema, isSqlIdentifier column.name = true := by decide
    intro column hcolumn
    rw [hget column hcolumn (hsafe column hcolumn)]
    exact hagree column hcolumn
  · rintro ⟨db', found, -, -, hagree⟩
    cases found with
    | none => cases hagree
    | some found =>
      -- The memory backend replaces the row, so the other number is gone.
      obtain ⟨v, w, hv, -⟩ := hagree ⟨bytes "b", .integer⟩ (by simp [withId, schema])
      cases hv

end

end SqliteConnection

end CppLaravel.Database
