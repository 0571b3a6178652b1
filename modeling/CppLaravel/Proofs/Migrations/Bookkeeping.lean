import CppLaravel.Proofs.Database.MemoryIds
import CppLaravel.Proofs.Database.SqlText
import CppLaravel.Proofs.Migrations.History

/-!
# `CppLaravel.Proofs.Migrations.Bookkeeping`: the names in the table of a backend

`Bookkeeping` is what a connection has to do for the migrator: keep the names that are recorded,
and lose those that are forgotten. A name is recorded under its key. The memory backend forgets no
name at all, since its `statement` does nothing; SQLite forgets a name whose text has no quote,
and records what stands before the first NUL.
-/

set_option autoImplicit false

namespace CppLaravel.Migrations

open CppLaravel.Database
open CppLaravel.Database.SqliteConnection (Engine Error cStr_eq_self_iff)

/-- The names that a connection has recorded, and which of them it can forget. -/
structure Bookkeeping {κ : Type} (C : Connection κ) where
  /-- What a name is recorded under. -/
  key : Bytes → Bytes
  /-- There is no table of this name yet, or it is the one of the migrator. -/
  Usable : κ → Prop
  Ready : κ → Prop
  recorded : κ → Bytes → Bool
  Forgettable : Bytes → Prop
  usable_of_ready : ∀ {conn}, Ready conn → Usable conn
  ensure : ∀ {conn}, Usable conn → ∃ conn', ensureTable C conn = .ok conn' ∧ Ready conn' ∧
    ∀ k, recorded conn' k = recorded conn k
  applied : ∀ {conn} name, Ready conn → applied C conn name = .ok (recorded conn (key name))
  record : ∀ {conn} name, Ready conn → ∃ conn', record C conn name = .ok conn' ∧ Ready conn' ∧
    ∀ k, recorded conn' k = (decide (k = key name) || recorded conn k)
  forget : ∀ {conn} name, Ready conn → Forgettable name →
    ∃ conn', forget C conn name = .ok conn' ∧ Ready conn' ∧
      ∀ k, recorded conn' k = (!decide (k = key name) && recorded conn k)

/-! ### The memory backend -/

/-- Whether there is a row with the name. -/
def memoryRecorded (c : MemoryConnection) (name : Bytes) : Bool :=
  !(c.select (bytes "migrations") [(bytes "name", .string name)]).isEmpty

theorem memoryRecorded_iff {c : MemoryConnection} {name : Bytes} :
    memoryRecorded c name = true ↔
      ∃ r ∈ c.tables (bytes "migrations"), r.get? (bytes "name") = some (.string name) := by
  rw [memoryRecorded, Bool.not_eq_true', List.isEmpty_eq_false_iff_exists_mem]
  refine exists_congr fun r => ?_
  rw [MemoryConnection.select, List.mem_filter, List.all_cons, List.all_nil, Bool.and_true,
    Value.any_eq_string]

theorem memoryRecorded_insert (c : MemoryConnection) (name k : Bytes) :
    memoryRecorded (c.insert (bytes "migrations") (.ofList [(bytes "name", .string name)])).2 k =
      (decide (k = name) || memoryRecorded c k) := by
  have hrow : ∀ id, ((Row.ofList [(bytes "name", .string name)]).set (bytes "id") (.int id)).get?
    (bytes "name") = some (.string name) := fun _ => rfl
  rw [Bool.eq_iff_iff, Bool.or_eq_true, decide_eq_true_eq, memoryRecorded_iff, memoryRecorded_iff,
    MemoryConnection.tables_insert]
  constructor
  · rintro ⟨r, hr, hname⟩
    rw [List.mem_append, List.mem_singleton] at hr
    cases hr with
    | inl hr => exact .inr ⟨r, hr, hname⟩
    | inr hr =>
      rw [hr, hrow] at hname
      exact .inl (Value.string.inj (Option.some.inj hname)).symm
  · rintro (rfl | ⟨r, hr, hname⟩)
    · exact ⟨_, List.mem_append_right _ (List.mem_singleton_self _), hrow _⟩
    · exact ⟨r, List.mem_append_left _ hr, hname⟩

/-- The memory backend keeps every name. -/
def memoryBookkeeping : Bookkeeping memoryConnection where
  key := id
  Usable _ := True
  Ready _ := True
  recorded := memoryRecorded
  Forgettable _ := False
  usable_of_ready h := h
  ensure _ := ⟨_, rfl, trivial, fun _ => rfl⟩
  applied _ _ := rfl
  record _ _ := ⟨_, rfl, trivial, memoryRecorded_insert _ _⟩
  forget _ _ h := h.elim

/-! ### SQLite -/

section
variable {δ : Type} (E : Engine δ)

/-- The text that makes the table. -/
def createText : Bytes :=
  bytes "CREATE TABLE IF NOT EXISTS migrations (id INTEGER PRIMARY KEY " ++
    bytes "AUTOINCREMENT, name TEXT NOT NULL DEFAULT '')"

/-- What SQLite documents of the four texts of the migrator: `recorded` are the names in the
table. -/
structure MigrationsTable where
  Usable : δ → Prop
  Ready : δ → Prop
  recorded : δ → Bytes → Bool
  usable_of_ready : ∀ {db}, Ready db → Usable db
  create : ∀ {db}, Usable db → ∃ db',
    E.exec db createText = (none, db') ∧ Ready db' ∧ ∀ k, recorded db' k = recorded db k
  select : ∀ {db} k, Ready db →
    E.prepareError db (bytes "SELECT * FROM migrations WHERE name = ?") = none ∧
    (E.run db (bytes "SELECT * FROM migrations WHERE name = ?") [(1, .text k)]).rows.isEmpty =
      !recorded db k
  insert : ∀ {db} k, Ready db → ∃ rows db',
    E.prepareError db (bytes "INSERT INTO migrations (name) VALUES (?)") = none ∧
    E.run db (bytes "INSERT INTO migrations (name) VALUES (?)") [(1, .text k)] =
      ⟨rows, none, db'⟩ ∧ Ready db' ∧
    ∀ k', recorded db' k' = (decide (k' = k) || recorded db k')
  delete : ∀ {db} k, Ready db → 0 ∉ k → 39 ∉ k → ∃ db',
    E.exec db (bytes "DELETE FROM migrations WHERE name = '" ++ k ++ bytes "'") = (none, db') ∧
    Ready db' ∧ ∀ k', recorded db' k' = (!decide (k' = k) && recorded db k')

variable {E}

/-- SQLite keeps names up to a NUL, and forgets those that need no quoting. -/
def sqliteBookkeeping (T : MigrationsTable E) : Bookkeeping (sqliteConnection E) where
  key := cStr
  Usable := T.Usable
  Ready := T.Ready
  recorded := T.recorded
  Forgettable name := 0 ∉ name ∧ 39 ∉ name
  usable_of_ready := T.usable_of_ready
  ensure := by
    intro db h
    obtain ⟨db', hexec, hready, hsame⟩ := T.create h
    refine ⟨db', ?_, hready, hsame⟩
    show SqliteConnection.statement E db createText = _
    rw [SqliteConnection.statement, cStr_eq_self_iff.mpr (by decide), hexec]
  applied := by
    intro db name h
    obtain ⟨hprepare, hrows⟩ := T.select (cStr name) h
    have hstatement : SqliteConnection.selectStatement (bytes "migrations")
        ⟨[⟨bytes "name", .eq, .string name, []⟩], none, none, none⟩ =
      .ok ⟨bytes "SELECT * FROM migrations WHERE name = ?", [(1, .string name)]⟩ := rfl
    have htext : cStr (bytes "SELECT * FROM migrations WHERE name = ?") =
      bytes "SELECT * FROM migrations WHERE name = ?" := by decide
    have hselect : (sqliteConnection E).selectEq db (bytes "migrations") (bytes "name")
        (.string name) = .ok ((E.run db (bytes "SELECT * FROM migrations WHERE name = ?")
          [(1, .text (cStr name))]).rows.map SqliteConnection.readRow) := by
      show SqliteConnection.select E db _ _ = _
      rw [SqliteConnection.select, hstatement]
      simp only [bind, Except.bind, SqliteConnection.runStatement, htext, hprepare]
      rfl
    rw [Migrations.applied, hselect]
    show Except.ok (!(List.map SqliteConnection.readRow _).isEmpty) = _
    rw [List.isEmpty_map, hrows, Bool.not_not]
  record := by
    intro db name h
    obtain ⟨rows, db', hprepare, hrun, hready, hrecorded⟩ := T.insert (cStr name) h
    refine ⟨db', ?_, hready, hrecorded⟩
    have hstatement : SqliteConnection.insertStatement (bytes "migrations")
        [(bytes "name", .string name)] =
      .ok ⟨bytes "INSERT INTO migrations (name) VALUES (?)", [(1, .string name)]⟩ := rfl
    have htext : cStr (bytes "INSERT INTO migrations (name) VALUES (?)") =
      bytes "INSERT INTO migrations (name) VALUES (?)" := by decide
    have hbindings : ([(1, .string name)] : List (Nat × Value)).map (fun b =>
      (b.1, SqliteConnection.bindValue b.2)) = [(1, .text (cStr name))] := rfl
    have hinsert : (sqliteConnection E).insert db (bytes "migrations")
        [(bytes "name", .string name)] = .ok (E.lastInsertRowid db', db') := by
      show SqliteConnection.insert E db _ _ = _
      rw [SqliteConnection.insert, hstatement]
      simp only [bind, Except.bind, htext, hprepare, hbindings, hrun]
    rw [Migrations.record, hinsert]
    rfl
  forget := by
    intro db name h hname
    obtain ⟨db', hexec, hready, hforget⟩ := T.delete name h hname.1 hname.2
    refine ⟨db', ?_, hready, ?_⟩
    · have htext : 0 ∉ bytes "DELETE FROM migrations WHERE name = '" ++ name ++ bytes "'" := by
        have hfixed : 0 ∉ bytes "DELETE FROM migrations WHERE name = '" ∧ 0 ∉ bytes "'" := by
          decide
        simp [hfixed, hname.1]
      show SqliteConnection.statement E db _ = _
      rw [SqliteConnection.statement, cStr_eq_self_iff.mpr htext, hexec]
    · rw [cStr_eq_self_iff.mpr hname.1]
      exact hforget

end

end CppLaravel.Migrations
