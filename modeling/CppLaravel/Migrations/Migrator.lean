import CppLaravel.Database.MemoryConnection
import CppLaravel.Database.SqliteConnection

/-!
# `CppLaravel.Migrations.Migrator`: the migrator (`include/migration.hpp`)

`Connection` is what the migrator uses of the connection contract; the two backends are
`memoryConnection` and `sqliteConnection`. A migration is its name and what `up` and `down` do
to the connection; neither throws. A state has the connection and the calls of `up` and `down` so
far.
-/

set_option autoImplicit false

namespace CppLaravel.Migrations

open CppLaravel.Database
open CppLaravel.Database.SqliteConnection (Engine Error)

/-- The operations that the migrator calls; `selectEq` is `select` with one equality. -/
structure Connection (κ : Type) where
  statement : κ → Bytes → Except Error κ
  selectEq : κ → Bytes → Bytes → Value → Except Error (List Row)
  insert : κ → Bytes → List (Bytes × Value) → Except Error (Int × κ)

/-- `statement` does nothing. -/
def memoryConnection : Connection MemoryConnection where
  statement c _ := .ok c
  selectEq c table column v := .ok (c.select table [(column, v)])
  insert c table cols := .ok (c.insert table (.ofList cols))

def sqliteConnection {δ : Type} (E : Engine δ) : Connection δ where
  statement := SqliteConnection.statement E
  selectEq db table column v :=
    SqliteConnection.select E db table ⟨[⟨column, .eq, v, []⟩], none, none, none⟩
  insert := SqliteConnection.insert E

/-- `Migration`. -/
structure Migration (κ : Type) where
  name : Bytes
  up : κ → κ
  down : κ → κ

/-- A call of `up` or `down`, by the name of the migration. -/
inductive Event where
  | up (name : Bytes)
  | down (name : Bytes)
deriving DecidableEq

structure State (κ : Type) where
  conn : κ
  log : List Event

section
variable {κ : Type} (C : Connection κ)

/-- `ensure_table`. -/
def ensureTable (conn : κ) : Except Error κ :=
  C.statement conn (bytes "CREATE TABLE IF NOT EXISTS migrations (id INTEGER PRIMARY KEY " ++
    bytes "AUTOINCREMENT, name TEXT NOT NULL DEFAULT '')")

/-- `applied`. -/
def applied (conn : κ) (name : Bytes) : Except Error Bool := do
  let rows ← C.selectEq conn (bytes "migrations") (bytes "name") (.string name)
  return !rows.isEmpty

/-- `record`. -/
def record (conn : κ) (name : Bytes) : Except Error κ := do
  let (_, conn) ← C.insert conn (bytes "migrations") [(bytes "name", .string name)]
  return conn

/-- `forget`. -/
def forget (conn : κ) (name : Bytes) : Except Error κ :=
  C.statement conn (bytes "DELETE FROM migrations WHERE name = '" ++ name ++ bytes "'")

/-- The loop of `run`. What was done before an exception stays done. -/
def runLoop : List (Migration κ) → State κ → State κ × Option Error
  | [], st => (st, none)
  | m :: ms, st =>
    match applied C st.conn m.name with
    | .error e => (st, some e)
    | .ok true => runLoop ms st
    | .ok false =>
      let st := ⟨m.up st.conn, st.log ++ [.up m.name]⟩
      match record C st.conn m.name with
      | .error e => (st, some e)
      | .ok conn => runLoop ms ⟨conn, st.log⟩

/-- The loop of `rollback`, over the migrations from the last on. -/
def rollbackLoop : List (Migration κ) → State κ → State κ × Option Error
  | [], st => (st, none)
  | m :: ms, st =>
    match applied C st.conn m.name with
    | .error e => (st, some e)
    | .ok false => rollbackLoop ms st
    | .ok true =>
      let st := ⟨m.down st.conn, st.log ++ [.down m.name]⟩
      match forget C st.conn m.name with
      | .error e => (st, some e)
      | .ok conn => rollbackLoop ms ⟨conn, st.log⟩

/-- `run`. -/
def run (migrations : List (Migration κ)) (st : State κ) : State κ × Option Error :=
  match ensureTable C st.conn with
  | .error e => (st, some e)
  | .ok conn => runLoop C migrations ⟨conn, st.log⟩

/-- `rollback`. -/
def rollback (migrations : List (Migration κ)) (st : State κ) : State κ × Option Error :=
  match ensureTable C st.conn with
  | .error e => (st, some e)
  | .ok conn => rollbackLoop C migrations.reverse ⟨conn, st.log⟩

/-- A call of the migrator. -/
inductive Call (κ : Type) where
  | run (migrations : List (Migration κ))
  | rollback (migrations : List (Migration κ))

def Call.migrations : Call κ → List (Migration κ)
  | run ms => ms
  | rollback ms => ms

def Call.step (call : Call κ) (st : State κ) : State κ × Option Error :=
  match call with
  | run ms => Migrations.run C ms st
  | rollback ms => Migrations.rollback C ms st

/-- Calls one after the other, by a caller that catches what is thrown. -/
def runCalls (calls : List (Call κ)) (st : State κ) : State κ :=
  calls.foldl (fun st call => (call.step C st).1) st

end

end CppLaravel.Migrations
