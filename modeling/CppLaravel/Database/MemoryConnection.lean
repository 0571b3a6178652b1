import CppLaravel.Database.Row
import CppLaravel.Lib.Keyed

/-!
# `CppLaravel.Database.MemoryConnection`: the in-memory backend (`src/database.cpp`)

A store of named tables, each a vector of rows in insertion order, with one id counter for
each table. Every member function holds the connection's mutex from its first line to its
last, so each is one function of the store. A table or a counter that was never touched
reads as empty or `0`, which is how the source treats a missing map entry.
-/

set_option autoImplicit false

namespace CppLaravel.Database

open CppLaravel.Lib

/-- The tables and their id counters. -/
structure MemoryConnection where
  tables : Bytes → List Row
  nextId : Bytes → Int

namespace MemoryConnection

/-- The connection as it is constructed: no tables. -/
def empty : MemoryConnection := ⟨fun _ => [], fun _ => 0⟩

/-- The id column of a row, when it has one: the key of `find`, `update` and `remove`. -/
def rowId (r : Row) : Option Int := r.getInt (bytes "id")

/-- The connection with the rows of one table replaced. -/
def withTable (c : MemoryConnection) (table : Bytes) (rows : List Row) : MemoryConnection :=
  { c with tables := Function.update c.tables table rows }

/-- `insert`: append the row under a new id; the id is returned. -/
def insert (c : MemoryConnection) (table : Bytes) (row : Row) : Int × MemoryConnection :=
  let id := c.nextId table + 1
  let c := { c with nextId := Function.update c.nextId table id }
  (id, c.withTable table (c.tables table ++ [row.set (bytes "id") (.int id)]))

/-- `find`: the first row with the id. -/
def find (c : MemoryConnection) (table : Bytes) (id : Int) : Option Row :=
  getKey rowId (some id) (c.tables table)

/-- `all`: a copy of the table's rows. -/
def all (c : MemoryConnection) (table : Bytes) : List Row := c.tables table

/-- `select` with equalities as the where clauses: the rows with these cells. -/
def select (c : MemoryConnection) (table : Bytes) (wheres : List (Bytes × Value)) : List Row :=
  (c.tables table).filter fun r => wheres.all fun w => (r.get? w.1).any (·.eq w.2)

/-- The table after the first row with the id is overwritten; the id column is kept
whatever the supplied row holds. -/
def overwrite (c : MemoryConnection) (table : Bytes) (id : Int) (row : Row) :
    MemoryConnection :=
  c.withTable table
    (setKey rowId (some id) (row.set (bytes "id") (.int id)) (c.tables table))

/-- `update`: overwrite the row with the id; whether there was one is returned. -/
def update (c : MemoryConnection) (table : Bytes) (id : Int) (row : Row) :
    Bool × MemoryConnection :=
  match c.find table id with
  | none => (false, c)
  | some _ => (true, c.overwrite table id row)

/-- `remove`: erase the rows with the id; whether there was one is returned. -/
def remove (c : MemoryConnection) (table : Bytes) (id : Int) : Bool × MemoryConnection :=
  let rows := eraseKey rowId (some id) (c.tables table)
  (decide (rows.length ≠ (c.tables table).length), c.withTable table rows)

/-- `update_if`: overwrite the row with the id when its guard column holds the guard
value. The comparison and the write are one call under the mutex. -/
def updateIf (c : MemoryConnection) (table : Bytes) (id : Int) (guardCol : Bytes)
    (guardValue : Value) (row : Row) : Bool × MemoryConnection :=
  match c.find table id with
  | none => (false, c)
  | some r =>
    if (r.get? guardCol).any (·.eq guardValue) then (true, c.overwrite table id row)
    else (false, c)

end MemoryConnection

end CppLaravel.Database
