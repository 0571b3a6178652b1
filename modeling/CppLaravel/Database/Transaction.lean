import CppLaravel.Database.Select
import CppLaravel.Lib.Procedure

/-!
# `CppLaravel.Database.Transaction`: transactions (`include/database.hpp`, `src/database.cpp`)

A `Connection` is the in-memory store with the copy of it that `begin` takes. The function that
`transaction` runs is a procedure over the calls of the connection; it may throw, and it decides
what to call by what the calls answered. `begin`, `commit` and `rollback` are not among its calls.
-/

set_option autoImplicit false

namespace CppLaravel.Database

open CppLaravel.Lib

/-- A call of a connection. -/
inductive Operation
  | insert (table : Bytes) (row : Row)
  | find (table : Bytes) (id : Int)
  | all (table : Bytes)
  | select (table : Bytes) (query : Query)
  | count (table : Bytes) (query : Query)
  | update (table : Bytes) (id : Int) (row : Row)
  | updateIf (table : Bytes) (id : Int) (guardCol : Bytes) (guardValue : Value) (row : Row)
  | remove (table : Bytes) (id : Int)

namespace Operation

/-- What a call answers. A selection that throws answers nothing: the procedure may catch it. -/
def Answer : Operation → Type
  | insert _ _ => Int
  | find _ _ => Option Row
  | all _ => List Row
  | select _ _ => Option (List Row)
  | count _ _ => Nat
  | update _ _ _ => Bool
  | updateIf _ _ _ _ _ => Bool
  | remove _ _ => Bool

/-- A call, on the store. -/
def perform : (op : Operation) → MemoryConnection → op.Answer × MemoryConnection
  | insert table row, s => s.insert table row
  | find table id, s => (s.find table id, s)
  | all table, s => (s.all table, s)
  | select table query, s => (s.selectQuery table query, s)
  | count table query, s => (s.count table query, s)
  | update table id row, s => s.update table id row
  | updateIf table id guardCol guardValue row, s => s.updateIf table id guardCol guardValue row
  | remove table id, s => s.remove table id

end Operation

/-- A connection with its snapshot, if a transaction is open. -/
structure Connection where
  store : MemoryConnection
  snapshot : Option MemoryConnection

namespace Connection

/-- A call: it reads and writes the tables and the counters. -/
def perform : (op : Operation) → Connection → op.Answer × Connection :=
  within Connection.store (fun c s => { c with store := s }) Operation.perform

/-- `begin`. -/
def begin (c : Connection) : Connection := { c with snapshot := some c.store }

/-- `commit`. -/
def commit (c : Connection) : Connection := { c with snapshot := none }

/-- `rollback`. -/
def rollback (c : Connection) : Connection :=
  match c.snapshot with
  | none => c
  | some s => ⟨s, none⟩

/-- `transaction`. -/
def transaction {ε : Type} (c : Connection) (fn : Procedure Operation.Answer ε) :
    Except ε Unit × Connection :=
  match effect perform fn c.begin with
  | (.error e, c) => (.error e, c.rollback)
  | (.ok (), c) => (.ok (), c.commit)

end Connection

/-- What a transaction is for: a procedure happens as a whole, or not at all. -/
def atomically {ε : Type} (fn : Procedure Operation.Answer ε) (s : MemoryConnection) :
    Except ε Unit × MemoryConnection :=
  match effect Operation.perform fn s with
  | (.error e, _) => (.error e, s)
  | (.ok (), s') => (.ok (), s')

end CppLaravel.Database
