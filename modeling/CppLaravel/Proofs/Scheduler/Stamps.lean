import CppLaravel.Proofs.Database.MemoryIds
import CppLaravel.Scheduler.Schedule

/-!
# `CppLaravel.Proofs.Scheduler.Stamps`: the two places for the last runs

Both the map of the schedule and the table of a connection are `Stamps`: what is recorded under
a name is read back there, and seen under no other. The table needs rows with ids of their own,
which every table has that `insert` has filled.
-/

set_option autoImplicit false

namespace CppLaravel.Scheduler

open CppLaravel.Lib
open CppLaravel.Database
open CppLaravel.Database.MemoryConnection (OwnIds ownIds_of_tables_eq_nil)

/-- The schedule's own map. -/
def memoryStamps : Stamps Memory where
  lastRun := Memory.lastRun
  recordRun := Memory.recordRun
  Valid _ := True
  valid_record _ _ _ := trivial
  lastRun_self := by
    intro memory name t _
    rw [Memory.lastRun, Memory.recordRun, Finmap.lookup_insert]
    rfl
  lastRun_other := by
    intro memory name t name' _
    rw [Memory.lastRun, Memory.recordRun]
    by_cases h : name' = name
    · right
      rw [h, Finmap.lookup_insert]
      rfl
    · left
      rw [Finmap.lookup_insert_of_ne _ h]
      rfl

/-! ### A table of a connection -/

section
variable {table : Bytes}

/-- The name of a row. -/
def nameOf (r : Row) : Option Value := r.get? (bytes "name")

/-- What `select` finds first under a name. -/
theorem head?_select (c : MemoryConnection) (name : Bytes) :
    (c.select table [(bytes "name", .string name)]).head? =
      getKey nameOf (some (.string name)) (c.tables table) := by
  rw [MemoryConnection.select, List.head?_filter, getKey]
  congr 1
  funext r
  rw [List.all_cons, List.all_nil, Bool.and_true, Bool.eq_iff_iff, Value.any_eq_string,
    decide_eq_true_eq]
  exact Iff.rfl

theorem tableLastRun_eq (c : MemoryConnection) (name : Bytes) : tableLastRun table c name =
    ((getKey nameOf (some (.string name)) (c.tables table)).bind fun r =>
      r.getInt (bytes "last_run")).getD 0 := by
  rw [tableLastRun, ← head?_select]
  cases c.select table [(bytes "name", .string name)] <;> rfl

/-- The row that `record_run` stores under the name of an earlier one. -/
def stamped (r : Row) (now : Int) (id : Int) : Row :=
  (r.set (bytes "last_run") (.int now)).set (bytes "id") (.int id)

theorem nameOf_stamped (r : Row) (now id : Int) : nameOf (stamped r now id) = nameOf r := by
  rw [nameOf, stamped, Row.get?_set, Row.get?_set, if_neg (by decide), if_neg (by decide)]
  rfl

theorem getInt_stamped (r : Row) (now id : Int) :
    (stamped r now id).getInt (bytes "last_run") = some now := by
  rw [Row.getInt, stamped, Row.get?_set, if_neg (by decide), Row.get?_set, if_pos rfl]
  rfl

/-- The row that `record_run` inserts under a new name. -/
def firstStamp (name : Bytes) (now id : Int) : Row :=
  stamped (Row.empty.set (bytes "name") (.string name)) now id

theorem nameOf_firstStamp (name : Bytes) (now id : Int) :
    nameOf (firstStamp name now id) = some (.string name) := by
  rw [firstStamp, nameOf_stamped, nameOf, Row.get?_set, if_pos rfl]

/-- A name that is new: a row is inserted. -/
theorem tableRecordRun_new {c : MemoryConnection} {name : Bytes} (now : Int)
    (h : getKey nameOf (some (.string name)) (c.tables table) = none) :
    tableRecordRun table c name now = (c.insert table
      ((Row.empty.set (bytes "name") (.string name)).set (bytes "last_run") (.int now))).2 := by
  rw [← head?_select, List.head?_eq_none_iff] at h
  rw [tableRecordRun, h]

theorem tables_tableRecordRun_new {c : MemoryConnection} {name : Bytes} (now : Int)
    (h : getKey nameOf (some (.string name)) (c.tables table) = none) :
    (tableRecordRun table c name now).tables table =
      c.tables table ++ [firstStamp name now (c.nextId table + 1)] := by
  rw [tableRecordRun_new now h, MemoryConnection.insert, MemoryConnection.withTable]
  exact Function.update_self _ _ _

/-- A name that has a row: its first row is replaced. -/
theorem tableRecordRun_old {c : MemoryConnection} (hc : OwnIds table c) {name : Bytes} (now : Int)
    {r : Row} (h : getKey nameOf (some (.string name)) (c.tables table) = some r) :
    ∃ id, MemoryConnection.rowId r = some id ∧
      (tableRecordRun table c name now).tables table =
        setKey MemoryConnection.rowId (some id) (stamped r now id) (c.tables table) := by
  obtain ⟨id, hid, -⟩ := hc.le r (List.mem_of_find?_eq_some h)
  refine ⟨id, hid, ?_⟩
  rw [← head?_select, List.head?_eq_some_iff] at h
  obtain ⟨rs, hselect⟩ := h
  have hfound : ∃ r', c.find table id = some r' := by
    have hmem : r ∈ c.tables table := by
      have hr : r ∈ c.select table [(bytes "name", .string name)] := hselect ▸ List.mem_cons_self
      exact (List.mem_filter.mp hr).1
    rw [MemoryConnection.find, getKey, ← Option.isSome_iff_exists, List.find?_isSome]
    exact ⟨r, hmem, by simp [hid]⟩
  obtain ⟨r', hr'⟩ := hfound
  have hint : r.getInt (bytes "id") = some id := hid
  have hrecord : tableRecordRun table c name now =
      c.overwrite table id (r.set (bytes "last_run") (.int now)) := by
    rw [tableRecordRun, hselect]
    simp only [hint, MemoryConnection.update, hr']
  rw [hrecord]
  exact Function.update_self _ _ _

theorem ownIds_tableRecordRun {c : MemoryConnection} (hc : OwnIds table c) (name : Bytes)
    (now : Int) : OwnIds table (tableRecordRun table c name now) := by
  rw [tableRecordRun]
  split
  · exact hc.insert _
  · split
    · exact hc
    · exact hc.update _ _

/-- The row of a name after a run is recorded: the first with this name has the new time, and the
first with any other name is the one before. -/
theorem getKey_tableRecordRun {c : MemoryConnection} (hc : OwnIds table c) (name : Bytes)
    (now : Int) :
    (∃ r id, getKey nameOf (some (.string name)) ((tableRecordRun table c name now).tables table) =
      some (stamped r now id)) ∧
    ∀ name', name' ≠ name →
      getKey nameOf (some (.string name')) ((tableRecordRun table c name now).tables table) =
        getKey nameOf (some (.string name')) (c.tables table) := by
  cases h : getKey nameOf (some (.string name)) (c.tables table) with
  | none =>
    -- The name has no row yet, so one is appended.
    rw [tables_tableRecordRun_new now h]
    constructor
    · refine ⟨Row.empty.set (bytes "name") (.string name), c.nextId table + 1, ?_⟩
      rw [getKey_append, h, Option.none_or, getKey_cons, if_pos (nameOf_firstStamp _ _ _)]
      rfl
    · intro name' hne
      have hother : nameOf (firstStamp name now (c.nextId table + 1)) ≠ some (.string name') := by
        rw [nameOf_firstStamp]
        intro heq
        cases heq
        exact hne rfl
      rw [getKey_append, getKey_cons, if_neg hother, getKey_nil, Option.or_none]
  | some r =>
    -- The row that is found is overwritten under its id, which no other row has.
    obtain ⟨id, hid, htable⟩ := tableRecordRun_old hc now h
    have hname : nameOf r = some (.string name) := by
      simpa using List.find?_some h
    have hkey : nameOf (stamped r now id) = some (.string name) := nameOf_stamped r now id ▸ hname
    rw [htable, ← hid, setKey_eq_of_getKey h hc.nodup]
    constructor
    · exact ⟨r, id, by rw [getKey_setKey_self hkey, h]; rfl⟩
    · intro name' hne
      refine getKey_setKey_ne hkey ?_ _
      intro heq
      cases heq
      exact hne rfl

variable (table) in
/-- The table of a connection. -/
def tableStamps : Stamps MemoryConnection where
  lastRun := tableLastRun table
  recordRun := tableRecordRun table
  Valid := OwnIds table
  valid_record name t h := ownIds_tableRecordRun h name t
  lastRun_self := by
    intro c name t hc
    obtain ⟨⟨r, id, hr⟩, -⟩ := getKey_tableRecordRun hc name t
    rw [tableLastRun_eq, hr, Option.bind_some, getInt_stamped]
    rfl
  lastRun_other := by
    intro c name t name' hc
    obtain ⟨⟨r, id, hr⟩, hother⟩ := getKey_tableRecordRun hc name t
    rw [tableLastRun_eq, tableLastRun_eq]
    by_cases h : name' = name
    · right
      rw [h, hr, Option.bind_some, getInt_stamped]
      rfl
    · left
      rw [hother name' h]

end

end CppLaravel.Scheduler
