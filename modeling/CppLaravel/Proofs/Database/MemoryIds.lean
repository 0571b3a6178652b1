import CppLaravel.Database.MemoryConnection

/-!
# `CppLaravel.Proofs.Database.MemoryIds`: the ids of the memory backend

The rows of a table have ids of their own, none above the counter. Every operation keeps this, so
a row is found under the id that its insertion gave.
-/

set_option autoImplicit false

namespace CppLaravel.Database.MemoryConnection

open CppLaravel.Lib

section
variable {table : Bytes} {c : MemoryConnection}

/-- The rows have ids of their own, up to the counter. -/
structure OwnIds (table : Bytes) (c : MemoryConnection) : Prop where
  nodup : ((c.tables table).map rowId).Nodup
  le : ∀ r ∈ c.tables table, ∃ id, rowId r = some id ∧ id ≤ c.nextId table

theorem rowId_set (row : Row) (id : Int) : rowId (row.set (bytes "id") (.int id)) = some id := by
  rw [rowId, Row.getInt, Row.get?_set, if_pos rfl]
  rfl

theorem tables_insert (row : Row) : (c.insert table row).2.tables table =
    c.tables table ++ [row.set (bytes "id") (.int (c.nextId table + 1))] :=
  Function.update_self _ _ _

theorem nextId_insert (row : Row) : (c.insert table row).2.nextId table = c.nextId table + 1 :=
  Function.update_self _ _ _

theorem tables_overwrite (id : Int) (row : Row) : (c.overwrite table id row).tables table =
    setKey rowId (some id) (row.set (bytes "id") (.int id)) (c.tables table) :=
  Function.update_self _ _ _

/-- A table with nothing in it. -/
theorem ownIds_of_tables_eq_nil (h : c.tables table = []) : OwnIds table c where
  nodup := h ▸ List.nodup_nil
  le r hr := by
    rw [h] at hr
    cases hr

theorem OwnIds.insert (h : OwnIds table c) (row : Row) : OwnIds table (c.insert table row).2 where
  nodup := by
    rw [tables_insert, List.map_append, List.nodup_append]
    refine ⟨h.nodup, List.nodup_singleton _, ?_⟩
    intro id hid id' hid'
    obtain ⟨r, hr, rfl⟩ := List.mem_map.mp hid
    obtain ⟨k, hk, hle⟩ := h.le r hr
    rw [List.map_singleton, List.mem_singleton, rowId_set] at hid'
    rw [hk, hid', ne_eq, Option.some_inj]
    omega
  le := by
    intro r hr
    rw [tables_insert, List.mem_append, List.mem_singleton] at hr
    rw [nextId_insert]
    cases hr with
    | inl hr =>
      obtain ⟨id, hid, hle⟩ := h.le r hr
      exact ⟨id, hid, by omega⟩
    | inr hr => exact ⟨_, hr ▸ rowId_set _ _, le_refl _⟩

theorem OwnIds.overwrite (h : OwnIds table c) {id : Int} {r : Row} (hr : c.find table id = some r)
    (row : Row) : OwnIds table (c.overwrite table id row) where
  nodup := by
    rw [tables_overwrite, map_setKey (rowId_set _ _)]
    exact h.nodup
  le := by
    intro r' hr'
    rw [tables_overwrite] at hr'
    show ∃ id, rowId r' = some id ∧ id ≤ c.nextId table
    cases mem_of_mem_setKey hr' with
    | inl hr' =>
      obtain ⟨k, hk, hle⟩ := h.le r (List.mem_of_find?_eq_some hr)
      have hid : rowId r = some id := by simpa using List.find?_some hr
      rw [hid, Option.some_inj] at hk
      exact ⟨id, hr' ▸ rowId_set _ _, hk ▸ hle⟩
    | inr hr' => exact h.le r' hr'

theorem OwnIds.update (h : OwnIds table c) (id : Int) (row : Row) :
    OwnIds table (c.update table id row).2 := by
  rw [MemoryConnection.update]
  cases hfind : c.find table id with
  | none => exact h
  | some r => exact h.overwrite hfind row

theorem OwnIds.remove (h : OwnIds table c) (id : Int) : OwnIds table (c.remove table id).2 := by
  have htable : (c.remove table id).2.tables table = eraseKey rowId (some id) (c.tables table) :=
    Function.update_self _ _ _
  constructor
  · rw [htable]
    exact h.nodup.sublist (List.filter_sublist.map rowId)
  · intro r hr
    rw [htable] at hr
    exact h.le r (List.mem_filter.mp hr).1

/-- What `find` gives for the id of an insertion. -/
theorem find_insert (h : OwnIds table c) (row : Row) :
    (c.insert table row).2.find table (c.insert table row).1 =
      some (row.set (bytes "id") (.int (c.nextId table + 1))) := by
  have hnone : getKey rowId (some (c.nextId table + 1)) (c.tables table) = none := by
    rw [getKey, List.find?_eq_none]
    intro r hr
    obtain ⟨id, hid, hle⟩ := h.le r hr
    rw [hid, decide_eq_true_eq, Option.some_inj]
    omega
  show getKey rowId (some (c.nextId table + 1)) ((c.insert table row).2.tables table) = _
  rw [tables_insert, getKey_append, hnone, Option.none_or, getKey_cons, if_pos (rowId_set _ _)]

/-- What `find` gives after a row is overwritten. -/
theorem find_overwrite {id : Int} {r : Row} (h : c.find table id = some r) (row : Row) :
    (c.overwrite table id row).find table id = some (row.set (bytes "id") (.int id)) := by
  rw [find, tables_overwrite, getKey_setKey_self (rowId_set _ _), ← find, h]
  rfl

/-- A row of the table is found under its id. -/
theorem OwnIds.find_of_mem (h : OwnIds table c) {r : Row} (hr : r ∈ c.tables table) {id : Int}
    (hid : rowId r = some id) : c.find table id = some r :=
  (getKey_eq_some_iff h.nodup).mpr ⟨hr, hid⟩

theorem OwnIds.le_of_find (h : OwnIds table c) {id : Int} {r : Row}
    (hr : c.find table id = some r) : id ≤ c.nextId table := by
  obtain ⟨hmem, hid⟩ := (getKey_eq_some_iff h.nodup).mp hr
  obtain ⟨k, hk, hle⟩ := h.le r hmem
  rw [hid, Option.some_inj] at hk
  exact hk ▸ hle

/-! ### The other rows -/

/-- An insertion leaves what is found under the ids that were given before. -/
theorem find_insert_of_le {id : Int} (hle : id ≤ c.nextId table) (row : Row) :
    (c.insert table row).2.find table id = c.find table id := by
  have hne : rowId (row.set (bytes "id") (.int (c.nextId table + 1))) ≠ some id := by
    rw [rowId_set, ne_eq, Option.some_inj]
    omega
  rw [find, tables_insert, getKey_append, getKey_cons, if_neg hne, getKey_nil, Option.or_none]
  rfl

theorem find_overwrite_ne {id id' : Int} (hne : id' ≠ id) (row : Row) :
    (c.overwrite table id row).find table id' = c.find table id' := by
  rw [find, tables_overwrite, getKey_setKey_ne (rowId_set _ _) fun h => hne (Option.some.inj h)]
  rfl

theorem find_remove_self (id : Int) : (c.remove table id).2.find table id = none := by
  show getKey rowId (some id) (Function.update c.tables table _ table) = none
  rw [Function.update_self, getKey_eraseKey_self]

theorem find_remove_ne {id id' : Int} (hne : id' ≠ id) :
    (c.remove table id).2.find table id' = c.find table id' := by
  show getKey rowId (some id') (Function.update c.tables table _ table) = _
  rw [Function.update_self, getKey_eraseKey_ne fun h => hne (Option.some.inj h)]
  rfl

theorem update_of_find {id : Int} {r : Row} (h : c.find table id = some r) (row : Row) :
    (c.update table id row).2 = c.overwrite table id row := by
  rw [MemoryConnection.update, h]

/-! ### The other tables -/

variable {table' : Bytes}

theorem tables_insert_ne (hne : table ≠ table') (row : Row) :
    (c.insert table' row).2.tables table = c.tables table := Function.update_of_ne hne _ _

theorem tables_overwrite_ne (hne : table ≠ table') (id : Int) (row : Row) :
    (c.overwrite table' id row).tables table = c.tables table := Function.update_of_ne hne _ _

theorem tables_remove_ne (hne : table ≠ table') (id : Int) :
    (c.remove table' id).2.tables table = c.tables table := Function.update_of_ne hne _ _

theorem nextId_insert_ne (hne : table ≠ table') (row : Row) :
    (c.insert table' row).2.nextId table = c.nextId table := Function.update_of_ne hne _ _

theorem OwnIds.insert_ne (h : OwnIds table c) (hne : table ≠ table') (row : Row) :
    OwnIds table (c.insert table' row).2 where
  nodup := by
    rw [tables_insert_ne hne]
    exact h.nodup
  le := by
    rw [tables_insert_ne hne, nextId_insert_ne hne]
    exact h.le

theorem find_insert_ne (hne : table ≠ table') (row : Row) (id : Int) :
    (c.insert table' row).2.find table id = c.find table id := by
  rw [find, tables_insert_ne hne]
  rfl

end

end CppLaravel.Database.MemoryConnection
