import Mathlib.Data.Finmap
import CppLaravel.Bytes
import CppLaravel.Database.Double

/-!
# `CppLaravel.Database.Row`: cells and rows (`include/database.hpp`)

`Value` is a cell and `Row` a map from column names to cells, the wire format behind the
mapper. The map has no order, like the `std::unordered_map` it models, so two rows with the
same cells are equal (`Row.ext_get?`). `int64` cells are unbounded integers: no claim about
rows depends on their overflow.
-/

set_option autoImplicit false

namespace CppLaravel.Database

/-- A cell: `std::variant` of an integer, a double, a string and a boolean. -/
inductive Value where
  | int (i : Int)
  | double (d : Double)
  | string (s : Bytes)
  | bool (b : Bool)
deriving DecidableEq

/-- `==` of two cells: the same alternative with equal values. -/
def Value.eq : Value → Value → Bool
  | .int i, .int i' => i = i'
  | .double d, .double d' => d.eq d'
  | .string s, .string s' => s = s'
  | .bool b, .bool b' => b = b'
  | _, _ => false

theorem Value.any_eq_string {v : Option Value} {s : Bytes} :
    v.any (·.eq (.string s)) = true ↔ v = some (.string s) := by
  rcases v with _ | v
  · simp
  · cases v <;> simp [Value.eq]

/-- `value_as<std::int64_t>`: a string reads as `0`. -/
def Value.asInt : Value → Int
  | .int i => i
  | .double d => d.toInt
  | .string _ => 0
  | .bool b => if b then 1 else 0

/-- `value_as<std::string>`. -/
def Value.asString : Value → Bytes
  | .int i => intToString i
  | .double d => d.toString
  | .string s => s
  | .bool b => if b then bytes "1" else bytes "0"

/-- `value_as<bool>`; a NaN is not zero. -/
def Value.asBool : Value → Bool
  | .int i => i ≠ 0
  | .double d => d.isNan || d.key ≠ 0
  | .string s => s ≠ [] ∧ s ≠ bytes "0"
  | .bool b => b

/-- `value_as<double>`. -/
def Value.asDouble : Value → Double
  | .int i => .ofInt i
  | .double d => d
  | .string _ => .ofInt 0
  | .bool b => .ofInt (if b then 1 else 0)

/-- A row: column names and their cells. -/
structure Row where
  data : Finmap fun _ : Bytes => Value
deriving DecidableEq

namespace Row

/-- The row without cells. -/
def empty : Row := ⟨∅⟩

/-- `data.find(key)`. -/
def get? (r : Row) (key : Bytes) : Option Value := r.data.lookup key

/-- `get<std::int64_t>(key)`; `none` is the `std::out_of_range` of `data.at`. -/
def getInt (r : Row) (key : Bytes) : Option Int := (r.get? key).map Value.asInt

/-- `get<std::string>(key)`; `none` is the `std::out_of_range` of `data.at`. -/
def getString (r : Row) (key : Bytes) : Option Bytes := (r.get? key).map Value.asString

/-- `set(key, v)`. -/
def set (r : Row) (key : Bytes) (v : Value) : Row := ⟨r.data.insert key v⟩

/-- `data.erase(key)`. -/
def erase (r : Row) (key : Bytes) : Row := ⟨r.data.erase key⟩

@[simp] theorem get?_empty (key : Bytes) : empty.get? key = none := rfl

theorem get?_set (r : Row) (key key' : Bytes) (v : Value) :
    (r.set key v).get? key' = if key' = key then some v else r.get? key' := by
  by_cases h : key' = key
  · subst h; simp [get?, set]
  · simp [get?, set, h]

/-- The row with these cells; of two with the same name the later one counts. -/
def ofList (cols : List (Bytes × Value)) : Row :=
  cols.foldl (fun row c => row.set c.1 c.2) empty

theorem get?_foldl_set {cols : List (Bytes × Value)} (hnodup : (cols.map Prod.fst).Nodup)
    (row : Row) (name : Bytes) (v : Value) :
    (cols.foldl (fun row c => row.set c.1 c.2) row).get? name = some v ↔
      (name, v) ∈ cols ∨ name ∉ cols.map Prod.fst ∧ row.get? name = some v := by
  induction cols generalizing row with
  | nil => simp
  | cons c cols ih =>
    obtain ⟨hc, hcols⟩ := List.nodup_cons.mp hnodup
    rw [List.foldl_cons, ih hcols, get?_set, List.map_cons, List.mem_cons, List.mem_cons]
    by_cases hname : name = c.1
    · subst hname
      have hmem : (c.1, v) ∉ cols := fun h =>
        hc (List.mem_map.mpr ⟨_, h, rfl⟩)
      simp [hc, hmem, Prod.ext_iff, eq_comm]
    · simp [hname, Prod.ext_iff]

theorem get?_ofList {cols : List (Bytes × Value)} (hnodup : (cols.map Prod.fst).Nodup)
    {name : Bytes} {v : Value} : (ofList cols).get? name = some v ↔ (name, v) ∈ cols := by
  rw [ofList, get?_foldl_set hnodup]
  simp

/-- Rows with the same cells are equal. -/
theorem ext_get? {r r' : Row} (h : ∀ key, r.get? key = r'.get? key) : r = r' := by
  cases r; cases r'
  exact congrArg _ (Finmap.ext_lookup h)

/-- A cell that is set anew may be erased before. -/
theorem set_erase (r : Row) (key : Bytes) (v : Value) : (r.erase key).set key v = r.set key v := by
  refine ext_get? fun key' => ?_
  rw [get?_set, get?_set]
  split
  · rfl
  · rename_i hne
    exact Finmap.lookup_erase_ne hne

end Row

end CppLaravel.Database
