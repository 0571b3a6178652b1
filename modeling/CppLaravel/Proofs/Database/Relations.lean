import CppLaravel.Database.Relations
import CppLaravel.Proofs.Database.Paginate

/-!
# `CppLaravel.Proofs.Database.Relations`: eager loading

The children that are loaded at once are those whose foreign key is one of the ids, in the order of
the table, and they are grouped by this key. So under an id are the children that a query for the
id alone would give, and the two fail on the same children (`loads_has_many`).
-/

set_option autoImplicit false

namespace CppLaravel.Database

open CppLaravel.Lib

variable {T : Type} {M : Mapper T} {c : MemoryConnection} {foreignKey : Bytes}

theorem Value.eq_int_iff {v : Value} {i : Int} : v.eq (.int i) ↔ v = .int i := by
  cases v <;> simp [Value.eq]

/-- A row refers to one of the ids. -/
def refersTo (foreignKey : Bytes) (ids : List Int) (r : Row) : Bool :=
  ids.any fun i => r.get? foreignKey = some (.int i)

theorem refersTo_iff {ids : List Int} {r : Row} :
    refersTo foreignKey ids r ↔ ∃ i ∈ ids, r.get? foreignKey = some (.int i) := by
  simp [refersTo]

/-- A selection by one clause, hydrated. -/
theorem get_clause {w : WhereClause} {p : Row → Bool} (h : ∀ r, w.accepts r = p r) :
    QueryBuilder.get M c { Query.all with wheres := [w] } =
      Repository.hydrateAll M ((c.tables M.table).filter p) := by
  show (some ((c.tables M.table).filter fun r => [w].all (·.accepts r))).bind _ = _
  simp only [List.all_cons, List.all_nil, Bool.and_true, h, Option.bind_some]

/-- The clause of `where`. -/
theorem accepts_eq (id : Int) (r : Row) :
    WhereClause.accepts ⟨foreignKey, .eq, .int id, []⟩ r = refersTo foreignKey [id] r := by
  rw [Bool.eq_iff_iff, refersTo_iff, WhereClause.accepts]
  cases r.get? foreignKey with
  | none => simp
  | some v =>
    show v.eq (.int id) ↔ _
    simp [Value.eq_int_iff]

/-- The clause of `where_in`. -/
theorem accepts_oneOf (ids : List Int) (r : Row) :
    WhereClause.accepts ⟨foreignKey, .oneOf, .int 0, ids.map Value.int⟩ r =
      refersTo foreignKey ids r := by
  rw [Bool.eq_iff_iff, refersTo_iff, WhereClause.accepts]
  cases r.get? foreignKey with
  | none => simp
  | some v =>
    show (ids.map Value.int).any v.eq ↔ _
    simp [Value.eq_int_iff]

/-- The children of one parent. -/
theorem childrenOf_eq (hsafe : isSqlIdentifier foreignKey) (id : Int) :
    childrenOf M c foreignKey id =
      Repository.hydrateAll M ((c.tables M.table).filter (refersTo foreignKey [id])) := by
  rw [childrenOf, hasMany, QueryBuilder.whereEq, QueryBuilder.whereOp, QueryBuilder.checked,
    if_pos hsafe]
  exact get_clause (accepts_eq id)

/-- The children of many parents. -/
theorem loadHasMany_eq (hsafe : isSqlIdentifier foreignKey) (ids : List Int) (keyOf : T → Int) :
    loadHasMany M c foreignKey ids keyOf =
      (Repository.hydrateAll M ((c.tables M.table).filter (refersTo foreignKey ids))).map
        (grouped keyOf) := by
  rw [loadHasMany, QueryBuilder.whereIn, QueryBuilder.checked, if_pos hsafe]
  exact congrArg (Option.map (grouped keyOf)) (get_clause (accepts_oneOf ids))

theorem hydrateAll_eq_none_iff {rows : List Row} :
    Repository.hydrateAll M rows = none ↔ ∃ r ∈ rows, M.hydrate r = none := by
  induction rows with
  | nil => simp [Repository.hydrateAll]
  | cons r rows ih =>
    rw [Repository.hydrateAll]
    cases hr : M.hydrate r with
    | none => simp [hr]
    | some a => simp [hr, ih]

/-- The models read the foreign key of their rows. -/
def ReadsKey (M : Mapper T) (c : MemoryConnection) (foreignKey : Bytes) (keyOf : T → Int) : Prop :=
  ∀ r ∈ c.tables M.table, ∀ (i : Int) (a : T), r.get? foreignKey = some (.int i) →
    M.hydrate r = some a → keyOf a = i

/-- Row by row: the children of many parents, and the ids they refer to. -/
theorem children_refer {keyOf : T → Int} (hkey : ReadsKey M c foreignKey keyOf) {ids : List Int}
    {children : List T} (h : Repository.hydrateAll M
      ((c.tables M.table).filter (refersTo foreignKey ids)) = some children) :
    List.Forall₂ (fun r a => M.hydrate r = some a ∧
      ∃ i ∈ ids, r.get? foreignKey = some (.int i) ∧ keyOf a = i)
      ((c.tables M.table).filter (refersTo foreignKey ids)) children := by
  have hmem : ∀ r ∈ (c.tables M.table).filter (refersTo foreignKey ids),
      r ∈ c.tables M.table ∧ refersTo foreignKey ids r := fun r hr => List.mem_filter.mp hr
  refine ((List.forall₂_and_left _ _).mpr ⟨hmem, hydrateAll_eq_some_iff.mp h⟩).imp ?_
  rintro r a ⟨⟨hr, hrefers⟩, ha⟩
  obtain ⟨i, hi, hcell⟩ := refersTo_iff.mp hrefers
  exact ⟨ha, i, hi, hcell, hkey r hr i a hcell ha⟩

theorem exists_of_mem_right {α β : Type} {R : α → β → Prop} {l : List α} {u : List β}
    (h : List.Forall₂ R l u) {b : β} (hb : b ∈ u) : ∃ a ∈ l, R a b := by
  induction h with
  | nil => cases hb
  | @cons a b' l u hab _ ih =>
    rcases List.mem_cons.mp hb with rfl | hb
    · exact ⟨a, List.mem_cons_self, hab⟩
    · obtain ⟨a', ha', hab'⟩ := ih hb
      exact ⟨a', List.mem_cons_of_mem a ha', hab'⟩

/-- Of the children of many parents, those with the key of one are the children of this one. -/
theorem filter_keyOf {keyOf : T → Int} (hkey : ReadsKey M c foreignKey keyOf) {ids : List Int}
    {children : List T} (h : Repository.hydrateAll M
      ((c.tables M.table).filter (refersTo foreignKey ids)) = some children) {id : Int}
    (hid : id ∈ ids) :
    Repository.hydrateAll M ((c.tables M.table).filter (refersTo foreignKey [id])) =
      some (children.filter (keyOf · = id)) := by
  have hsame : ∀ r a, (M.hydrate r = some a ∧
      ∃ i ∈ ids, r.get? foreignKey = some (.int i) ∧ keyOf a = i) →
      (refersTo foreignKey [id] r ↔ decide (keyOf a = id)) := by
    rintro r a ⟨-, i, -, hcell, hi⟩
    rw [refersTo_iff, hcell, hi]
    simp [eq_comm]
  have hfilter := List.rel_filter (fun r a => hsame r a) (children_refer hkey h)
  have hrefine : ((c.tables M.table).filter (refersTo foreignKey ids)).filter
      (refersTo foreignKey [id]) = (c.tables M.table).filter (refersTo foreignKey [id]) := by
    rw [List.filter_filter]
    refine List.filter_congr fun r _ => ?_
    rw [Bool.and_eq_left_iff_imp, refersTo_iff, refersTo_iff]
    rintro ⟨i, hi, hcell⟩
    exact ⟨i, List.mem_singleton.mp hi ▸ hid, hcell⟩
  rw [hrefine] at hfilter
  exact hydrateAll_eq_some_iff.mpr (hfilter.imp fun _ _ hra => hra.1)

/-- **Eager loading gives what one query for each parent gives**: for each id that is listed, the
children that a query for it finds, in the same order, and no entry if there are none; for other
ids nothing. It throws iff one of these queries throws, or the foreign key is refused. -/
theorem loads_has_many {keyOf : T → Int} (hkey : ReadsKey M c foreignKey keyOf) (ids : List Int) :
    match loadHasMany M c foreignKey ids keyOf with
    | some groups => ∀ id, if id ∈ ids
        then ∃ children, childrenOf M c foreignKey id = some children ∧
          groups.lookup id = groupOf children
        else groups.lookup id = none
    | none => ¬ isSqlIdentifier foreignKey ∨ ∃ id ∈ ids, childrenOf M c foreignKey id = none := by
  by_cases hsafe : isSqlIdentifier foreignKey
  · rw [loadHasMany_eq hsafe]
    cases hall : Repository.hydrateAll M ((c.tables M.table).filter (refersTo foreignKey ids)) with
    | none =>
      obtain ⟨r, hr, hnone⟩ := hydrateAll_eq_none_iff.mp hall
      obtain ⟨hmem, hrefers⟩ := List.mem_filter.mp hr
      obtain ⟨i, hi, hcell⟩ := refersTo_iff.mp hrefers
      refine .inr ⟨i, hi, ?_⟩
      rw [childrenOf_eq hsafe, hydrateAll_eq_none_iff]
      have hone : refersTo foreignKey [i] r :=
        refersTo_iff.mpr ⟨i, List.mem_singleton_self i, hcell⟩
      exact ⟨r, List.mem_filter.mpr ⟨hmem, hone⟩, hnone⟩
    | some children =>
      intro id
      rw [lookup_grouped]
      split
      · rename_i hid
        exact ⟨_, (childrenOf_eq hsafe id).trans (filter_keyOf hkey hall hid), rfl⟩
      · rename_i hid
        -- A child with the key would refer to a listed id.
        have hempty : children.filter (keyOf · = id) = [] := by
          refine List.filter_eq_nil_iff.mpr fun a ha => ?_
          obtain ⟨r, -, -, i, hi, -, hai⟩ := exists_of_mem_right (children_refer hkey hall) ha
          rw [decide_eq_true_eq, hai]
          rintro rfl
          exact hid hi
        rw [hempty]
        rfl
  · have hnone : loadHasMany M c foreignKey ids keyOf = none := by
      rw [loadHasMany, QueryBuilder.whereIn, QueryBuilder.checked, if_neg hsafe]
      rfl
    rw [hnone]
    exact .inl hsafe

/-! ### Three comments -/

/-- A comment on a post. -/
def comment (post : Int) : Row := Row.empty.set (bytes "post_id") (.int post)

/-- Comments on the posts 1, 2 and 1. -/
def comments : MemoryConnection where
  tables _ := [comment 1, comment 2, comment 1]
  nextId _ := 3

/-- The post of a comment. -/
def postOf (r : Row) : Int := (r.getInt (bytes "post_id")).getD 0

theorem readsKey_postOf :
    ReadsKey QueryBuilder.rowMapper comments (bytes "post_id") postOf := by
  intro r _ i a hcell ha
  obtain rfl : r = a := Option.some.inj ha
  rw [postOf, Row.getInt, hcell]
  rfl

/-- The comments on the posts 1, 1 and 3, of which one is listed twice and one has none. -/
theorem loads_has_many_applies :
    match loadHasMany QueryBuilder.rowMapper comments (bytes "post_id") [1, 1, 3] postOf with
    | some groups => ∀ id : Int, if id ∈ [(1 : Int), 1, 3]
        then ∃ children,
          childrenOf QueryBuilder.rowMapper comments (bytes "post_id") id = some children ∧
          groups.lookup id = groupOf children
        else groups.lookup id = none
    | none => ¬ isSqlIdentifier (bytes "post_id") ∨ ∃ id ∈ [(1 : Int), 1, 3],
        childrenOf QueryBuilder.rowMapper comments (bytes "post_id") id = none :=
  loads_has_many readsKey_postOf [1, 1, 3]

example : (loadHasMany QueryBuilder.rowMapper comments (bytes "post_id") [1, 1, 3] postOf).map
    (fun groups => (groups.lookup 1, groups.lookup 2, groups.lookup 3)) =
      some (some [comment 1, comment 1], none, none) := by
  decide

end CppLaravel.Database
