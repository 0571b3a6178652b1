import CppLaravel.Database.Repository
import CppLaravel.Lib.Transition
import CppLaravel.Proofs.Database.MemoryIds

/-!
# `CppLaravel.Proofs.Database.Repository`: a repository is a map of models

`Models` is what a repository is for: the live models in the order of their insertion, with ids
that only grow. A repository behaves like it (`repository_refines`): the rows of its table are the
live models, one by one (`Mirrors`), and every call keeps this.

The mapper has to agree that the column `id` holds the id. A mapper that keeps the id elsewhere
hydrates what it wrote, and still finds its models with ids that they do not have
(`id_column_matters`).
-/

set_option autoImplicit false

namespace CppLaravel.Database

open CppLaravel.Lib

variable {T : Type}

/-- `hydrate` undoes `to_row`, whatever id the connection writes into the row; `id` reads what
`set_id` sets. -/
structure Mapper.Lawful (M : Mapper T) : Prop where
  hydrate_set : ∀ a i, M.hydrate ((M.toRow a).set (bytes "id") (.int i)) = some (M.setId a i)
  id_setId : ∀ a i, M.id (M.setId a i) = i
  setId_id : ∀ a, M.setId a (M.id a) = a

/-- The live models in the order of their insertion, and the ids that were ever assigned. -/
structure Models (M : Mapper T) where
  live : List T
  assigned : List Int
  increasing : (live.map M.id).Pairwise (· < ·)
  known : ∀ a ∈ live, M.id a ∈ assigned

namespace Models

variable {M : Mapper T}

/-- No models. -/
def empty : Models M := ⟨[], [], .nil, fun _ h => absurd h List.not_mem_nil⟩

/-- What a call does, and what it answers. -/
def Step (s : Models M) (call : RepositoryCall T) (s' : Models M) : Prop :=
  match call with
  | .inserted model assigned => ∃ i, (∀ j ∈ s.assigned, j < i) ∧ assigned = M.setId model i ∧
      s'.live = s.live ++ [assigned] ∧ s'.assigned = s.assigned ++ [i]
  | .updated model ok => (ok = true ↔ ∃ a ∈ s.live, M.id a = M.id model) ∧
      s'.live = s.live.map (fun a => if M.id a = M.id model then model else a) ∧
      s'.assigned = s.assigned
  | .removed model ok => (ok = true ↔ ∃ a ∈ s.live, M.id a = M.id model) ∧
      s'.live = s.live.filter (fun a => M.id a ≠ M.id model) ∧ s'.assigned = s.assigned
  | .found id result => s' = s ∧
      ∃ r, result = some r ∧ ∀ a, r = some a ↔ a ∈ s.live ∧ M.id a = id
  | .listed result => s' = s ∧ result = some s.live

end Models

namespace Repository

/-- A row holds a model, under its id. -/
def Holds (M : Mapper T) (r : Row) (a : T) : Prop :=
  MemoryConnection.rowId r = some (M.id a) ∧ M.hydrate r = some a

/-- The rows are the live models, and no id was assigned above the counter. -/
structure Mirrors {M : Mapper T} (c : MemoryConnection) (s : Models M) : Prop where
  rows : List.Forall₂ (Holds M) (c.tables M.table) s.live
  le : ∀ j ∈ s.assigned, j ≤ c.nextId M.table

variable {M : Mapper T} {c c' : MemoryConnection} {s : Models M}

theorem holds_set (hM : M.Lawful) (a : T) (i : Int) :
    Holds M ((M.toRow a).set (bytes "id") (.int i)) (M.setId a i) := by
  refine ⟨?_, hM.hydrate_set a i⟩
  rw [MemoryConnection.rowId_set, hM.id_setId]

theorem nodup_id (s : Models M) : (s.live.map fun a => some (M.id a)).Nodup := by
  have hne : (s.live.map M.id).Nodup := s.increasing.imp ne_of_lt
  have hmap : s.live.map (fun a => some (M.id a)) = (s.live.map M.id).map some := by simp
  rw [hmap]
  exact hne.map (Option.some_injective _)

/-- What is found under an id is the row of the model with the id. -/
theorem Mirrors.find (h : Mirrors c s) (id : Int) :
    Option.Rel (Holds M) (c.find M.table id) (getKey (fun a => some (M.id a)) (some id) s.live) :=
  rel_getKey (fun _ _ hra => hra.1) h.rows (some id)

theorem hydrateAll_eq {rows : List Row} {live : List T} (h : List.Forall₂ (Holds M) rows live) :
    hydrateAll M rows = some live := by
  induction h with
  | nil => rfl
  | cons hra _ ih => rw [hydrateAll, hra.2, ih]; rfl

theorem isSome_of_rel {α β : Type} {R : α → β → Prop} {x : Option α} {y : Option β}
    (h : Option.Rel R x y) : x.isSome = y.isSome := by
  cases h <;> rfl

/-- A model is there under an id exactly if its row is found. -/
theorem Mirrors.isSome_find (h : Mirrors c s) (id : Int) :
    (c.find M.table id).isSome ↔ ∃ a ∈ s.live, M.id a = id := by
  rw [isSome_of_rel (h.find id), Option.isSome_iff_exists]
  refine exists_congr fun a => ?_
  rw [getKey_eq_some_iff (nodup_id s), Option.some.injEq]

/-- The same ids in the same order. -/
theorem increasing_update (s : Models M) (model : T) :
    (s.live.map fun a => if M.id a = M.id model then model else a).map M.id = s.live.map M.id := by
  rw [List.map_map]
  refine List.map_congr_left fun a _ => ?_
  show M.id (if M.id a = M.id model then model else a) = M.id a
  split
  · rename_i hid
    exact hid.symm
  · rfl

theorem Mirrors.insert (hM : M.Lawful) (h : Mirrors c s) (model : T) :
    ∃ s', s.Step (.inserted model (insert M c model).1) s' ∧ Mirrors (insert M c model).2 s' := by
  let i := c.nextId M.table + 1
  -- The new id is above every id that was ever assigned.
  have hle : ∀ j ∈ s.assigned, j < i := fun j hj => Int.lt_add_one_of_le (h.le j hj)
  have hincreasing : ((s.live ++ [M.setId model i]).map M.id).Pairwise (· < ·) := by
    rw [List.map_append, List.pairwise_append]
    refine ⟨s.increasing, List.pairwise_singleton _ _, fun j hj k hk => ?_⟩
    obtain ⟨a, ha, rfl⟩ := List.mem_map.mp hj
    rw [List.map_singleton, List.mem_singleton, hM.id_setId] at hk
    rw [hk]
    exact hle _ (s.known a ha)
  have hknown : ∀ a ∈ s.live ++ [M.setId model i], M.id a ∈ s.assigned ++ [i] := by
    intro a ha
    rcases List.mem_append.mp ha with ha | ha
    · exact List.mem_append_left _ (s.known a ha)
    · rw [List.mem_singleton.mp ha, hM.id_setId]
      exact List.mem_append_right _ List.mem_cons_self
  refine ⟨⟨s.live ++ [M.setId model i], s.assigned ++ [i], hincreasing, hknown⟩,
    ⟨i, hle, rfl, rfl, rfl⟩, ?_, ?_⟩
  · show List.Forall₂ (Holds M) ((c.insert M.table _).2.tables M.table) _
    rw [MemoryConnection.tables_insert, Row.set_erase]
    exact List.rel_append h.rows (.cons (holds_set hM model i) .nil)
  · intro j hj
    show j ≤ (c.insert M.table _).2.nextId M.table
    rw [MemoryConnection.nextId_insert]
    rcases List.mem_append.mp hj with hj | hj
    · have := hle j hj
      omega
    · exact (List.mem_singleton.mp hj).le

theorem Mirrors.update (hM : M.Lawful) (h : Mirrors c s) (model : T) :
    ∃ s', s.Step (.updated model (update M c model).1) s' ∧ Mirrors (update M c model).2 s' := by
  have hids := increasing_update s model
  have hknown : ∀ a ∈ s.live.map (fun a => if M.id a = M.id model then model else a),
      M.id a ∈ s.assigned := by
    intro a ha
    have hmem : M.id a ∈ s.live.map M.id := by
      rw [← hids]
      exact List.mem_map_of_mem ha
    obtain ⟨b, hb, hid⟩ := List.mem_map.mp hmem
    rw [← hid]
    exact s.known b hb
  let s' : Models M := ⟨_, s.assigned, hids ▸ s.increasing, hknown⟩
  have hiff := h.isSome_find (M.id model)
  refine ⟨s', ⟨?_, rfl, rfl⟩, ?_⟩
  · rw [← hiff]
    unfold Repository.update MemoryConnection.update
    cases c.find M.table (M.id model) with
    | none => simp
    | some r => simp
  · unfold Repository.update MemoryConnection.update
    cases hfind : c.find M.table (M.id model) with
    | none =>
      rw [hfind] at hiff
      -- No model has the id, so none is replaced.
      have hsame : s'.live = s.live := by
        refine (List.map_congr_left fun a ha => if_neg fun hid => ?_).trans (List.map_id _)
        exact absurd (hiff.mpr ⟨a, ha, hid⟩) (by simp)
      exact ⟨hsame ▸ h.rows, h.le⟩
    | some r =>
      refine ⟨?_, h.le⟩
      show List.Forall₂ (Holds M) ((c.overwrite M.table (M.id model) _).tables M.table) _
      have hholds := holds_set hM model (M.id model)
      rw [hM.setId_id] at hholds
      have hset := rel_setKey (fun _ _ hra => hra.1) h.rows (some (M.id model)) hholds
      rw [setKey_eq_map (nodup_id s)] at hset
      rw [MemoryConnection.tables_overwrite]
      simpa only [Option.some.injEq] using hset

theorem Mirrors.remove (h : Mirrors c s) (model : T) :
    ∃ s', s.Step (.removed model (remove M c model).1) s' ∧ Mirrors (remove M c model).2 s' := by
  have hrows := rel_eraseKey (fun _ _ hra => hra.1) h.rows (some (M.id model))
  have herase : eraseKey (fun a => some (M.id a)) (some (M.id model)) s.live =
      s.live.filter fun a => M.id a ≠ M.id model := by
    simp [eraseKey]
  rw [herase] at hrows
  have hsub := List.filter_sublist (l := s.live) (p := fun a => M.id a ≠ M.id model)
  have hknown : ∀ a ∈ s.live.filter (fun a => M.id a ≠ M.id model), M.id a ∈ s.assigned :=
    fun a ha => s.known a (hsub.subset ha)
  refine ⟨⟨_, s.assigned, s.increasing.sublist (hsub.map M.id), hknown⟩, ⟨?_, rfl, rfl⟩, ?_, h.le⟩
  · show decide ((eraseKey MemoryConnection.rowId (some (M.id model)) (c.tables M.table)).length ≠
      (c.tables M.table).length) = true ↔ _
    rw [decide_eq_true_iff, hrows.length_eq, h.rows.length_eq]
    constructor
    · intro hne
      obtain ⟨a, ha, hid⟩ := List.length_filter_lt_length_iff_exists.mp
        (lt_of_le_of_ne hsub.length_le hne)
      exact ⟨a, ha, by simpa using hid⟩
    · rintro ⟨a, ha, hid⟩
      exact ne_of_lt (List.length_filter_lt_length_iff_exists.mpr ⟨a, ha, by simpa using hid⟩)
  · show List.Forall₂ (Holds M) (Function.update c.tables M.table _ M.table) _
    rw [Function.update_self]
    exact hrows

/-- A call of the repository is a call of the map of models. -/
theorem Mirrors.step (hM : M.Lawful) (h : Mirrors c s) {call : RepositoryCall T}
    (hstep : Step M c call c') : ∃ s', s.Step call s' ∧ Mirrors c' s' := by
  cases hstep with
  | insert model => exact h.insert hM model
  | update model => exact h.update hM model
  | remove model => exact h.remove model
  | find id =>
    refine ⟨s, ⟨rfl, getKey (fun a => some (M.id a)) (some id) s.live, ?_, fun a => ?_⟩, h⟩
    · have hfind := h.find id
      unfold Repository.find
      revert hfind
      generalize c.find M.table id = x
      generalize getKey (fun a => some (M.id a)) (some id) s.live = y
      intro hfind
      cases hfind with
      | none => rfl
      | some hra => simp [hra.2]
    · rw [getKey_eq_some_iff (nodup_id s), Option.some.injEq]
  | all => exact ⟨s, ⟨rfl, hydrateAll_eq h.rows⟩, h⟩

/-- **A repository behaves like a map of models in the order of their insertion**, in every run on
a table that is empty at first. -/
theorem repository_refines {calls : List (RepositoryCall T)} (hM : M.Lawful)
    (hempty : c.tables M.table = []) (h : Trace (Step M) c calls c') :
    ∃ s' : Models M, Trace Models.Step .empty calls s' ∧ all M c' = some s'.live := by
  have hmirrors : Mirrors c (.empty : Models M) :=
    ⟨hempty ▸ .nil, fun j hj => absurd hj List.not_mem_nil⟩
  obtain ⟨s', hrun, hmirrors'⟩ :=
    h.simulate (fun _ _ _ _ hR hstep => hR.step hM hstep) hmirrors
  exact ⟨s', hrun, hydrateAll_eq hmirrors'.rows⟩

/-- A mapper as `make:model` writes it: a model with a name. -/
def namedMapper : Mapper (Int × Bytes) where
  table := bytes "articles"
  hydrate r :=
    match r.getInt (bytes "id"), r.getString (bytes "name") with
    | some id, some name => some (id, name)
    | _, _ => none
  toRow m := (Row.empty.set (bytes "id") (.int m.1)).set (bytes "name") (.string m.2)
  id := Prod.fst
  setId m id := (id, m.2)

theorem lawful_namedMapper : namedMapper.Lawful where
  hydrate_set m i := by
    have hne : bytes "name" ≠ bytes "id" := by decide
    simp [namedMapper, Row.getInt, Row.getString, Row.get?_set, hne, Value.asInt, Value.asString]
  id_setId _ _ := rfl
  setId_id _ := rfl

/-- A model is inserted and found. -/
theorem repository_refines_applies :
    ∃ s' : Models namedMapper, Trace Models.Step .empty
      [.inserted (7, bytes "a") (1, bytes "a"), .found 1 (some (some (1, bytes "a")))] s' ∧
      all namedMapper (insert namedMapper .empty (7, bytes "a")).2 = some s'.live := by
  have hinsert : Step namedMapper .empty (.inserted (7, bytes "a") (1, bytes "a"))
      (insert namedMapper .empty (7, bytes "a")).2 := .insert _ _
  have hresult : find namedMapper (insert namedMapper .empty (7, bytes "a")).2 1 =
      some (some (1, bytes "a")) := by
    decide
  have hfind : Step namedMapper (insert namedMapper .empty (7, bytes "a")).2
      (.found 1 (some (some (1, bytes "a")))) (insert namedMapper .empty (7, bytes "a")).2 :=
    hresult ▸ .find _ 1
  exact repository_refines lawful_namedMapper rfl (.cons hinsert (.cons hfind (.nil _)))

/-- A mapper that keeps the id in a column of its own. -/
def uidMapper : Mapper Int where
  table := bytes "users"
  hydrate r := r.getInt (bytes "uid")
  toRow m := Row.empty.set (bytes "uid") (.int m)
  id m := m
  setId _ id := id

/-- **The column `id` matters.** `hydrate` undoes `to_row` here, but the model that is inserted
under the id `1` is found with the id that it had before. -/
theorem id_column_matters :
    (∀ m, uidMapper.hydrate (uidMapper.toRow m) = some m) ∧
      (∃ c', Trace (Step uidMapper) .empty [.inserted 7 1, .found 1 (some (some 7))] c') ∧
      ¬ ∃ s' : Models uidMapper,
        Trace Models.Step .empty [.inserted 7 1, .found 1 (some (some 7))] s' := by
  refine ⟨fun m => ?_, ⟨(insert uidMapper .empty 7).2, ?_⟩, ?_⟩
  · simp [uidMapper, Row.getInt, Row.get?_set, Value.asInt]
  · have hinsert : Step uidMapper .empty (.inserted 7 1) (insert uidMapper .empty 7).2 :=
      .insert _ _
    have hresult : find uidMapper (insert uidMapper .empty 7).2 1 = some (some 7) := by
      decide
    have hfind : Step uidMapper (insert uidMapper .empty 7).2 (.found 1 (some (some 7)))
        (insert uidMapper .empty 7).2 := hresult ▸ .find _ 1
    exact .cons hinsert (.cons hfind (.nil _))
  · rintro ⟨s', hrun⟩
    cases hrun with
    | cons hinsert hrest =>
      obtain ⟨i, -, -, hlive, -⟩ := hinsert
      cases hrest with
      | cons hfind _ =>
        obtain ⟨-, r, hr, hiff⟩ := hfind
        have hmem : (7 : Int) ∈ _ := ((hiff 7).mp (Option.some.inj hr).symm).1
        rw [hlive] at hmem
        simp [Models.empty] at hmem

end Repository

end CppLaravel.Database
