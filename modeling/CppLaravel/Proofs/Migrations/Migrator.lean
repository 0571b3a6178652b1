import CppLaravel.Proofs.Migrations.Bookkeeping

/-!
# `CppLaravel.Proofs.Migrations.Migrator`: the migrator does what it should

Over a connection that keeps the names, the loops of `run` and `rollback` call what
`History` expects, and the names that are recorded stay those that are applied. So a whole
history is the expected one as long as every rollback meets names that the connection can forget.
-/

set_option autoImplicit false

namespace CppLaravel.Migrations

open CppLaravel.Database
open CppLaravel.Database.SqliteConnection (Engine)

/-- The names of a call. -/
def Call.request {κ : Type} : Call κ → Request
  | run ms => .run (ms.map Migration.name)
  | rollback ms => .rollback (ms.map Migration.name)

section
variable {κ : Type} {C : Connection κ} (B : Bookkeeping C)

/-- A migration that leaves the table of the migrator alone. -/
structure Bookkeeping.Spares (m : Migration κ) : Prop where
  up : ∀ {conn}, B.Ready conn → B.Ready (m.up conn) ∧
    ∀ k, B.recorded (m.up conn) k = B.recorded conn k
  down : ∀ {conn}, B.Ready conn → B.Ready (m.down conn) ∧
    ∀ k, B.recorded (m.down conn) k = B.recorded conn k

/-- Migrations whose names differ, and are recorded under keys that differ. -/
structure Bookkeeping.Fits (names : Set Bytes) (ms : List (Migration κ)) : Prop where
  spares : ∀ m ∈ ms, B.Spares m
  mem : ∀ m ∈ ms, m.name ∈ names
  nodup : (ms.map Migration.name).Nodup

/-- The names that are recorded are those that are applied. -/
structure Bookkeeping.Tracks (names : Set Bytes) (st : State κ) : Prop where
  ready : B.Ready st.conn
  recorded : ∀ n ∈ names, B.recorded st.conn (B.key n) = isApplied st.log n

variable {B} {names : Set Bytes}

/-- The state after `up` is called and recorded, or `down` is called and forgotten. -/
theorem Bookkeeping.Tracks.concat (hkey : Set.InjOn B.key names) {st : State κ}
    (h : B.Tracks names st) {e : Event} (he : e.name ∈ names) {conn : κ} (hready : B.Ready conn)
    (hrecorded : ∀ k, B.recorded conn k =
      if k = B.key e.name then e.isUp else B.recorded st.conn k) :
    B.Tracks names ⟨conn, st.log ++ [e]⟩ := by
  refine ⟨hready, fun n hn => ?_⟩
  rw [hrecorded, isApplied_concat]
  by_cases hname : e.name = n
  · rw [if_pos hname, hname, if_pos rfl]
  · rw [if_neg hname, if_neg fun heq => hname (hkey he hn heq.symm)]
    exact h.recorded n hn

/-- The loop of `run`, by the migrations that are left. -/
theorem runLoop_eq (hkey : Set.InjOn B.key names) {ms : List (Migration κ)}
    (hms : B.Fits names ms) {st : State κ} (h : B.Tracks names st) :
    ∃ st', runLoop C ms st = (st', none) ∧ B.Tracks names st' ∧
      st'.log = expected st.log (.run (ms.map Migration.name)) := by
  induction ms generalizing st with
  | nil => exact ⟨st, rfl, h, (List.append_nil _).symm⟩
  | cons m ms ih =>
    obtain ⟨hspares, hspares'⟩ := List.forall_mem_cons.mp hms.spares
    obtain ⟨hmem, hmem'⟩ := List.forall_mem_cons.mp hms.mem
    obtain ⟨hnew, hnodup⟩ := List.nodup_cons.mp hms.nodup
    have happlied := B.applied m.name h.ready
    rw [h.recorded m.name hmem] at happlied
    cases hcase : isApplied st.log m.name with
    | true =>
      -- A migration that is applied is passed over.
      obtain ⟨st', hrun, htracks, hlog⟩ := ih ⟨hspares', hmem', hnodup⟩ h
      refine ⟨st', ?_, htracks, ?_⟩
      · rw [runLoop, happlied, hcase]
        exact hrun
      · rw [hlog, List.map_cons, expected_run_cons_of_isApplied hcase]
    | false =>
      -- Its `up` spares the bookkeeping, and the record then has its name.
      obtain ⟨hready, hsame⟩ := hspares.up h.ready
      obtain ⟨conn, hrecord, hready', hrecorded⟩ := B.record m.name hready
      have he : (Event.up m.name).name ∈ names := hmem
      have hnext : B.Tracks names ⟨conn, st.log ++ [.up m.name]⟩ := by
        refine h.concat hkey he hready' fun k => ?_
        rw [hrecorded, hsame]
        by_cases hk : k = B.key m.name <;> simp [hk, Event.name, Event.isUp]
      obtain ⟨st', hrun, htracks, hlog⟩ := ih ⟨hspares', hmem', hnodup⟩ hnext
      refine ⟨st', ?_, htracks, ?_⟩
      · rw [runLoop, happlied, hcase]
        dsimp only
        rw [hrecord]
        exact hrun
      · rw [hlog, List.map_cons, expected_run_cons hcase hnew]

/-- The loop of `rollback`, by the migrations that are left; the list is the reversed one. -/
theorem rollbackLoop_eq (hkey : Set.InjOn B.key names) {ms : List (Migration κ)}
    (hms : B.Fits names ms) {st : State κ} (h : B.Tracks names st)
    (hforget : ∀ m ∈ ms, isApplied st.log m.name = true → B.Forgettable m.name) :
    ∃ st', rollbackLoop C ms st = (st', none) ∧ B.Tracks names st' ∧
      st'.log = expected st.log (.rollback (ms.map Migration.name).reverse) := by
  induction ms generalizing st with
  | nil => exact ⟨st, rfl, h, (List.append_nil _).symm⟩
  | cons m ms ih =>
    obtain ⟨hspares, hspares'⟩ := List.forall_mem_cons.mp hms.spares
    obtain ⟨hmem, hmem'⟩ := List.forall_mem_cons.mp hms.mem
    obtain ⟨hnew, hnodup⟩ := List.nodup_cons.mp hms.nodup
    obtain ⟨hforgetM, hforget'⟩ := List.forall_mem_cons.mp hforget
    have happlied := B.applied m.name h.ready
    rw [h.recorded m.name hmem] at happlied
    rw [List.map_cons, List.reverse_cons]
    cases hcase : isApplied st.log m.name with
    | false =>
      obtain ⟨st', hrun, htracks, hlog⟩ := ih ⟨hspares', hmem', hnodup⟩ h hforget'
      refine ⟨st', ?_, htracks, ?_⟩
      · rw [rollbackLoop, happlied, hcase]
        exact hrun
      · rw [hlog, expected_rollback_concat_of_not_isApplied hcase]
    | true =>
      obtain ⟨hready, hsame⟩ := hspares.down h.ready
      obtain ⟨conn, hforgot, hready', hrecorded⟩ := B.forget m.name hready (hforgetM hcase)
      have he : (Event.down m.name).name ∈ names := hmem
      have hnext : B.Tracks names ⟨conn, st.log ++ [.down m.name]⟩ := by
        refine h.concat hkey he hready' fun k => ?_
        rw [hrecorded, hsame]
        by_cases hk : k = B.key m.name <;> simp [hk, Event.name, Event.isUp]
      -- The names that are left are applied as before.
      have hrest : ∀ m' ∈ ms, isApplied (st.log ++ [.down m.name]) m'.name = true →
          B.Forgettable m'.name := by
        intro m' hm' happlied'
        have hne : (Event.down m.name).name ≠ m'.name := fun heq =>
          hnew (List.mem_map.mpr ⟨m', hm', heq.symm⟩)
        rw [isApplied_concat, if_neg hne] at happlied'
        exact hforget' m' hm' happlied'
      obtain ⟨st', hrun, htracks, hlog⟩ := ih ⟨hspares', hmem', hnodup⟩ hnext hrest
      refine ⟨st', ?_, htracks, ?_⟩
      · rw [rollbackLoop, happlied, hcase]
        dsimp only
        rw [hforgot]
        exact hrun
      · rw [hlog, expected_rollback_concat hcase fun hmem => hnew (List.mem_reverse.mp hmem)]

/-! ### Calls -/

variable (B names) in
/-- What a history asks of its migrations, from the calls of `up` and `down` so far. -/
structure Bookkeeping.Proper (calls : List (Call κ)) (log : List Event) : Prop where
  fits : ∀ call ∈ calls, B.Fits names call.migrations
  forgets : ForgetsOnly B.Forgettable log (calls.map Call.request)

variable (B names) in
/-- Between calls: the table may not be there yet. -/
structure Bookkeeping.Follows (st : State κ) : Prop where
  usable : B.Usable st.conn
  recorded : ∀ n ∈ names, B.recorded st.conn (B.key n) = isApplied st.log n

theorem Bookkeeping.Tracks.follows {st : State κ} (h : B.Tracks names st) : B.Follows names st :=
  ⟨B.usable_of_ready h.ready, h.recorded⟩

theorem fits_reverse {ms : List (Migration κ)} (h : B.Fits names ms) :
    B.Fits names ms.reverse where
  spares m hm := h.spares m (List.mem_reverse.mp hm)
  mem m hm := h.mem m (List.mem_reverse.mp hm)
  nodup := by
    rw [List.map_reverse]
    exact List.nodup_reverse.mpr h.nodup

/-- One call. -/
theorem step_eq (hkey : Set.InjOn B.key names) {call : Call κ}
    (hcall : B.Fits names call.migrations) {st : State κ} (h : B.Follows names st)
    (hforget : ∀ ns, call.request = .rollback ns →
      ∀ n ∈ ns, isApplied st.log n = true → B.Forgettable n) :
    ∃ st', call.step C st = (st', none) ∧ B.Tracks names st' ∧
      st'.log = expected st.log call.request := by
  obtain ⟨conn, hensure, hready, hsame⟩ := B.ensure h.usable
  have htracks : B.Tracks names ⟨conn, st.log⟩ :=
    ⟨hready, fun n hn => (hsame _).trans (h.recorded n hn)⟩
  cases call with
  | run ms =>
    obtain ⟨st', hrun, htracks', hlog⟩ := runLoop_eq hkey hcall htracks
    refine ⟨st', ?_, htracks', hlog⟩
    show Migrations.run C ms st = _
    rw [Migrations.run, hensure]
    exact hrun
  | rollback ms =>
    have hforget' : ∀ m ∈ ms.reverse, isApplied st.log m.name = true → B.Forgettable m.name :=
      fun m hm => hforget _ rfl m.name (List.mem_map_of_mem (List.mem_reverse.mp hm))
    obtain ⟨st', hrun, htracks', hlog⟩ := rollbackLoop_eq hkey (fits_reverse hcall) htracks hforget'
    rw [List.map_reverse, List.reverse_reverse] at hlog
    refine ⟨st', ?_, htracks', hlog⟩
    show Migrations.rollback C ms st = _
    rw [Migrations.rollback, hensure]
    exact hrun

/-- A history. -/
theorem runCalls_eq (hkey : Set.InjOn B.key names) {calls : List (Call κ)} {st : State κ}
    (hcalls : B.Proper names calls st.log) (h : B.Follows names st) :
    B.Follows names (runCalls C calls st) ∧
      (runCalls C calls st).log = (calls.map Call.request).foldl expected st.log := by
  induction calls generalizing st with
  | nil => exact ⟨h, rfl⟩
  | cons call calls ih =>
    obtain ⟨hcall, hrest⟩ := List.forall_mem_cons.mp hcalls.fits
    obtain ⟨hforget, hforgets⟩ := hcalls.forgets
    obtain ⟨st', hstep, htracks, hlog⟩ := step_eq hkey hcall h hforget
    have hcons : runCalls C (call :: calls) st = runCalls C calls st' := by
      rw [runCalls, List.foldl_cons, hstep]
      rfl
    rw [hcons, List.map_cons, List.foldl_cons, ← hlog]
    exact ih ⟨hrest, hlog ▸ hforgets⟩ htracks.follows

variable (C names) in
/-- A history does what it should: it makes the calls that are expected, these alternate for every
name, and the migrator then takes for applied what is applied. -/
structure Intended (calls : List (Call κ)) (conn : κ) : Prop where
  log : (runCalls C calls ⟨conn, []⟩).log = (calls.map Call.request).foldl expected []
  alternates : ∀ name, Alternates (callsFor name (runCalls C calls ⟨conn, []⟩).log)
  counts : ∀ n ∈ names, ∃ conn', ensureTable C (runCalls C calls ⟨conn, []⟩).conn = .ok conn' ∧
    applied C conn' n = .ok (isApplied (runCalls C calls ⟨conn, []⟩).log n)

variable (B names) in
/-- Nothing is recorded yet. -/
def Bookkeeping.Fresh (conn : κ) : Prop :=
  B.Usable conn ∧ ∀ n ∈ names, B.recorded conn (B.key n) = false

theorem intended_of_proper (hkey : Set.InjOn B.key names) {calls : List (Call κ)} {conn : κ}
    (hcalls : B.Proper names calls []) (h : B.Fresh names conn) :
    Intended C names calls conn := by
  have hfollows : B.Follows names ⟨conn, []⟩ := ⟨h.1, h.2⟩
  obtain ⟨hend, hlog⟩ := runCalls_eq hkey hcalls hfollows
  refine ⟨hlog, fun name => ?_, fun n hn => ?_⟩
  · rw [hlog]
    refine alternates_expected ?_ name
    intro request hrequest
    obtain ⟨call, hcall, rfl⟩ := List.mem_map.mp hrequest
    cases call with
    | run ms => exact (hcalls.fits _ hcall).nodup
    | rollback ms => exact (hcalls.fits _ hcall).nodup
  · obtain ⟨conn', hensure, hready, hsame⟩ := B.ensure hend.usable
    refine ⟨conn', hensure, ?_⟩
    rw [B.applied n hready, hsame, hend.recorded n hn]

end

/-- On the memory backend a history does what it should if no rollback meets a name that is
applied. On SQLite it does if the names that are applied when a rollback meets them have no quote
and no NUL, and no two names are the same up to a NUL. -/
theorem migrator_alternates {δ : Type} {E : Engine δ} (T : MigrationsTable E) :
    (∀ (calls : List (Call MemoryConnection)) (c : MemoryConnection),
      memoryBookkeeping.Proper Set.univ calls [] → memoryBookkeeping.Fresh Set.univ c →
      Intended memoryConnection Set.univ calls c) ∧
    ∀ (names : Set Bytes) (calls : List (Call δ)) (db : δ), Set.InjOn cStr names →
      (sqliteBookkeeping T).Proper names calls [] → (sqliteBookkeeping T).Fresh names db →
      Intended (sqliteConnection E) names calls db := by
  constructor
  · intro calls c hcalls hfresh
    exact intended_of_proper (Set.injOn_id _) hcalls hfresh
  · intro names calls db hkey hcalls hfresh
    exact intended_of_proper (B := sqliteBookkeeping T) hkey hcalls hfresh

/-- A library that knows the four texts, over the names that it keeps. -/
def namesEngine : Engine (List Bytes) where
  exec db sql :=
    let start := bytes "DELETE FROM migrations WHERE name = '"
    if sql = createText then (none, db)
    else if start.isPrefixOf sql then
      (none, db.filter fun n => n ≠ (sql.drop start.length).dropLast)
    else (some (bytes "syntax error"), db)
  prepareError _ _ := none
  run db sql binds :=
    match binds with
    | [(_, .text k)] =>
      if sql = bytes "INSERT INTO migrations (name) VALUES (?)" then ⟨[], none, k :: db⟩
      else ⟨(db.filter fun n => n = k).map fun n => [(bytes "name", .text n)], none, db⟩
    | _ => ⟨[], none, db⟩
  changes _ := 0
  lastInsertRowid db := db.length

def namesTable : MigrationsTable namesEngine where
  Usable _ := True
  Ready _ := True
  recorded db k := decide (k ∈ db)
  usable_of_ready h := h
  create := by
    intro db _
    refine ⟨db, ?_, trivial, fun _ => rfl⟩
    simp only [namesEngine, if_true]
  select := by
    intro db k _
    have hne : bytes "SELECT * FROM migrations WHERE name = ?" ≠
      bytes "INSERT INTO migrations (name) VALUES (?)" := by decide
    refine ⟨rfl, ?_⟩
    rw [Bool.eq_iff_iff]
    simp only [namesEngine, if_neg hne, List.isEmpty_map, List.isEmpty_iff, List.filter_eq_nil_iff]
    simp [List.forall_mem_ne']
  insert := by
    intro db k _
    refine ⟨[], k :: db, rfl, rfl, trivial, fun k' => ?_⟩
    simp
  delete := by
    intro db k _ _ _
    have hne : bytes "DELETE FROM migrations WHERE name = '" ++ k ++ bytes "'" ≠ createText := by
      intro h
      have hhead := congrArg List.head? h
      rw [List.append_assoc, List.head?_append_of_ne_nil _ (by decide)] at hhead
      exact absurd hhead (by decide)
    have hstart : (bytes "DELETE FROM migrations WHERE name = '").isPrefixOf
        (bytes "DELETE FROM migrations WHERE name = '" ++ k ++ bytes "'") = true := by
      rw [List.isPrefixOf_iff_prefix, List.append_assoc]
      exact List.prefix_append _ _
    have hname : ((bytes "DELETE FROM migrations WHERE name = '" ++ k ++ bytes "'").drop
        (bytes "DELETE FROM migrations WHERE name = '").length).dropLast = k := by
      rw [List.append_assoc, List.drop_left]
      exact List.dropLast_concat
    refine ⟨db.filter fun n => n ≠ k, ?_, trivial, fun k' => ?_⟩
    · simp only [namesEngine, if_neg hne, if_pos hstart, hname]
    · rw [Bool.eq_iff_iff]
      simp [and_comm]

/-- A migration that does nothing. -/
def plain {κ : Type} (name : Bytes) : Migration κ := ⟨name, id, id⟩

theorem spares_plain {κ : Type} {C : Connection κ} (B : Bookkeeping C) (name : Bytes) :
    B.Spares (plain name) :=
  ⟨fun h => ⟨h, fun _ => rfl⟩, fun h => ⟨h, fun _ => rfl⟩⟩

theorem fits_plain {κ : Type} {C : Connection κ} (B : Bookkeeping C) {names : Set Bytes}
    {ns : List Bytes} (hmem : ∀ n ∈ ns, n ∈ names) (hnodup : ns.Nodup) :
    B.Fits names (ns.map plain) where
  spares := List.forall_mem_map.mpr fun n _ => spares_plain B n
  mem := List.forall_mem_map.mpr hmem
  nodup := by
    rw [List.map_map]
    exact (List.map_id ns).symm ▸ hnodup

/-- Two migrations, rolled back and run again on SQLite; on memory two calls of `run`. -/
theorem migrator_alternates_applies :
    Intended memoryConnection Set.univ
      [.run ([bytes "a"].map plain), .run ([bytes "a", bytes "b"].map plain)] .empty ∧
    Intended (sqliteConnection namesEngine) {bytes "a", bytes "b"}
      [.run ([bytes "a", bytes "b"].map plain), .rollback ([bytes "a", bytes "b"].map plain),
        .run ([bytes "b"].map plain)] [] := by
  have hmem : ∀ n ∈ [bytes "a", bytes "b"], n ∈ ({bytes "a", bytes "b"} : Set Bytes) := by
    intro n hn
    simpa using hn
  refine ⟨(migrator_alternates namesTable).1 _ _ ⟨?_, ?_⟩ ⟨trivial, fun _ _ => rfl⟩,
    (migrator_alternates namesTable).2 _ _ _ ?_ ⟨?_, ?_⟩ ⟨trivial, fun _ _ => rfl⟩⟩
  · intro call hcall
    simp only [List.mem_cons, List.not_mem_nil, or_false] at hcall
    obtain rfl | rfl := hcall
    · exact fits_plain _ (fun _ _ => trivial) (by decide)
    · exact fits_plain _ (fun _ _ => trivial) (by decide)
  · exact ⟨fun _ h => (by cases h), fun _ h => (by cases h), trivial⟩
  · rintro n (rfl | rfl) n' (rfl | rfl) h <;> first | rfl | exact absurd h (by decide)
  · intro call hcall
    simp only [List.mem_cons, List.not_mem_nil, or_false] at hcall
    obtain rfl | rfl | rfl := hcall
    · exact fits_plain _ hmem (by decide)
    · exact fits_plain _ hmem (by decide)
    · exact fits_plain _ (fun n hn => hmem n (List.mem_cons_of_mem _ hn)) (by decide)
  · refine ⟨fun _ h => (by cases h), ?_, fun _ h => (by cases h), trivial⟩
    intro ns hns n hn _
    cases hns
    have hplain : ∀ n ∈ [bytes "a", bytes "b"], 0 ∉ n ∧ 39 ∉ n := by decide
    exact hplain n (by simpa [plain] using hn)

/-- On the memory backend a second `rollback` calls `down` again. -/
theorem memory_calls_down_twice :
    ¬ Alternates (callsFor (bytes "a") (runCalls memoryConnection
      [.run [plain (bytes "a")], .rollback [plain (bytes "a")], .rollback [plain (bytes "a")]]
      ⟨.empty, []⟩).log) := by
  have hlog : (runCalls memoryConnection
      [.run [plain (bytes "a")], .rollback [plain (bytes "a")], .rollback [plain (bytes "a")]]
      ⟨.empty, []⟩).log = [.up (bytes "a"), .down (bytes "a"), .down (bytes "a")] := by
    decide
  rw [hlog]
  intro h
  exact absurd (h 2 (.down (bytes "a")) (by decide)) (by decide)

end CppLaravel.Migrations
