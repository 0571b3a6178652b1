import CppLaravel.Lib.Transition
import CppLaravel.Proofs.Database.MemoryIds
import CppLaravel.Proofs.Queue.Exclusive

/-!
# `CppLaravel.Proofs.Queue.Pass`: one pass over a table of any rows

A call of `work()` on its own, over rows that may lack columns. `catch` names `std::exception`
only, and the columns that are read behind the claim are read outside `try` or inside the handler
of the exception: `Contained` says that an action raises nothing that leaves the loop body.

* `move_of_step`: what such an action does, as a relation `Move`.
* `escape_of_step`: what every other one does.
* `Underway`: the invariant of the pass. The rows that it has not reached are stored as it copied
  them, and the row at hand is stored as it was claimed.
-/

set_option autoImplicit false

namespace CppLaravel.Queue

open CppLaravel.Lib
open CppLaravel.Database
open CppLaravel.Database.MemoryConnection

variable {q : DbQueue} {s s' : State Unit} {a : Action Unit}

/-- What happens during one pass: no second call of `work()`, and no end of the process. -/
def OnePass : Action Unit → Prop
  | .enter _ _ => False
  | .crash _ => False
  | _ => True

/-- The row of a worker whose handler failed. -/
def Phase.failed? {ρ : Type} : Phase ρ → Option ρ
  | .holding _ row (.failed _) => some row
  | _ => none

/-- The action raises no exception, or one that `work()` catches: what a handler throws is a
`std::exception`, a claimed row has the column `job`, a failed one the column `attempts` and, after
its last attempt, the columns that are written to `failed_jobs`. -/
def Contained (q : DbQueue) (s : State Unit) : Action Unit → Prop
  | .throwsOther _ => False
  | .dispatch w => ∀ c ∈ (s.phase w).claim?, (c.2.getString (bytes "job")).isSome
  | .settle w => ∀ row ∈ (s.phase w).failed?, ∃ attempts ∈ row.getInt (bytes "attempts"),
      q.maxAttempts ≤ attempts + 1 →
        (row.getString (bytes "job")).isSome ∧ (row.getString (bytes "payload")).isSome
  | _ => True

instance (q : DbQueue) (s : State Unit) : (a : Action Unit) → Decidable (Contained q s a)
  | .throwsOther _ => isFalse id
  | .dispatch w => inferInstanceAs (Decidable (∀ c ∈ (s.phase w).claim?, _))
  | .settle w => inferInstanceAs (Decidable (∀ row ∈ (s.phase w).failed?, _))
  | .tick _ | .push _ _ _ | .enter _ _ | .snapshot _ | .look _ | .returns _ | .throws _ _
  | .crash _ => isTrue trivial

/-- The loop body is behind the lookup of the handler, which it found. -/
def Point.Called : Point → Prop
  | .claimed => False
  | .dropping => False
  | _ => True

/-- The row as `update_if` stores the claim. -/
def claimedRow (row : Row) (now id : Int) : Row :=
  (row.set (bytes "reserved_at") (.int now)).set (bytes "id") (.int id)

namespace State

/-- The history with more events. -/
def logged (s : State Unit) (log : List (Event Unit)) : State Unit := { s with log := log }

@[simp] theorem phase_goto (s : State Unit) (ph : Phase Row) : (s.goto () ph).phase () = ph := by
  show Function.update s.phase () ph () = ph
  exact Function.update_self () ph s.phase

@[simp] theorem conn_goto (s : State Unit) (ph : Phase Row) : (s.goto () ph).conn = s.conn := rfl

@[simp] theorem log_goto (s : State Unit) (ph : Phase Row) : (s.goto () ph).log = s.log := rfl

@[simp] theorem phase_store (s : State Unit) (c : MemoryConnection) :
    (s.store c).phase = s.phase := rfl

@[simp] theorem conn_store (s : State Unit) (c : MemoryConnection) : (s.store c).conn = c := rfl

@[simp] theorem log_store (s : State Unit) (c : MemoryConnection) : (s.store c).log = s.log := rfl

@[simp] theorem phase_logged (s : State Unit) (log : List (Event Unit)) :
    (s.logged log).phase = s.phase := rfl

theorem phase_logged_goto (s : State Unit) (ph : Phase Row) (log : List (Event Unit)) :
    ((s.goto () ph).logged log).phase () = ph := phase_goto s ph

@[simp] theorem conn_logged (s : State Unit) (log : List (Event Unit)) :
    (s.logged log).conn = s.conn := rfl

@[simp] theorem log_logged (s : State Unit) (log : List (Event Unit)) :
    (s.logged log).log = log := rfl

end State

/-! ### What an action does -/

/-- What can happen in a pass whose exceptions are caught. -/
inductive Move (q : DbQueue) (s : State Unit) : State Unit → Prop
  | tick (seconds : Nat) : Move q s { s with clock := s.clock + seconds }
  | push (row : Row) (e : Event Unit) :
      Move q s ((s.store (s.conn.insert (bytes "jobs") row).2).logged (e :: s.log))
  | snapshot {now : Int} (h : s.phase () = .entered now) :
      Move q s (s.goto () (.scanning ⟨now, 0, s.conn.all (bytes "jobs")⟩))
  | leave {p : Pass Row} (h : s.phase () = .scanning p) {log : List (Event Unit)}
      (hlog : s.log ⊆ log) : Move q s ((s.goto () .idle).logged log)
  | skip {p : Pass Row} {row : Row} {rest : List Row} (h : s.phase () = .scanning p)
      (hrest : p.rest = row :: rest) : Move q s (s.goto () (.scanning { p with rest := rest }))
  | claim {p : Pass Row} {row : Row} {rest : List Row} {id : Int} (h : s.phase () = .scanning p)
      (hrest : p.rest = row :: rest) (hid : rowId row = some id)
      (hstored : (s.conn.find (bytes "jobs") id).isSome) :
      Move q s ((s.store (s.conn.overwrite (bytes "jobs") id
        (row.set (bytes "reserved_at") (.int p.now)))).goto ()
          (.holding { p with rest := rest } row .claimed))
  | advance {p : Pass Row} {row : Row} {pt pt' : Point} (h : s.phase () = .holding p row pt)
      (hcalled : pt.Called → pt'.Called) (hburied : pt' ≠ .buried) {log : List (Event Unit)}
      (hlog : s.log ⊆ log) : Move q s ((s.goto () (.holding p row pt')).logged log)
  | remove {p : Pass Row} {row : Row} {pt : Point} (h : s.phase () = .holding p row pt)
      {log : List (Event Unit)} (hlog : s.log ⊆ log)
      (hpt : pt.Called → pt = .buried ∨ .completed () ((rowId row).getD 0) ∈ log) :
      Move q s (((s.store (s.conn.remove (bytes "jobs") ((rowId row).getD 0)).2).goto ()
        (.scanning p.next)).logged log)
  | bury {p : Pass Row} {row : Row} {what job payload : Bytes}
      (h : s.phase () = .holding p row (.failed what))
      (hjob : row.getString (bytes "job") = some job)
      (hpayload : row.getString (bytes "payload") = some payload) :
      Move q s (((s.store (s.conn.insert (bytes "failed_jobs")
        (failedRow job payload what)).2).goto () (.holding p row .buried)).logged
          (.buried () ((rowId row).getD 0) :: s.log))
  | requeue {p : Pass Row} {row : Row} {what : Bytes} {attempts : Int}
      (h : s.phase () = .holding p row (.failed what))
      (hattempts : row.getInt (bytes "attempts") = some attempts) :
      Move q s ((s.store (s.conn.update (bytes "jobs") ((rowId row).getD 0)
        (requeuedRow q p.now row (attempts + 1))).2).goto () (.scanning p.next))

/-- The head of the loop. -/
theorem move_look {p : Pass Row} (h : s.phase () = .scanning p) : Move q s (look q s () p) := by
  rw [look]
  split
  · exact .leave h (List.subset_cons_self _ _)
  · rename_i row rest hrest
    split
    · exact .leave h (List.Subset.refl _)
    · rename_i id hid
      dsimp only
      split
      · rw [updateIf]
        cases hfind : s.conn.find (bytes "jobs") id with
        | none => exact .skip h hrest
        | some stored =>
          dsimp only
          split
          · rename_i hif
            split at hif
            · obtain ⟨-, rfl⟩ := Prod.mk.inj hif
              exact .claim h hrest hid (by rw [hfind]; rfl)
            · cases hif
          · rename_i hif
            split at hif
            · cases hif
            · obtain ⟨-, rfl⟩ := Prod.mk.inj hif
              exact .skip h hrest
      · exact .skip h hrest

/-- The lookup of the handler, for a row that has the column `job`. -/
theorem move_dispatch {p : Pass Row} {row : Row} (h : s.phase () = .holding p row .claimed)
    (hjob : (row.getString (bytes "job")).isSome) : Move q s (dispatch q s () p row) := by
  obtain ⟨job, hjob⟩ := Option.isSome_iff_exists.mp hjob
  rw [dispatch, hjob]
  dsimp only
  split
  · split
    · exact .advance h (fun hno => hno.elim) (by simp) (List.Subset.refl _)
    · exact .advance h (fun hno => hno.elim) (by simp) (List.subset_cons_self _ _)
  · exact .advance h (fun hno => hno.elim) (by simp) (List.Subset.refl _)

/-- The call on the connection that follows a handler run, where the columns are there. -/
theorem move_settle {p : Pass Row} {row : Row} {pt : Point} (h : s.phase () = .holding p row pt)
    (hc : Contained q s (.settle ()))
    (hstep : settle q s () p row pt = some s') : Move q s s' := by
  cases pt with
  | claimed => cases hstep
  | running => cases hstep
  | dropping =>
    cases hstep
    exact .remove h (List.subset_cons_self _ _) fun hno => hno.elim
  | succeeded =>
    cases hstep
    exact .remove h (List.subset_cons_self _ _) fun _ => .inr List.mem_cons_self
  | buried =>
    cases hstep
    exact .remove h (List.Subset.refl _) fun _ => .inl rfl
  | failed what =>
    cases hstep
    obtain ⟨attempts, hattempts, hlast⟩ := hc row (by rw [h]; rfl)
    rw [settleFailed, hattempts]
    dsimp only
    split
    · rename_i hmax
      obtain ⟨hjob, hpayload⟩ := hlast hmax
      obtain ⟨job, hjob⟩ := Option.isSome_iff_exists.mp hjob
      obtain ⟨payload, hpayload⟩ := Option.isSome_iff_exists.mp hpayload
      rw [hjob, hpayload]
      exact .bury h hjob hpayload
    · exact .requeue h hattempts

/-- **What a contained action of a pass does.** -/
theorem move_of_step (hin : OnePass a) (hc : Contained q s a)
    (h : step (fun _ => q) s a = some s') : Move q s s' := by
  cases a with
  | tick seconds =>
    cases h
    exact .tick seconds
  | push job payload delay =>
    cases h
    exact .push _ _
  | enter w arg => exact hin.elim
  | crash w => exact hin.elim
  | throwsOther w => exact hc.elim
  | snapshot w =>
    simp only [step] at h
    split at h
    · cases h
      exact .snapshot ‹_›
    · cases h
  | look w =>
    simp only [step] at h
    split at h
    · cases h
      exact move_look ‹_›
    · cases h
  | dispatch w =>
    simp only [step] at h
    split at h
    · rename_i p row hphase
      cases h
      exact move_dispatch hphase (hc (p, row) (by rw [hphase]; rfl))
    · cases h
  | returns w =>
    simp only [step] at h
    split at h
    · cases h
      have hcalled : Point.succeeded.Called := trivial
      exact .advance ‹_› (fun _ => hcalled) (by simp) (List.Subset.refl _)
    · cases h
  | throws w what =>
    simp only [step] at h
    split at h
    · cases h
      have hcalled : (Point.failed what).Called := trivial
      exact .advance ‹_› (fun _ => hcalled) (by simp) (List.subset_cons_self _ _)
    · cases h
  | settle w =>
    simp only [step] at h
    split at h
    · rename_i p row pt hphase
      exact move_settle hphase hc h
    · cases h

/-- **An action that is not contained leaves `work()`** with the claim on the row at hand. -/
theorem escape_of_step (hc : ¬ Contained q s a) (h : step (fun _ => q) s a = some s') :
    ∃ p row pt, s.phase () = .holding p row pt ∧ s' = s.goto () .idle := by
  cases a with
  | throwsOther w =>
    simp only [step] at h
    split at h
    · cases h
      exact ⟨_, _, _, ‹_›, rfl⟩
    · cases h
  | dispatch w =>
    simp only [step] at h
    split at h
    · rename_i p row hphase
      cases h
      refine ⟨p, row, _, hphase, ?_⟩
      have hnone : row.getString (bytes "job") = none := by
        by_contra hsome
        refine hc fun c hmem => ?_
        rw [hphase] at hmem
        cases hmem
        exact Option.isSome_iff_ne_none.mpr hsome
      rw [dispatch, hnone]
    · cases h
  | settle w =>
    simp only [step] at h
    split at h
    · rename_i p row pt hphase
      refine ⟨p, row, pt, hphase, ?_⟩
      have hfailed : ∃ what, pt = .failed what := by
        by_contra hno
        refine hc fun r hr => ?_
        rw [hphase] at hr
        cases pt with
        | failed what => exact absurd ⟨what, rfl⟩ hno
        | _ => cases hr
      obtain ⟨what, rfl⟩ := hfailed
      have hcolumns : ¬ ∃ attempts ∈ row.getInt (bytes "attempts"), q.maxAttempts ≤ attempts + 1 →
          (row.getString (bytes "job")).isSome ∧ (row.getString (bytes "payload")).isSome := by
        intro hcolumns
        refine hc fun r hr => ?_
        rw [hphase] at hr
        cases hr
        exact hcolumns
      cases h
      rw [settleFailed]
      split
      · rfl
      · rename_i attempts hattempts
        dsimp only
        split
        · rename_i hmax
          split
          · rename_i job payload hjob hpayload
            exact absurd ⟨attempts, hattempts, fun _ => ⟨by rw [hjob]; rfl, by rw [hpayload]; rfl⟩⟩
              hcolumns
          · rfl
        · rename_i hmax
          exact absurd ⟨attempts, hattempts, fun hle => absurd hle hmax⟩ hcolumns
    · cases h
  | _ => exact absurd trivial hc

/-! ### The invariant -/

/-- The job is written to `failed_jobs`, by an event of this id. -/
def Buried (s : State Unit) (row : Row) (id : Int) : Prop :=
  .buried () id ∈ s.log ∧ ∃ f ∈ s.conn.tables (bytes "failed_jobs"),
    f.getString (bytes "job") = row.getString (bytes "job") ∧
      f.getString (bytes "payload") = row.getString (bytes "payload")

theorem getString_failedRow (job payload error : Bytes) (id : Int) :
    ((failedRow job payload error).set (bytes "id") (.int id)).getString (bytes "job") = some job ∧
      ((failedRow job payload error).set (bytes "id") (.int id)).getString (bytes "payload")
        = some payload := by
  simp only [Row.getString, failedRow, Row.get?_set]
  exact ⟨rfl, rfl⟩

/-- A pass on its own, at any moment. -/
structure Underway (s : State Unit) : Prop where
  own : OwnIds (bytes "jobs") s.conn
  nonzero : ∀ now, (s.phase ()).now? = some now → now ≠ 0
  nodup : ((s.phase ()).ahead.map rowId).Nodup
  ahead : ∀ row ∈ (s.phase ()).ahead, ∃ id, rowId row = some id ∧ storedRow s id = some row
  held : ∀ p row pt, s.phase () = .holding p row pt → ∃ id, rowId row = some id ∧
    some id ∉ p.rest.map rowId ∧ storedRow s id = some (claimedRow row p.now id)
  buried : ∀ p row id, s.phase () = .holding p row .buried → rowId row = some id → Buried s row id

/-- The pass goes on where the rows ahead of it are stored as before. -/
theorem Underway.of_frame (h : Underway s) (hown : OwnIds (bytes "jobs") s'.conn)
    (hnow : ∀ now, (s'.phase ()).now? = some now → (s.phase ()).now? = some now)
    (hsub : (s'.phase ()).ahead.Sublist (s.phase ()).ahead)
    (hstored : ∀ row ∈ (s'.phase ()).ahead, ∀ id, rowId row = some id →
      storedRow s id = some row → storedRow s' id = some row)
    (hheld : ∀ p row pt, s'.phase () = .holding p row pt → ∃ id, rowId row = some id ∧
      some id ∉ p.rest.map rowId ∧ storedRow s' id = some (claimedRow row p.now id))
    (hburied : ∀ p row id, s'.phase () = .holding p row .buried → rowId row = some id →
      Buried s' row id) : Underway s' where
  own := hown
  nonzero now hn := h.nonzero now (hnow now hn)
  nodup := h.nodup.sublist (hsub.map rowId)
  ahead row hrow := by
    obtain ⟨id, hid, hfound⟩ := h.ahead row (hsub.subset hrow)
    exact ⟨id, hid, hstored row hrow id hid hfound⟩
  held := hheld
  buried := hburied

/-- The pass goes on with no row at hand. -/
theorem Underway.of_free (h : Underway s) (hown : OwnIds (bytes "jobs") s'.conn)
    (hfree : ∀ p row pt, s'.phase () ≠ .holding p row pt)
    (hnow : ∀ now, (s'.phase ()).now? = some now → (s.phase ()).now? = some now)
    (hsub : (s'.phase ()).ahead.Sublist (s.phase ()).ahead)
    (hstored : ∀ row ∈ (s'.phase ()).ahead, ∀ id, rowId row = some id →
      storedRow s id = some row → storedRow s' id = some row) : Underway s' :=
  h.of_frame hown hnow hsub hstored (fun p row pt hphase => absurd hphase (hfree p row pt))
    fun p row _ hphase => absurd hphase (hfree p row .buried)

/-- The pass goes on with a row at hand that is stored as it was claimed. -/
theorem Underway.of_holding (h : Underway s) (hown : OwnIds (bytes "jobs") s'.conn) {p : Pass Row}
    {row : Row} {pt : Point} (hphase : s'.phase () = .holding p row pt)
    (hnow : (s.phase ()).now? = some p.now) (hsub : p.rest.Sublist (s.phase ()).ahead)
    (hstored : ∀ r ∈ p.rest, ∀ id, rowId r = some id →
      storedRow s id = some r → storedRow s' id = some r)
    {id : Int} (hid : rowId row = some id) (hnot : some id ∉ p.rest.map rowId)
    (hrow : storedRow s' id = some (claimedRow row p.now id))
    (hburied : pt = .buried → Buried s' row id) : Underway s' := by
  refine h.of_frame hown ?_ ?_ ?_ ?_ ?_
  · intro now hn
    rw [hphase] at hn
    exact hnow.trans hn
  · rw [hphase]
    exact hsub
  · rw [hphase]
    exact hstored
  · intro p' row' pt' hphase'
    rw [hphase] at hphase'
    cases hphase'
    exact ⟨id, hid, hnot, hrow⟩
  · intro p' row' id' hphase' hid'
    rw [hphase] at hphase'
    cases hphase'
    rw [hid] at hid'
    cases hid'
    exact hburied rfl

/-- The row at the head of the loop is stored under its id, and no other row has it. -/
theorem Underway.head (h : Underway s) {p : Pass Row} (hphase : s.phase () = .scanning p)
    {row : Row} {rest : List Row} (hrest : p.rest = row :: rest) {id : Int}
    (hid : rowId row = some id) : storedRow s id = some row ∧ some id ∉ rest.map rowId := by
  have hahead := h.ahead
  have hnodup := h.nodup
  rw [hphase] at hahead hnodup
  simp only [Phase.ahead, hrest, List.map_cons] at hahead hnodup
  obtain ⟨k, hk, hstored⟩ := hahead row List.mem_cons_self
  rw [hid] at hk
  cases hk
  exact ⟨hstored, hid ▸ (List.nodup_cons.mp hnodup).1⟩

/-- Where the row at hand is written or removed, the rows ahead are stored as before. -/
theorem ne_of_mem_ahead {rest : List Row} {id id' : Int} (hnot : some id ∉ rest.map rowId)
    {row : Row} (hrow : row ∈ rest) (hid' : rowId row = some id') : id' ≠ id := by
  rintro rfl
  exact hnot (List.mem_map.mpr ⟨row, hrow, hid'⟩)

/-- **The invariant of the pass.** -/
theorem Underway.move (h : Underway s) (hmove : Move q s s') : Underway s' := by
  cases hmove with
  | tick seconds => exact ⟨h.own, h.nonzero, h.nodup, h.ahead, h.held, h.buried⟩
  | push row e =>
    have hfind : ∀ id r, storedRow s id = some r →
        (s.conn.insert (bytes "jobs") row).2.find (bytes "jobs") id = some r := by
      intro id r hr
      rw [find_insert_of_le (h.own.le_of_find hr)]
      exact hr
    refine h.of_frame ?_ (fun _ hn => hn) (List.Sublist.refl _)
      (fun r _ id _ hr => hfind id r hr) ?_ ?_
    · exact h.own.insert row
    · intro p r pt hphase
      obtain ⟨id, hid, hnot, hr⟩ := h.held p r pt hphase
      exact ⟨id, hid, hnot, hfind id _ hr⟩
    · intro p r id hphase hid
      obtain ⟨hevent, f, hf, hfailed⟩ := h.buried p r id hphase hid
      refine ⟨List.mem_cons_of_mem _ hevent, f, ?_, hfailed⟩
      show f ∈ (s.conn.insert (bytes "jobs") row).2.tables (bytes "failed_jobs")
      rwa [tables_insert_ne (by decide)]
  | snapshot hphase =>
    -- The rows ahead are those of the table, so no frame: each is found under its own id.
    have hnow := h.nonzero _ (by rw [hphase]; rfl)
    refine ⟨h.own, ?_, ?_, ?_, ?_, ?_⟩
    · intro now hn
      simp only [State.phase_goto, Phase.now?, Option.some.injEq] at hn
      exact hn ▸ hnow
    · simp only [State.phase_goto, Phase.ahead]
      exact h.own.nodup
    · intro row hrow
      simp only [State.phase_goto, Phase.ahead] at hrow
      obtain ⟨id, hid, -⟩ := h.own.le row hrow
      exact ⟨id, hid, h.own.find_of_mem hrow hid⟩
    · intro p row pt hp
      simp at hp
    · intro p row id hp
      simp at hp
  | leave hphase hlog =>
    refine h.of_free h.own ?_ ?_ ?_ ?_ <;> simp [Phase.now?, Phase.ahead]
  | @skip p row rest hphase hrest =>
    refine h.of_free h.own ?_ ?_ ?_ fun _ _ _ _ hr => hr
    · simp
    · simp [hphase, Phase.now?]
    · simp [hphase, Phase.ahead, hrest]
  | @claim p row rest id hphase hrest hid hstored =>
    obtain ⟨hrow, hnot⟩ := h.head hphase hrest hid
    refine h.of_holding ?_ (State.phase_goto _ _) ?_ ?_ ?_ hid hnot (find_overwrite hrow _)
      fun hpt => by cases hpt
    · exact h.own.overwrite hrow _
    · rw [hphase]
      rfl
    · rw [hphase]
      show rest.Sublist p.rest
      rw [hrest]
      exact List.sublist_cons_self row rest
    · intro r hr id' hid' hfound
      show (s.conn.overwrite (bytes "jobs") id _).find (bytes "jobs") id' = some r
      rw [find_overwrite_ne (ne_of_mem_ahead hnot hr hid')]
      exact hfound
  | @advance p row pt pt' hphase hcalled hburied log hlog =>
    obtain ⟨id, hid, hnot, hrow⟩ := h.held p row pt hphase
    refine h.of_holding h.own (State.phase_logged_goto _ _ _) ?_ ?_ (fun _ _ _ _ hr => hr) hid
      hnot hrow fun hpt => absurd hpt hburied
    · rw [hphase]
      rfl
    · rw [hphase]
      exact List.Sublist.refl _
  | @remove p row pt hphase log hlog hpt =>
    obtain ⟨id, hid, hnot, hrow⟩ := h.held p row pt hphase
    refine h.of_free (h.own.remove _) ?_ ?_ ?_ ?_
    · simp
    · simp [hphase, Phase.now?, Pass.next]
    · simp [hphase, Phase.ahead, Pass.next]
    · intro r hr id' hid' hfound
      simp only [State.phase_logged, State.phase_goto, Phase.ahead] at hr
      show (s.conn.remove (bytes "jobs") _).2.find (bytes "jobs") id' = some r
      rw [hid, Option.getD_some, find_remove_ne (ne_of_mem_ahead hnot hr hid')]
      exact hfound
  | @bury p row what job payload hphase hjob hpayload =>
    obtain ⟨id, hid, hnot, hrow⟩ := h.held p row _ hphase
    have hne : bytes "jobs" ≠ bytes "failed_jobs" := by decide
    refine h.of_holding (h.own.insert_ne hne _) (State.phase_logged_goto _ _ _) ?_ ?_ ?_ hid
      hnot ?_ ?_
    · rw [hphase]
      rfl
    · rw [hphase]
      exact List.Sublist.refl _
    · intro r _ id' _ hfound
      exact (find_insert_ne hne _ id').trans hfound
    · exact (find_insert_ne hne _ id).trans hrow
    · intro _
      refine ⟨?_, (failedRow job payload what).set (bytes "id")
        (.int (s.conn.nextId (bytes "failed_jobs") + 1)), ?_, ?_⟩
      · rw [hid]
        exact List.mem_cons_self
      · show _ ∈ (s.conn.insert (bytes "failed_jobs") _).2.tables (bytes "failed_jobs")
        rw [tables_insert]
        exact List.mem_append_right _ (List.mem_singleton_self _)
      · rw [hjob, hpayload]
        exact getString_failedRow job payload what _
  | @requeue p row what attempts hphase hattempts =>
    obtain ⟨id, hid, hnot, hrow⟩ := h.held p row _ hphase
    refine h.of_free (h.own.update _ _) ?_ ?_ ?_ ?_
    · simp
    · simp [hphase, Phase.now?, Pass.next]
    · simp [hphase, Phase.ahead, Pass.next]
    · intro r hr id' hid' hfound
      simp only [State.phase_goto, Phase.ahead] at hr
      show (s.conn.update (bytes "jobs") _ _).2.find (bytes "jobs") id' = some r
      rw [hid, Option.getD_some, update_of_find hrow,
        find_overwrite_ne (ne_of_mem_ahead hnot hr hid')]
      exact hfound

end CppLaravel.Queue
