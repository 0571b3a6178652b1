import CppLaravel.Proofs.Queue.Pass
import CppLaravel.Proofs.Queue.Reclaim

/-!
# `CppLaravel.Proofs.Queue.Released`: what a pass leaves behind when it exits

`settles_iff`: at the exit of `work()`, by a return or by an exception, no claim of the pass is
left and every job whose handler was started has been removed, moved or requeued, exactly if the
pass raised nothing but what `work()` catches.

A job that the pass is done with (`Past`) is not touched again, so what became of it stands at the
exit. An exception that leaves the loop body ends the pass with the claim of the row at hand, and
nothing takes that claim back.
-/

set_option autoImplicit false

namespace CppLaravel.Queue

open CppLaravel.Lib
open CppLaravel.Database
open CppLaravel.Database.MemoryConnection

variable {q : DbQueue} {s s' : State Unit} {a : Action Unit} {as : List (Action Unit)}
  {row : Row} {id : Int}

/-! ### What a pass is asked for -/

/-- Somewhere in the run the loop body is at this point with this row. -/
def Stands (q : DbQueue) (s : State Unit) (as : List (Action Unit)) (row : Row) (pt : Point) :
    Prop :=
  ∃ before s₁ p, before <+: as ∧ Trace (Steps (step fun _ => q)) s before s₁ ∧
    s₁.phase () = .holding p row pt

/-- The job is not reserved. -/
def Free (s : State Unit) (id : Int) : Prop :=
  ∀ stored, storedRow s id = some stored → columnOrZero stored (bytes "reserved_at") = 0

/-- What became of a job whose handler was started. -/
inductive Fate (s : State Unit) (row : Row) (id : Int) : Prop
  | removed (hgone : storedRow s id = none) (hdone : .completed () id ∈ s.log)
  | moved (hgone : storedRow s id = none) (hfailed : Buried s row id)
  | requeued (stored : Row) (attempts : Int) (hstored : storedRow s id = some stored)
      (hread : row.getInt (bytes "attempts") = some attempts)
      (hcounted : stored.getInt (bytes "attempts") = some (attempts + 1))
      (hreleased : stored.getInt (bytes "reserved_at") = some 0)

/-- No job that the pass claimed is left reserved, and each job whose handler it started has one of
the three fates. -/
def Settles (q : DbQueue) (s : State Unit) (as : List (Action Unit)) (s' : State Unit) : Prop :=
  ∀ row pt id, Stands q s as row pt → rowId row = some id →
    Free s' id ∧ (pt = .running → Fate s' row id)

/-! ### Jobs that the pass is done with -/

/-- The pass does not come to the job any more. -/
structure Past (s : State Unit) (id : Int) : Prop where
  le : id ≤ s.conn.nextId (bytes "jobs")
  entered : ∀ now, s.phase () ≠ .entered now
  ahead : some id ∉ (s.phase ()).ahead.map rowId
  held : ∀ p row pt, s.phase () = .holding p row pt → rowId row ≠ some id

/-- **The pass does not touch what it is done with.** -/
theorem Past.move (h : Past s id) (hs : Underway s) (hmove : Move q s s') :
    Past s' id ∧ storedRow s' id = storedRow s id := by
  cases hmove with
  | tick seconds => exact ⟨⟨h.le, h.entered, h.ahead, h.held⟩, rfl⟩
  -- The next id is above every id that was given, so a new row is not this one.
  | push row e =>
    refine ⟨⟨?_, h.entered, h.ahead, h.held⟩, find_insert_of_le h.le row⟩
    show id ≤ (s.conn.insert (bytes "jobs") row).2.nextId (bytes "jobs")
    rw [nextId_insert]
    exact Int.le_add_one h.le
  | snapshot hphase => exact absurd hphase (h.entered _)
  | leave hphase hlog => exact ⟨⟨h.le, by simp, by simp [Phase.ahead], by simp⟩, rfl⟩
  | @skip p row rest hphase hrest =>
    have hahead := h.ahead
    simp only [hphase, Phase.ahead, hrest, List.map_cons, List.mem_cons, not_or] at hahead
    exact ⟨⟨h.le, by simp, by simpa [Phase.ahead] using hahead.2, by simp⟩, rfl⟩
  -- The claimed job is the next of the copy, and the id is not ahead.
  | @claim p row rest k hphase hrest hid hstored =>
    have hahead := h.ahead
    simp only [hphase, Phase.ahead, hrest, List.map_cons, List.mem_cons, not_or, hid,
      Option.some_inj] at hahead
    refine ⟨⟨h.le, by simp, by simpa [Phase.ahead] using hahead.2, ?_⟩,
      find_overwrite_ne hahead.1 _⟩
    intro p' row' pt hp
    simp only [State.phase_goto, Phase.holding.injEq] at hp
    rw [← hp.2.1, hid, ne_eq, Option.some_inj]
    exact fun heq => hahead.1 heq.symm
  | @advance p row pt pt' hphase hcalled hburied log hlog =>
    have hahead := h.ahead
    rw [hphase] at hahead
    refine ⟨⟨h.le, by simp, by simpa [Phase.ahead] using hahead, ?_⟩, rfl⟩
    intro p' row' pt'' hp
    simp only [State.phase_logged, State.phase_goto, Phase.holding.injEq] at hp
    exact hp.2.1 ▸ h.held p row pt hphase
  -- The pass removes and rewrites only the job in hand, which has another id.
  | @remove p row pt hphase log hlog hpt =>
    obtain ⟨k, hk, hnot, -⟩ := hs.held p row pt hphase
    have hahead := h.ahead
    have hne := h.held p row pt hphase
    rw [hk, ne_eq, Option.some_inj] at hne
    rw [hphase] at hahead
    refine ⟨⟨h.le, by simp, by simpa [Phase.ahead, Pass.next] using hahead, by simp⟩, ?_⟩
    show (s.conn.remove (bytes "jobs") _).2.find (bytes "jobs") id = _
    rw [hk, Option.getD_some, find_remove_ne fun heq => hne heq.symm]
    rfl
  -- A failed job goes to a table of its own.
  | @bury p row what job payload hphase hjob hpayload =>
    have hne : bytes "jobs" ≠ bytes "failed_jobs" := by decide
    have hahead := h.ahead
    rw [hphase] at hahead
    refine ⟨⟨?_, by simp, by simpa [Phase.ahead] using hahead, ?_⟩, find_insert_ne hne _ id⟩
    · show id ≤ (s.conn.insert (bytes "failed_jobs") _).2.nextId (bytes "jobs")
      rw [nextId_insert_ne hne]
      exact h.le
    · intro p' row' pt'' hp
      simp only [State.phase_logged, State.phase_goto, Phase.holding.injEq] at hp
      exact hp.2.1 ▸ h.held p row _ hphase
  | @requeue p row what attempts hphase hattempts =>
    obtain ⟨k, hk, hnot, hrow⟩ := hs.held p row _ hphase
    have hahead := h.ahead
    have hne := h.held p row _ hphase
    rw [hk, ne_eq, Option.some_inj] at hne
    rw [hphase] at hahead
    refine ⟨⟨?_, by simp, by simpa [Phase.ahead, Pass.next] using hahead, by simp⟩, ?_⟩
    · show id ≤ (s.conn.update (bytes "jobs") _ _).2.nextId (bytes "jobs")
      rw [hk, Option.getD_some, update_of_find hrow]
      exact h.le
    · show (s.conn.update (bytes "jobs") _ _).2.find (bytes "jobs") id = _
      rw [hk, Option.getD_some, update_of_find hrow, find_overwrite_ne fun heq => hne heq.symm]
      rfl

/-- Events and failed jobs stay. -/
theorem Move.grows (hmove : Move q s s') : s.log ⊆ s'.log ∧
    s.conn.tables (bytes "failed_jobs") ⊆ s'.conn.tables (bytes "failed_jobs") := by
  have hne : bytes "failed_jobs" ≠ bytes "jobs" := by decide
  cases hmove with
  | tick seconds => exact ⟨List.Subset.refl _, List.Subset.refl _⟩
  | push row e =>
    refine ⟨List.subset_cons_self _ _, ?_⟩
    show _ ⊆ (s.conn.insert (bytes "jobs") row).2.tables (bytes "failed_jobs")
    rw [tables_insert_ne hne]
    exact List.Subset.refl _
  | snapshot hphase => exact ⟨List.Subset.refl _, List.Subset.refl _⟩
  | leave hphase hlog => exact ⟨hlog, List.Subset.refl _⟩
  | skip hphase hrest => exact ⟨List.Subset.refl _, List.Subset.refl _⟩
  | @claim p row rest k hphase hrest hid hstored =>
    refine ⟨List.Subset.refl _, ?_⟩
    show _ ⊆ (s.conn.overwrite (bytes "jobs") k _).tables (bytes "failed_jobs")
    rw [tables_overwrite_ne hne]
    exact List.Subset.refl _
  | advance hphase hcalled hburied hlog => exact ⟨hlog, List.Subset.refl _⟩
  | remove hphase hlog hpt =>
    refine ⟨hlog, ?_⟩
    show _ ⊆ (s.conn.remove (bytes "jobs") _).2.tables (bytes "failed_jobs")
    rw [tables_remove_ne hne]
    exact List.Subset.refl _
  -- The only move that writes to this table, and it appends.
  | bury hphase hjob hpayload =>
    refine ⟨List.subset_cons_self _ _, ?_⟩
    show _ ⊆ (s.conn.insert (bytes "failed_jobs") _).2.tables (bytes "failed_jobs")
    rw [tables_insert]
    exact List.subset_append_left _ _
  | @requeue p row what attempts hphase hattempts =>
    refine ⟨List.Subset.refl _, ?_⟩
    show _ ⊆ (s.conn.update (bytes "jobs") _ _).2.tables (bytes "failed_jobs")
    rw [MemoryConnection.update]
    split
    · exact List.Subset.refl _
    · show _ ⊆ (s.conn.overwrite (bytes "jobs") _ _).tables (bytes "failed_jobs")
      rw [tables_overwrite_ne hne]
      exact List.Subset.refl _

theorem Buried.mono (h : Buried s row id) (hlog : s.log ⊆ s'.log)
    (hfailed : s.conn.tables (bytes "failed_jobs") ⊆ s'.conn.tables (bytes "failed_jobs")) :
    Buried s' row id := by
  obtain ⟨hevent, f, hf, hcells⟩ := h
  exact ⟨hlog hevent, f, hfailed hf, hcells⟩

/-- A fate stands while the job is not touched. -/
theorem Fate.mono (h : Fate s row id) (hstored : storedRow s' id = storedRow s id)
    (hmove : Move q s s') : Fate s' row id := by
  obtain ⟨hlog, hfailed⟩ := hmove.grows
  cases h with
  | removed hgone hdone => exact .removed (hstored.trans hgone) (hlog hdone)
  | moved hgone hburied => exact .moved (hstored.trans hgone) (hburied.mono hlog hfailed)
  | requeued stored attempts hrow hread hcounted hreleased =>
    exact .requeued stored attempts (hstored.trans hrow) hread hcounted hreleased

/-! ### The job at hand -/

/-- The row that a failed job is requeued as, in its cells. -/
theorem requeuedRow_cells (q : DbQueue) (row : Row) (now attempts id : Int) :
    let stored := (requeuedRow q now row attempts).set (bytes "id") (.int id)
    stored.getInt (bytes "attempts") = some attempts ∧
      stored.getInt (bytes "reserved_at") = some 0 := by
  simp only [requeuedRow, Row.getInt, Row.get?_set]
  exact ⟨rfl, rfl⟩

/-- **What becomes of the job at hand**: the pass stays with it, or is done with it. -/
theorem Underway.fate (h : Underway s) {p : Pass Row} {pt : Point}
    (hphase : s.phase () = .holding p row pt) (hid : rowId row = some id) (hmove : Move q s s') :
    (∃ p' pt', s'.phase () = .holding p' row pt' ∧ (pt.Called → pt'.Called)) ∨
      (Past s' id ∧ Free s' id ∧ (pt.Called → Fate s' row id)) := by
  obtain ⟨k, hk, hnot, hrow⟩ := h.held p row pt hphase
  obtain rfl : k = id := Option.some.inj (hk.symm.trans hid)
  have hle := h.own.le_of_find hrow
  cases hmove with
  | tick seconds => exact .inl ⟨p, pt, hphase, id⟩
  | push row' e => exact .inl ⟨p, pt, hphase, id⟩
  | snapshot hphase' => exact absurd (hphase.symm.trans hphase') (by simp)
  | leave hphase' hlog => exact absurd (hphase.symm.trans hphase') (by simp)
  | skip hphase' hrest => exact absurd (hphase.symm.trans hphase') (by simp)
  | claim hphase' hrest hid' hstored => exact absurd (hphase.symm.trans hphase') (by simp)
  | advance hphase' hcalled hburied hlog =>
    obtain ⟨rfl, rfl, rfl⟩ := Phase.holding.inj (hphase.symm.trans hphase')
    exact .inl ⟨_, _, State.phase_goto s _, hcalled⟩
  -- The row is gone. A job that was called is moved first, or its end is in the log.
  | @remove p' row' pt' hphase' log hlog hpt =>
    obtain ⟨rfl, rfl, rfl⟩ := Phase.holding.inj (hphase.symm.trans hphase')
    have hgone : (s.conn.remove (bytes "jobs") ((rowId row).getD 0)).2.find (bytes "jobs") k
        = none := by
      rw [hk, Option.getD_some, find_remove_self]
    refine .inr ⟨⟨hle, by simp, by simpa [Phase.ahead, Pass.next] using hnot, by simp⟩, ?_, ?_⟩
    · intro stored hstored
      exact absurd (hgone.symm.trans hstored) (by simp)
    · intro hcalled
      rcases hpt hcalled with rfl | hdone
      · have hburied := h.buried p row k hphase hk
        refine .moved hgone (hburied.mono hlog ?_)
        show _ ⊆ (s.conn.remove (bytes "jobs") _).2.tables (bytes "failed_jobs")
        rw [tables_remove_ne (by decide)]
        exact List.Subset.refl _
      · rw [hk] at hdone
        exact .removed hgone hdone
  | bury hphase' hjob hpayload =>
    obtain ⟨rfl, rfl, rfl⟩ := Phase.holding.inj (hphase.symm.trans hphase')
    exact .inl ⟨p, .buried, by simp, fun _ => trivial⟩
  -- The row is unreserved and counted once more.
  | @requeue p' row' what attempts hphase' hattempts =>
    obtain ⟨rfl, rfl, rfl⟩ := Phase.holding.inj (hphase.symm.trans hphase')
    obtain ⟨hcounted, hreleased⟩ := requeuedRow_cells q row p.now (attempts + 1) k
    have hstored : (s.conn.update (bytes "jobs") ((rowId row).getD 0)
        (requeuedRow q p.now row (attempts + 1))).2.find (bytes "jobs") k
          = some ((requeuedRow q p.now row (attempts + 1)).set (bytes "id") (.int k)) := by
      rw [hk, Option.getD_some, update_of_find hrow, find_overwrite hrow]
    refine .inr ⟨⟨?_, by simp, by simpa [Phase.ahead, Pass.next] using hnot, by simp⟩, ?_, ?_⟩
    · show k ≤ (s.conn.update (bytes "jobs") _ _).2.nextId (bytes "jobs")
      rw [hk, Option.getD_some, update_of_find hrow]
      exact hle
    · intro stored hfound
      obtain rfl := Option.some.inj (hstored.symm.trans hfound)
      rw [columnOrZero, hreleased]
      rfl
    · exact fun _ => .requeued _ attempts hstored hattempts hcounted hreleased

/-! ### The whole pass -/

/-- The moves of a run whose actions are contained. -/
theorem moves_of_trace (hpass : ∀ a ∈ as, OnePass a)
    (h : Trace (Guarded (Contained q) (Steps (step fun _ => q))) s as s') :
    Trace (fun s _ s' => Move q s s') s as s' := by
  induction h with
  | nil s => exact .nil s
  | cons hstep _ ih =>
    exact .cons (move_of_step (hpass _ List.mem_cons_self) hstep.1 hstep.2)
      (ih fun a ha => hpass a (List.mem_cons_of_mem _ ha))

theorem Past.trace (h : Past s id) (hs : Underway s)
    (hrun : Trace (fun s _ s' => Move q s s') s as s') : storedRow s' id = storedRow s id := by
  induction hrun with
  | nil s => rfl
  | cons hmove _ ih =>
    obtain ⟨hpast, hstored⟩ := h.move hs hmove
    exact (ih hpast (hs.move hmove)).trans hstored

theorem Underway.trace (h : Underway s) (hrun : Trace (fun s _ s' => Move q s s') s as s') :
    Underway s' :=
  hrun.invariant (fun _ _ _ hs hmove => hs.move hmove) h

/-- What a pass makes of the job at hand until it exits. -/
theorem Underway.settled (h : Underway s) {p : Pass Row} {pt : Point}
    (hphase : s.phase () = .holding p row pt) (hid : rowId row = some id)
    (hrun : Trace (fun s _ s' => Move q s s') s as s') (hexit : s'.phase () = .idle) :
    Free s' id ∧ (pt.Called → Fate s' row id) := by
  -- The pass is still with the job, or done with it and its fate stands.
  have hinv : Underway s' ∧
      ((∃ p' pt', s'.phase () = .holding p' row pt' ∧ (pt.Called → pt'.Called)) ∨
        (Past s' id ∧ Free s' id ∧ (pt.Called → Fate s' row id))) := by
    refine hrun.invariant (P := fun t => Underway t ∧
      ((∃ p' pt', t.phase () = .holding p' row pt' ∧ (pt.Called → pt'.Called)) ∨
        (Past t id ∧ Free t id ∧ (pt.Called → Fate t row id)))) ?_
      ⟨h, .inl ⟨p, pt, hphase, fun hcalled => hcalled⟩⟩
    rintro t - t' ⟨ht, hwhere⟩ hmove
    refine ⟨ht.move hmove, ?_⟩
    rcases hwhere with ⟨p', pt', hp', hcalled⟩ | ⟨hpast, hfree, hfate⟩
    · rcases ht.fate hp' hid hmove with ⟨p'', pt'', hp'', hcalled'⟩ | ⟨hpast, hfree, hfate⟩
      · exact .inl ⟨p'', pt'', hp'', fun hc => hcalled' (hcalled hc)⟩
      · exact .inr ⟨hpast, hfree, fun hc => hfate (hcalled hc)⟩
    · obtain ⟨hpast', hstored⟩ := hpast.move ht hmove
      refine .inr ⟨hpast', ?_, fun hc => (hfate hc).mono hstored hmove⟩
      rw [Free, hstored]
      exact hfree
  rcases hinv.2 with ⟨p', pt', hp', -⟩ | ⟨-, hfree, hfate⟩
  · rw [hexit] at hp'
    cases hp'
  · exact ⟨hfree, hfate⟩

/-- Behind its exit a pass does nothing. -/
theorem moves_of_idle (hidle : s.phase () = .idle) (hpass : ∀ a ∈ as, OnePass a)
    (h : Trace (Steps (step fun _ => q)) s as s') : Trace (fun s _ s' => Move q s s') s as s' := by
  induction h with
  | nil s => exact .nil s
  | @cons s s₁ s' a as hstep _ ih =>
    have hrest := fun a ha => hpass a (List.mem_cons_of_mem _ ha)
    have hin := hpass a List.mem_cons_self
    simp only [Steps] at hstep
    cases a with
    | tick seconds =>
      cases hstep
      exact .cons (.tick seconds) (ih hidle hrest)
    | push job payload delay =>
      cases hstep
      exact .cons (.push _ _) (ih hidle hrest)
    | enter w arg => exact hin.elim
    | crash w => exact hin.elim
    | _ =>
      simp only [step, hidle] at hstep
      cases hstep

/-- **A claim that the pass leaves with stays**: nothing takes it back. -/
theorem reserved_of_escape (h : Underway s) {p : Pass Row} {pt : Point}
    (hphase : s.phase () = .holding p row pt) (hid : rowId row = some id)
    (hpass : ∀ a ∈ as, OnePass a)
    (hrun : Trace (Steps (step fun _ => q)) (s.goto () .idle) as s') : ¬ Free s' id := by
  obtain ⟨k, hk, -, hrow⟩ := h.held p row pt hphase
  obtain rfl : k = id := Option.some.inj (hk.symm.trans hid)
  have hnow : p.now ≠ 0 := h.nonzero _ (by rw [hphase]; rfl)
  have hidle : Underway (s.goto () .idle) := by
    refine h.of_free h.own ?_ ?_ ?_ ?_ <;> simp [Phase.now?, Phase.ahead]
  have hpast : Past (s.goto () .idle) k :=
    ⟨h.own.le_of_find hrow, by simp, by simp [Phase.ahead], by simp⟩
  have hstored := hpast.trace hidle (moves_of_idle (State.phase_goto s _) hpass hrun)
  intro hfree
  have hzero := hfree _ (hstored.trans hrow)
  rw [columnOrZero, claimedRow, Row.getInt, Row.get?_set, Row.get?_set] at hzero
  exact hnow hzero

/-- The pass from any of its moments on. -/
theorem settles_iff_of_underway (h : Underway s) (hpass : ∀ a ∈ as, OnePass a)
    (hrun : Trace (Steps (step fun _ => q)) s as s') (hexit : s'.phase () = .idle) :
    Settles q s as s' ↔ Trace (Guarded (Contained q) (Steps (step fun _ => q))) s as s' := by
  constructor
  · intro hsettles
    rcases hrun.guarded_or_violated (G := Contained q) with hguarded |
      ⟨before, after, a, s₁, s₂, rfl, hbefore, hnot, hstep, hafter⟩
    · exact hguarded
    · -- The first exception that is not caught leaves a claim behind.
      obtain ⟨p, row, pt, hphase, rfl⟩ := escape_of_step hnot hstep
      have hbeforePass : ∀ a ∈ before, OnePass a := fun a ha =>
        hpass a (List.mem_append_left _ ha)
      have hafterPass : ∀ a ∈ after, OnePass a := fun a ha =>
        hpass a (List.mem_append_right _ (List.mem_cons_of_mem _ ha))
      have hunder := h.trace (moves_of_trace hbeforePass hbefore)
      obtain ⟨id, hid, -⟩ := hunder.held p row pt hphase
      have hstands : Stands q s (before ++ a :: after) row pt :=
        ⟨before, s₁, p, List.prefix_append _ _, hbefore.of_guarded, hphase⟩
      exact absurd (hsettles row pt id hstands hid).1
        (reserved_of_escape hunder hphase hid hafterPass hafter)
  · rintro hguarded row pt id ⟨before, s₁, p, ⟨after, rfl⟩, hbefore, hphase⟩ hid
    obtain ⟨s₁', hfirst, hlast⟩ := hguarded.split
    -- The steps are a function, so the guarded run passes the same state.
    obtain rfl : s₁' = s₁ := by
      have hsame := (trace_iff_run.mp hfirst.of_guarded).symm.trans (trace_iff_run.mp hbefore)
      exact Option.some.inj hsame
    have hunder := h.trace (moves_of_trace (fun a ha => hpass a (List.mem_append_left _ ha)) hfirst)
    have hmoves := moves_of_trace (fun a ha => hpass a (List.mem_append_right _ ha)) hlast
    obtain ⟨hfree, hfate⟩ := hunder.settled hphase hid hmoves hexit
    refine ⟨hfree, ?_⟩
    rintro rfl
    exact hfate trivial

/-- A worker that has nothing to do with the table `c` at the time `clock`. -/
def waiting (c : MemoryConnection) (clock : Int) : State Unit := ⟨c, clock, fun _ => .idle, []⟩

/-- The pass before its first row. -/
theorem underway_entered {c : MemoryConnection} (hown : OwnIds (bytes "jobs") c) {clock now : Int}
    (hnow : now ≠ 0) : Underway ((waiting c clock).goto () (.entered now)) where
  own := hown
  nonzero t ht := by
    simp only [State.phase_goto, Phase.now?, Option.some.injEq] at ht
    exact ht ▸ hnow
  nodup := by simp [Phase.ahead]
  ahead := by simp [Phase.ahead]
  held := by simp
  buried := by simp

/-- The loop is not entered by the first action of a pass. -/
theorem stands_cons {s₁ : State Unit} {pt : Point} (hstep : step (fun _ => q) s a = some s₁)
    (hidle : s.phase () = .idle) : Stands q s (a :: as) row pt ↔ Stands q s₁ as row pt := by
  constructor
  · rintro ⟨before, t, p, hprefix, hbefore, hphase⟩
    cases hbefore with
    | nil =>
      rw [hidle] at hphase
      cases hphase
    | cons hfirst hrest =>
      obtain ⟨rfl, hprefix'⟩ := List.cons_prefix_cons.mp hprefix
      obtain rfl := Option.some.inj (Eq.trans (Eq.symm hstep) hfirst)
      exact ⟨_, t, p, hprefix', hrest, hphase⟩
  · rintro ⟨before, t, p, hprefix, hbefore, hphase⟩
    exact ⟨a :: before, t, p, List.cons_prefix_cons.mpr ⟨rfl, hprefix⟩, .cons hstep hbefore,
      hphase⟩

/-- **A pass leaves no claim behind exactly if it raises nothing that it does not catch.** -/
theorem settles_iff {c : MemoryConnection} (hown : OwnIds (bytes "jobs") c) {clock : Int}
    (hclock : 0 < clock) {arg : Int} (hpass : ∀ a ∈ as, OnePass a)
    (hrun : Trace (Steps (step fun _ => q)) (waiting c clock) (.enter () arg :: as) s')
    (hexit : s'.phase () = .idle) :
    Settles q (waiting c clock) (.enter () arg :: as) s' ↔
      Trace (Guarded (Contained q) (Steps (step fun _ => q))) (waiting c clock)
        (.enter () arg :: as) s' := by
  cases hrun with
  | @cons _ s₁ _ _ _ henter hrest =>
    have hfirst : some ((waiting c clock).goto () (.entered (if arg = 0 then clock else arg)))
        = some s₁ := henter
    have hunder : Underway s₁ := by
      rw [← Option.some.inj hfirst]
      refine underway_entered hown ?_
      split <;> omega
    have hguarded : Trace (Guarded (Contained q) (Steps (step fun _ => q))) (waiting c clock)
        (.enter () arg :: as) s' ↔
          Trace (Guarded (Contained q) (Steps (step fun _ => q))) s₁ as s' := by
      constructor
      · rintro (_ | ⟨⟨-, hstep⟩, hguarded⟩)
        obtain rfl := Option.some.inj (Eq.trans (Eq.symm henter) hstep)
        exact hguarded
      · exact fun hguarded => .cons ⟨trivial, henter⟩ hguarded
    have hsettles : Settles q (waiting c clock) (.enter () arg :: as) s' ↔ Settles q s₁ as s' := by
      have hstands : ∀ row pt, Stands q (waiting c clock) (.enter () arg :: as) row pt ↔
          Stands q s₁ as row pt := fun _ _ => stands_cons henter rfl
      simp only [Settles, hstands]
    rw [hguarded, hsettles]
    exact settles_iff_of_underway hunder hpass hrest hexit

/-- A table with one job. -/
def oneJob : MemoryConnection :=
  (MemoryConnection.empty.insert (bytes "jobs") (pushedRow (bytes "mail") [] 0 1000)).2

/-- A queue with a handler for every job. -/
def anyHandler : DbQueue := { handlers := fun _ => true }

/-- **An exception of another type keeps the claim**: the job is reserved, and its attempt is not
counted. -/
theorem other_exception_keeps_claim :
    ∃ s', Trace (Steps (step fun _ => anyHandler)) (waiting oneJob 1000)
        [.enter () 0, .snapshot (), .look (), .dispatch (), .throwsOther ()] s' ∧
      s'.phase () = .idle ∧
      (storedRow s' 1).any (fun row => row.getInt (bytes "reserved_at") = some 1000 ∧
        row.getInt (bytes "attempts") = some 0) ∧
      ¬ Settles anyHandler (waiting oneJob 1000)
        [.enter () 0, .snapshot (), .look (), .dispatch (), .throwsOther ()] s' := by
  have h : (run (step fun _ => anyHandler) (waiting oneJob 1000)
      [.enter () 0, .snapshot (), .look (), .dispatch ()]).any (fun s₁ => InsideHandler s₁ () 1 ∧
        (run (step fun _ => anyHandler) s₁ [.throwsOther ()]).any fun s' => s'.phase () = .idle ∧
          (storedRow s' 1).any fun row => row.getInt (bytes "reserved_at") = some 1000 ∧
            row.getInt (bytes "attempts") = some 0) = true := by
    decide
  obtain ⟨s₁, hs₁, hp₁⟩ := Option.any_eq_true _ _ |>.mp h
  obtain ⟨⟨row, hrow, hid⟩, h'⟩ := of_decide_eq_true hp₁
  obtain ⟨s', hs', hp'⟩ := Option.any_eq_true _ _ |>.mp h'
  obtain ⟨hidle, hstored⟩ := of_decide_eq_true hp'
  obtain ⟨p, hphase⟩ := holding_of_running? hrow
  have hbefore := trace_iff_run.mpr hs₁
  refine ⟨s', hbefore.append (trace_iff_run.mpr hs'), hidle, hstored, fun hsettles => ?_⟩
  have hfree := (hsettles row .running 1 ⟨_, s₁, p, ⟨[.throwsOther ()], rfl⟩, hbefore, hphase⟩
    hid).1
  obtain ⟨stored, hfound, hcells⟩ := Option.any_eq_true _ _ |>.mp hstored
  have hzero := hfree stored hfound
  rw [columnOrZero, (of_decide_eq_true hcells).1] at hzero
  exact absurd hzero (by decide)

/-- A handler that fails with a `std::exception`: the job is requeued. -/
theorem settles_iff_applies :
    ∃ s', Trace (Steps (step fun _ => anyHandler)) (waiting oneJob 1000)
        [.enter () 0, .snapshot (), .look (), .dispatch (), .throws () [], .settle (), .look ()]
        s' ∧
      Settles anyHandler (waiting oneJob 1000)
        [.enter () 0, .snapshot (), .look (), .dispatch (), .throws () [], .settle (), .look ()]
        s' := by
  have h : (run (guard (Contained anyHandler) (step fun _ => anyHandler)) (waiting oneJob 1000)
      [.enter () 0, .snapshot (), .look (), .dispatch (), .throws () [], .settle (),
        .look ()]).any (fun s' => s'.phase () = .idle) = true := by
    decide
  obtain ⟨s', hs', hp'⟩ := Option.any_eq_true _ _ |>.mp h
  have hguarded := trace_of_run_guard hs'
  have hown : OwnIds (bytes "jobs") oneJob := (ownIds_of_tables_eq_nil rfl).insert _
  exact ⟨s', hguarded.of_guarded, (settles_iff hown (by decide)
    (by simp [OnePass]) hguarded.of_guarded (of_decide_eq_true hp')).mpr hguarded⟩

end CppLaravel.Queue
