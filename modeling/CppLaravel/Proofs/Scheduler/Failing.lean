import CppLaravel.Proofs.Scheduler.Lifetimes

/-!
# `CppLaravel.Proofs.Scheduler.Failing`: tasks beside one that throws

An exception leaves `run_pending` at the task that threw, so the tasks behind it are passed over at
that tick. `fires_alike_iff` says that this is all: the tasks of a name fire at the ticks at which
they would fire if nothing ever threw, exactly if none of them is due at a tick that passes over it.

`runNamed` is the reference: what the tasks of one name do at an instant by themselves, where they
know nothing but their last run.
-/

set_option autoImplicit false

namespace CppLaravel.Scheduler

open CppLaravel.Lib
open CppLaravel.Database

/-! ### One tick, from a place on -/

section
variable {σ : Type} (S : Stamps σ) (now : Int) (throws : Nat → Bool)

/-- What `run_pending` fires from the task at the place `i` on, and the stamps after it. -/
def firesFrom (i : Nat) (ts : List Task) (s : σ) : List (Nat × Int) × σ :=
  let r := runTasks S now throws i ts ⟨s, []⟩ 0
  (r.1.log.reverse, r.1.stamps)

/-- How many tasks ran before does not matter to what runs. -/
theorem runTasks_ran (i : Nat) (ts : List Task) (st : State σ) (ran ran' : Nat) :
    (runTasks S now throws i ts st ran).1 = (runTasks S now throws i ts st ran').1 := by
  induction ts generalizing i st ran ran' with
  | nil => rfl
  | cons t ts ih =>
    rw [runTasks, runTasks]
    dsimp only
    split
    · split
      · rfl
      · exact ih _ _ _ _
    · exact ih _ _ _ _

theorem firesFrom_cons (i : Nat) (t : Task) (ts : List Task) (s : σ) :
    firesFrom S now throws i (t :: ts) s =
      if t.due now (S.lastRun s t.name) then
        if throws i then ([(i, now)], S.recordRun s t.name now)
        else
          ((i, now) :: (firesFrom S now throws (i + 1) ts (S.recordRun s t.name now)).1,
            (firesFrom S now throws (i + 1) ts (S.recordRun s t.name now)).2)
      else firesFrom S now throws (i + 1) ts s := by
  simp only [firesFrom, runTasks]
  split
  · split
    · rfl
    · have happend := runTasks_append S now throws (i + 1) ts (S.recordRun s t.name now) []
        [(i, now)] (0 + 1)
      rw [List.nil_append] at happend
      rw [happend]
      dsimp only
      rw [runTasks_ran S now throws (i + 1) ts _ (0 + 1) 0, List.reverse_append]
      rfl
  · rfl

/-- The tasks that `run_pending` does not come to. -/
def unreached : Nat → List Task → σ → List Task
  | _, [], _ => []
  | i, t :: ts, s =>
    if t.due now (S.lastRun s t.name) then
      if throws i then ts else unreached (i + 1) ts (S.recordRun s t.name now)
    else unreached (i + 1) ts s

/-- Nothing is fired before the place where the loop stands. -/
theorem le_of_mem_firesFrom {i : Nat} {ts : List Task} {s : σ} {c : Nat} {run : Int}
    (h : (c, run) ∈ (firesFrom S now throws i ts s).1) : i ≤ c := by
  induction ts generalizing i s with
  | nil => cases h
  | cons t ts ih =>
    rw [firesFrom_cons] at h
    split at h
    · split at h
      · obtain rfl := (Prod.mk.inj (List.mem_singleton.mp h)).1
        exact Nat.le_refl _
      · rcases List.mem_cons.mp h with heq | hmem
        · obtain rfl := (Prod.mk.inj heq).1
          exact Nat.le_refl _
        · exact Nat.le_of_succ_le (ih hmem)
    · exact Nat.le_of_succ_le (ih h)

/-- What is behind a task that is fired and throws is not reached. -/
theorem unreached_of_throw {i : Nat} {ts : List Task} {s : σ} {c : Nat} (hthrows : throws c = true)
    (h : (c, now) ∈ (firesFrom S now throws i ts s).1) :
    unreached S now throws i ts s = ts.drop (c + 1 - i) := by
  induction ts generalizing i s with
  | nil => cases h
  | cons t ts ih =>
    rw [firesFrom_cons] at h
    rw [unreached]
    split at h
    · rename_i hdue
      rw [if_pos hdue]
      split at h
      · rename_i hthrow
        obtain rfl := (Prod.mk.inj (List.mem_singleton.mp h)).1
        rw [if_pos hthrow, Nat.add_sub_cancel_left]
        rfl
      · rename_i hthrow
        rw [if_neg hthrow]
        rcases List.mem_cons.mp h with heq | hmem
        · obtain rfl := (Prod.mk.inj heq).1
          exact absurd hthrows hthrow
        · have hle := le_of_mem_firesFrom S now throws hmem
          rw [ih hmem, show c + 1 - i = (c + 1 - (i + 1)) + 1 by omega, List.drop_succ_cons]
    · rename_i hdue
      have hle := le_of_mem_firesFrom S now throws h
      rw [if_neg hdue, ih h, show c + 1 - i = (c + 1 - (i + 1)) + 1 by omega, List.drop_succ_cons]

/-- All is reached unless a task is fired and throws. -/
theorem unreached_of_quiet {i : Nat} {ts : List Task} {s : σ}
    (h : ∀ c, throws c = true → (c, now) ∉ (firesFrom S now throws i ts s).1) :
    unreached S now throws i ts s = [] := by
  induction ts generalizing i s with
  | nil => rfl
  | cons t ts ih =>
    rw [firesFrom_cons] at h
    rw [unreached]
    split at h
    · rename_i hdue
      rw [if_pos hdue]
      split at h
      · rename_i hthrow
        exact absurd (List.mem_singleton.mpr rfl) (h i hthrow)
      · rename_i hthrow
        rw [if_neg hthrow]
        exact ih fun c hc hmem => h c hc (List.mem_cons_of_mem _ hmem)
    · rename_i hdue
      rw [if_neg hdue]
      exact ih h

end

/-! ### The tasks of a name by themselves -/

section
variable (name : Bytes) (now : Int)

/-- What the tasks of a name fire at an instant from the task at the place `i` on, and their last
run after it, where nothing throws. -/
def runNamed : Nat → List Task → Int → List (Nat × Int) × Int
  | _, [], last => ([], last)
  | i, t :: ts, last =>
    if t.name = name ∧ t.due now last then
      ((i, now) :: (runNamed (i + 1) ts now).1, (runNamed (i + 1) ts now).2)
    else runNamed (i + 1) ts last

/-- Some task of the name is due after a last run. -/
def SomeDue (ts : List Task) (last : Int) : Prop := ∃ t ∈ ts, t.name = name ∧ t.due now last = true

variable {name now}

theorem runNamed_of_idle {ts : List Task} {last : Int} (h : ¬ SomeDue name now ts last) (i : Nat) :
    runNamed name now i ts last = ([], last) := by
  induction ts generalizing i with
  | nil => rfl
  | cons t ts ih =>
    have hhead : ¬ (t.name = name ∧ t.due now last = true) := fun ht =>
      h ⟨t, List.mem_cons_self, ht⟩
    have htail : ¬ SomeDue name now ts last := fun ⟨t', ht', hdue⟩ =>
      h ⟨t', List.mem_cons_of_mem _ ht', hdue⟩
    rw [runNamed, if_neg hhead, ih htail]

theorem runNamed_of_due {ts : List Task} {last : Int} (h : SomeDue name now ts last) (i : Nat) :
    (runNamed name now i ts last).1 ≠ [] := by
  induction ts generalizing i with
  | nil =>
    obtain ⟨t, ht, -⟩ := h
    cases ht
  | cons t ts ih =>
    rw [runNamed]
    by_cases hhead : t.name = name ∧ t.due now last = true
    · rw [if_pos hhead]
      exact List.cons_ne_nil _ _
    · rw [if_neg hhead]
      obtain ⟨t', ht', hdue⟩ := h
      cases ht' with
      | head => exact absurd hdue hhead
      | tail _ ht' => exact ih ⟨t', ht', hdue⟩ (i + 1)

end

/-- The runs of the tasks of a name. -/
def ofName (tasks : List Task) (name : Bytes) (fired : List (Nat × Int)) : List (Nat × Int) :=
  fired.filter fun run => (tasks[run.1]?).any fun t => t.name = name

section
variable {table : Bytes} {tasks : List Task}

theorem ofName_cons {i : Nat} {t : Task} (ht : tasks[i]? = some t) (name : Bytes) (now : Int)
    (fired : List (Nat × Int)) :
    ofName tasks name ((i, now) :: fired) =
      if t.name = name then (i, now) :: ofName tasks name fired else ofName tasks name fired := by
  simp only [ofName, List.filter_cons, ht, Option.any_some, decide_eq_true_eq]

/-- The tasks of a name do at a tick what they do by themselves, as far as the tick goes; the rest
is left to those that are not reached. -/
theorem firesFrom_ofName (now : Int) (throws : Nat → Bool) {i : Nat} {ts : List Task}
    (hts : tasks.drop i = ts) {s : Schedule} (hs : s.Valid table) (name : Bytes) :
    let r := firesFrom (scheduleStamps table) now throws i ts s
    let rest := unreached (scheduleStamps table) now throws i ts s
    r.2.Valid table ∧
      ∃ k, runNamed name now i ts (s.lastRun table name) =
        (ofName tasks name r.1 ++ (runNamed name now k rest (r.2.lastRun table name)).1,
          (runNamed name now k rest (r.2.lastRun table name)).2) := by
  induction ts generalizing i s with
  | nil => exact ⟨hs, 0, rfl⟩
  | cons t ts ih =>
    have ht : tasks[i]? = some t := by
      rw [← List.head?_drop, hts]
      rfl
    have hts : tasks.drop (i + 1) = ts := drop_succ_of_drop hts
    simp only [firesFrom_cons, unreached]
    by_cases hdue : t.due now (s.lastRun table t.name) = true
    · have hdue' : t.due now ((scheduleStamps table).lastRun s t.name) = true := hdue
      have hrecord := hs.recordRun t.name now
      have hlast := Schedule.lastRun_recordRun hs t.name now name
      simp only [if_pos hdue', runNamed]
      by_cases hthrow : throws i = true
      · -- The exception: the others are left.
        simp only [if_pos hthrow]
        refine ⟨hrecord, i + 1, ?_⟩
        have hlast : ((scheduleStamps table).recordRun s t.name now).lastRun table name =
            if name = t.name then now else s.lastRun table name := hlast
        rw [hlast, ofName_cons ht]
        by_cases hname : t.name = name
        · subst hname
          rw [if_pos ⟨rfl, hdue⟩, if_pos rfl, if_pos rfl]
          rfl
        · rw [if_neg fun h => hname h.1, if_neg hname, if_neg (Ne.symm hname)]
          rfl
      · simp only [if_neg hthrow]
        obtain ⟨hvalid, k, hk⟩ := ih hts hrecord
        refine ⟨hvalid, k, ?_⟩
        rw [hlast] at hk
        rw [ofName_cons ht]
        by_cases hname : t.name = name
        · subst hname
          rw [if_pos rfl] at hk
          rw [if_pos ⟨rfl, hdue⟩, if_pos rfl, hk]
          rfl
        · rw [if_neg (Ne.symm hname)] at hk
          rw [if_neg fun h => hname h.1, if_neg hname, hk]
          rfl
    · have hdue' : ¬ t.due now ((scheduleStamps table).lastRun s t.name) = true := hdue
      have hidle : ¬ (t.name = name ∧ t.due now (s.lastRun table name) = true) := by
        rintro ⟨rfl, h⟩
        exact hdue h
      simp only [if_neg hdue', runNamed]
      rw [if_neg hidle]
      exact ih hts hs

end

/-! ### Ticks one after the other -/

/-- The tick at the same instant, where nothing throws. -/
def Tick.quiet (tick : Tick) : Tick := { tick with throws := fun _ => false }

section
variable (table : Bytes) (tasks : List Task) (name : Bytes)

/-- A task of the name is due at the tick, but a task before it is fired and throws. -/
def PassedOver (s : Schedule) (tick : Tick) : Prop :=
  let r := fire (scheduleStamps table) tasks s tick
  ∃ c, tick.throws c = true ∧ (c, tick.instant) ∈ r.1.fired ∧
    SomeDue name tick.instant (tasks.drop (c + 1)) (r.2.lastRun table name)

/-- Such a tick is among ticks one after the other. -/
def SomePassedOver : Schedule → List Tick → Prop
  | _, [] => False
  | s, tick :: ticks =>
    PassedOver table tasks name s tick ∨
      SomePassedOver (fire (scheduleStamps table) tasks s tick).2 ticks

/-- What the tasks of the name fire at each of the ticks. -/
def firesAt (s : Schedule) (ticks : List Tick) : List (List (Nat × Int)) :=
  (fireAll (scheduleStamps table) tasks s ticks).map fun r => ofName tasks name r.fired

variable {table tasks name}

/-- A tick passes over a task of the name if one that it does not reach is due. -/
theorem passedOver_iff (s : Schedule) (tick : Tick) :
    PassedOver table tasks name s tick ↔
      SomeDue name tick.instant
        (unreached (scheduleStamps table) tick.instant tick.throws 0 tasks s)
        ((fire (scheduleStamps table) tasks s tick).2.lastRun table name) := by
  constructor
  · rintro ⟨c, hthrows, hfired, hdue⟩
    rwa [unreached_of_throw _ _ _ hthrows hfired]
  · intro hdue
    by_cases hthrown : ∃ c, tick.throws c = true ∧
        (c, tick.instant) ∈ (fire (scheduleStamps table) tasks s tick).1.fired
    · obtain ⟨c, hthrows, hfired⟩ := hthrown
      rw [unreached_of_throw _ _ _ hthrows hfired] at hdue
      exact ⟨c, hthrows, hfired, hdue⟩
    · rw [unreached_of_quiet _ _ _ fun c hthrows hfired => hthrown ⟨c, hthrows, hfired⟩] at hdue
      obtain ⟨t, ht, -⟩ := hdue
      cases ht

/-- Where nothing throws, nothing is passed over. -/
theorem not_passedOver_quiet (s : Schedule) (tick : Tick) :
    ¬ PassedOver table tasks name s tick.quiet := by
  rintro ⟨c, hthrows, -⟩
  cases hthrows

theorem valid_fire {s : Schedule} (hs : s.Valid table) (tick : Tick) :
    (fire (scheduleStamps table) tasks s tick).2.Valid table :=
  (firesFrom_ofName tick.instant tick.throws (List.drop_zero : tasks.drop 0 = tasks) hs []).1

/-- At a tick that passes over none of them, the tasks of the name do what they do by
themselves. -/
theorem runNamed_of_not_passedOver {s : Schedule} (hs : s.Valid table) {tick : Tick}
    (h : ¬ PassedOver table tasks name s tick) :
    runNamed name tick.instant 0 tasks (s.lastRun table name) =
      (ofName tasks name (fire (scheduleStamps table) tasks s tick).1.fired,
        (fire (scheduleStamps table) tasks s tick).2.lastRun table name) := by
  obtain ⟨-, k, hk⟩ := firesFrom_ofName tick.instant tick.throws
    (List.drop_zero : tasks.drop 0 = tasks) hs name
  have hnone : ¬ SomeDue name tick.instant
      (unreached (scheduleStamps table) tick.instant tick.throws 0 tasks s)
      ((firesFrom (scheduleStamps table) tick.instant tick.throws 0 tasks s).2.lastRun
        table name) := fun hdue => h ((passedOver_iff s tick).mpr hdue)
  rw [runNamed_of_idle hnone k, List.append_nil] at hk
  exact hk

/-- At a tick that passes over one of them, they do less. -/
theorem runNamed_of_passedOver {s : Schedule} (hs : s.Valid table) {tick : Tick}
    (h : PassedOver table tasks name s tick) :
    (runNamed name tick.instant 0 tasks (s.lastRun table name)).1 ≠
      ofName tasks name (fire (scheduleStamps table) tasks s tick).1.fired := by
  obtain ⟨-, k, hk⟩ := firesFrom_ofName tick.instant tick.throws
    (List.drop_zero : tasks.drop 0 = tasks) hs name
  rw [passedOver_iff] at h
  intro hsame
  rw [hk] at hsame
  exact runNamed_of_due h k (List.append_right_eq_self.mp hsame)

/-- What the tasks of a name fire, in two schedules that tell the same last run of them: as much as
if nothing threw, exactly if none is passed over. -/
theorem firesAt_eq_iff {s s' : Schedule} (hs : s.Valid table) (hs' : s'.Valid table)
    (hlast : s.lastRun table name = s'.lastRun table name) (ticks : List Tick) :
    firesAt table tasks name s ticks = firesAt table tasks name s' (ticks.map Tick.quiet) ↔
      ¬ SomePassedOver table tasks name s ticks := by
  induction ticks generalizing s s' with
  | nil => exact iff_of_true rfl not_false
  | cons tick ticks ih =>
    have hnever : ¬ PassedOver table tasks name s' tick.quiet := not_passedOver_quiet s' tick
    have hquiet := runNamed_of_not_passedOver hs' hnever
    rw [← hlast] at hquiet
    show ofName tasks name (fire _ tasks s tick).1.fired :: firesAt table tasks name _ ticks =
        ofName tasks name (fire _ tasks s' tick.quiet).1.fired ::
          firesAt table tasks name _ (ticks.map Tick.quiet) ↔
      ¬ (PassedOver table tasks name s tick ∨ SomePassedOver table tasks name _ ticks)
    rw [List.cons.injEq, not_or]
    by_cases hpassed : PassedOver table tasks name s tick
    · refine iff_of_false (fun h => ?_) fun h => h.1 hpassed
      have hless := runNamed_of_passedOver hs hpassed
      have hinstant : tick.quiet.instant = tick.instant := rfl
      rw [hinstant] at hquiet
      rw [hquiet, h.1] at hless
      exact hless rfl
    · have hsame := runNamed_of_not_passedOver hs hpassed
      have hinstant : tick.quiet.instant = tick.instant := rfl
      rw [hinstant, hsame, Prod.mk.injEq] at hquiet
      rw [ih (valid_fire hs tick) (valid_fire hs' tick.quiet) hquiet.2]
      exact ⟨fun h => ⟨hpassed, h.2⟩, fun h => ⟨hquiet.1, h.2⟩⟩

end

end CppLaravel.Scheduler
