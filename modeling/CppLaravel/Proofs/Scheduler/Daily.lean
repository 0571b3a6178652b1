import CppLaravel.Proofs.Scheduler.Stamps

/-!
# `CppLaravel.Proofs.Scheduler.Daily`: a daily task fires once on a local date

`spaced_runTicks` is about all schedules: a task that has run before is due only by a last run
that is not before that one. So a task of `daily_at` that has fired at `r` fires again at `n`
only if the trigger of `n` lies between the two. On one date the two triggers differ by what the
clock is set back from `r` to `n` (`trigger_eq_of_date_eq`), and `daily_once_per_date` needs no
more than that no tick falls on the wrong side of it.
-/

set_option autoImplicit false

namespace CppLaravel.Scheduler

/-! ### The runs of a schedule -/

section Spaced
variable {σ : Type} (S : Stamps σ) (tasks : List Task) (instants : List Int)

/-- The state after a task has run. -/
def afterRun (i : Nat) (t : Task) (now : Int) (st : State σ) : State σ :=
  ⟨S.recordRun st.stamps t.name now, (i, now) :: st.log⟩

/-- What holds of the state at the instant `now`. -/
structure Spaced (now : Int) (st : State σ) : Prop where
  valid : S.Valid st.stamps
  past : ∀ run ∈ st.log, run.2 ≤ now
  stamped : ∀ run ∈ st.log, ∀ t, tasks[run.1]? = some t → run.2 ≤ S.lastRun st.stamps t.name
  due : ∀ run ∈ st.log, run.2 ∈ instants ∧
    ∀ t, tasks[run.1]? = some t → ∃ last, t.due run.2 last = true
  spaced : st.log.Pairwise fun later run => later.1 = run.1 →
    ∀ t, tasks[run.1]? = some t →
      run.2 ≤ later.2 ∧ ∃ last, run.2 ≤ last ∧ t.due later.2 last = true

variable {S tasks instants}

theorem Spaced.later {now now' : Int} {st : State σ} (h : Spaced S tasks instants now st)
    (hnow : now ≤ now') : Spaced S tasks instants now' st :=
  { h with past := fun run hrun => (h.past run hrun).trans hnow }

/-- A task of the schedule runs because it is due. -/
theorem Spaced.afterRun {now : Int} {st : State σ} (h : Spaced S tasks instants now st)
    (hnow : now ∈ instants) {i : Nat} {t : Task} (ht : tasks[i]? = some t)
    (hdue : t.due now (S.lastRun st.stamps t.name) = true) :
    Spaced S tasks instants now (afterRun S i t now st) where
  valid := S.valid_record t.name now h.valid
  past := by
    intro run hrun
    cases List.mem_cons.mp hrun with
    | inl hrun => rw [hrun]
    | inr hrun => exact h.past run hrun
  stamped := by
    intro run hrun t' ht'
    show run.2 ≤ S.lastRun (S.recordRun st.stamps t.name now) t'.name
    cases List.mem_cons.mp hrun with
    | inl hrun =>
      rw [hrun, ht, Option.some_inj] at ht'
      rw [hrun, ← ht', S.lastRun_self t.name now h.valid]
    | inr hrun =>
      -- Another run is stamped as before, or with the present instant.
      cases S.lastRun_other t.name now t'.name h.valid with
      | inl hold =>
        rw [hold]
        exact h.stamped run hrun t' ht'
      | inr hnew =>
        rw [hnew]
        exact h.past run hrun
  due := by
    intro run hrun
    cases List.mem_cons.mp hrun with
    | inl hrun =>
      rw [hrun]
      refine ⟨hnow, fun t' ht' => ?_⟩
      rw [ht, Option.some_inj] at ht'
      exact ⟨_, ht' ▸ hdue⟩
    | inr hrun => exact h.due run hrun
  spaced := by
    refine List.pairwise_cons.mpr ⟨?_, h.spaced⟩
    intro run hrun hplace t' ht'
    have heq : t = t' := by
      rw [← hplace, ht, Option.some_inj] at ht'
      exact ht'
    refine ⟨h.past run hrun, S.lastRun st.stamps t'.name, h.stamped run hrun t' ht', ?_⟩
    exact heq ▸ hdue

/-- `run_pending` from any place on, by the tasks that are left. -/
theorem Spaced.runTasks {now : Int} (hnow : now ∈ instants) (throws : Nat → Bool) (i : Nat)
    (ts : List Task) (hts : ts = tasks.drop i) (st : State σ) (ran : Nat)
    (h : Spaced S tasks instants now st) :
    Spaced S tasks instants now (runTasks S now throws i ts st ran).1 := by
  induction ts generalizing i st ran with
  | nil => exact h
  | cons t ts ih =>
    have ht : tasks[i]? = some t := by
      rw [← List.head?_drop, ← hts, List.head?_cons]
    have hrest : ts = tasks.drop (i + 1) := by
      rw [← List.tail_drop, ← hts, List.tail_cons]
    rw [Scheduler.runTasks]
    split
    · rename_i hdue
      have hafter := h.afterRun hnow ht hdue
      show Spaced S tasks instants now
        (if throws i = true then (Scheduler.afterRun S i t now st, none)
        else Scheduler.runTasks S now throws (i + 1) ts (Scheduler.afterRun S i t now st)
          (ran + 1)).1
      split
      · exact hafter
      · exact ih (i + 1) hrest _ _ hafter
    · exact ih (i + 1) hrest st ran h

theorem Spaced.runPending {st : State σ} {tick : Tick} (htick : tick.instant ∈ instants)
    (h : Spaced S tasks instants tick.instant st) :
    Spaced S tasks instants tick.instant (runPending S tasks st tick).1 :=
  h.runTasks htick tick.throws 0 tasks rfl st 0

/-- Ticks that do not go back, from any state. -/
theorem spaced_runTicks {ticks : List Tick} (hticks : ∀ tick ∈ ticks, tick.instant ∈ instants)
    (hsorted : (ticks.map Tick.instant).Pairwise (· ≤ ·)) {now : Int}
    (hnow : ∀ tick ∈ ticks, now ≤ tick.instant) {st : State σ}
    (h : Spaced S tasks instants now st) :
    ∃ now', Spaced S tasks instants now' (runTicks S tasks st ticks) := by
  induction ticks generalizing now st with
  | nil => exact ⟨now, h⟩
  | cons tick ticks ih =>
    rw [List.map_cons, List.pairwise_cons] at hsorted
    have hstep := (h.later (hnow tick List.mem_cons_self)).runPending
      (hticks tick List.mem_cons_self)
    refine ih (fun t ht => hticks t (List.mem_cons_of_mem _ ht)) hsorted.2 ?_ hstep
    intro t ht
    exact hsorted.1 _ (List.mem_map_of_mem ht)

/-- A state without any runs. -/
theorem spaced_of_log_eq_nil {st : State σ} (hvalid : S.Valid st.stamps) (hlog : st.log = [])
    (now : Int) : Spaced S tasks instants now st where
  valid := hvalid
  past := by simp [hlog]
  stamped := by simp [hlog]
  due := by simp [hlog]
  spaced := by simp [hlog]

/-- Ticks in order, from a state without any runs. -/
theorem spaced_of_sorted {st : State σ} (hvalid : S.Valid st.stamps) (hlog : st.log = [])
    {ticks : List Tick} (hsorted : (ticks.map Tick.instant).Pairwise (· ≤ ·)) :
    ∃ now, Spaced S tasks (ticks.map Tick.instant) now (runTicks S tasks st ticks) := by
  cases ticks with
  | nil => exact ⟨0, spaced_of_log_eq_nil hvalid hlog 0⟩
  | cons tick ticks =>
    refine spaced_runTicks (fun t ht => List.mem_map_of_mem ht) hsorted ?_
      (spaced_of_log_eq_nil hvalid hlog tick.instant)
    intro t ht
    cases List.mem_cons.mp ht with
    | inl ht => rw [ht]
    | inr ht => exact (List.pairwise_cons.mp hsorted).1 _ (List.mem_map_of_mem ht)

theorem mem_runsOf {i : Nat} {r : Int} {log : List (Nat × Int)} :
    r ∈ runsOf i log ↔ (i, r) ∈ log := by
  simp [runsOf]

/-- The runs of one task. -/
theorem Spaced.runsOf {now : Int} {st : State σ} (h : Spaced S tasks instants now st) {i : Nat}
    {t : Task} (ht : tasks[i]? = some t) : (runsOf i st.log).Pairwise fun later run =>
      run ≤ later ∧ ∃ last, run ≤ last ∧ t.due later last = true := by
  rw [Scheduler.runsOf, List.pairwise_map, List.pairwise_filter]
  refine h.spaced.imp ?_
  intro later run hpair hlater hrun
  simp only [decide_eq_true_eq] at hlater hrun
  exact hpair (hlater.trans hrun.symm) t (hrun ▸ ht)

end Spaced

/-! ### Daily tasks -/

section Daily
variable (rule : LocalRule) (hhmm : Bytes)

/-- The instant that a tick at `t` waits for. -/
def trigger (t : Int) : Int := todayAt rule t (parseHhmm hhmm).1 (parseHhmm hhmm).2

/-- No two ticks of one date have the trigger on its wrong sides: the earlier tick is at or
after its own trigger, and before that of the later one. -/
def NoSecondTrigger (instants : List Int) : Prop :=
  ∀ r ∈ instants, ∀ n ∈ instants, r ≤ n → rule.date r = rule.date n →
    ¬ (trigger rule hhmm r ≤ r ∧ r < trigger rule hhmm n ∧ trigger rule hhmm n ≤ n)

variable {rule hhmm}

theorem due_dailyAt {name : Bytes} {now last : Int} :
    (dailyAt rule hhmm name).due now last = true ↔
      trigger rule hhmm now ≤ now ∧ last < trigger rule hhmm now := by
  show decide (_ ∧ _) = true ↔ _
  rw [decide_eq_true_eq]
  rfl

/-- On one date the triggers differ as the offsets do. -/
theorem trigger_eq_of_date_eq {r n : Int} (h : rule.date r = rule.date n) :
    trigger rule hhmm n = trigger rule hhmm r + (rule.offset r - rule.offset n) := by
  have hday : (rule.localtime r).day = (rule.localtime n).day := h
  show (rule.localtime n).day * 86400 + (parseHhmm hhmm).1 * 3600 + (parseHhmm hhmm).2 * 60 + 0 -
      rule.offset n =
    (rule.localtime r).day * 86400 + (parseHhmm hhmm).1 * 3600 + (parseHhmm hhmm).2 * 60 + 0 -
      rule.offset r + (rule.offset r - rule.offset n)
  rw [hday]
  omega

/-- Ticks between which no clock is set back. -/
theorem noSecondTrigger_of_offset_le {instants : List Int}
    (h : ∀ r ∈ instants, ∀ n ∈ instants, r ≤ n → rule.date r = rule.date n →
      rule.offset r ≤ rule.offset n) : NoSecondTrigger rule hhmm instants := by
  rintro r hr n hn hle hdate ⟨hfired, hbefore, -⟩
  have hoffset := h r hr n hn hle hdate
  rw [trigger_eq_of_date_eq hdate] at hbefore
  omega

section
variable {σ : Type} {S : Stamps σ}

/-- A task of `daily_at` fires at most once on a local date, whatever other tasks there are and
whatever they throw, if no two ticks have a second trigger between them. -/
theorem daily_once_per_date {tasks : List Task} {i : Nat} {name : Bytes}
    (htask : tasks[i]? = some (dailyAt rule hhmm name)) {st : State σ}
    (hvalid : S.Valid st.stamps) (hlog : st.log = []) {ticks : List Tick}
    (hsorted : (ticks.map Tick.instant).Pairwise (· ≤ ·))
    (hticks : NoSecondTrigger rule hhmm (ticks.map Tick.instant)) :
    ((runsOf i (runTicks S tasks st ticks).log).map rule.date).Nodup := by
  obtain ⟨now, h⟩ : ∃ now, Spaced S tasks (ticks.map Tick.instant) now
      (runTicks S tasks st ticks) := spaced_of_sorted hvalid hlog hsorted
  rw [List.Nodup, List.pairwise_map]
  refine (h.runsOf htask).imp_of_mem ?_
  rintro n r hn hr ⟨hle, last, hlast, hdue⟩ hdate
  obtain ⟨hmem, hfired⟩ := h.due (i, r) (mem_runsOf.mp hr)
  obtain ⟨_, hdue'⟩ := hfired _ htask
  obtain ⟨hn', hbefore⟩ := due_dailyAt.mp hdue
  refine hticks r hmem n (h.due (i, n) (mem_runsOf.mp hn)).1 hle hdate.symm ?_
  exact ⟨(due_dailyAt.mp hdue').1, by omega, hn'⟩

/-- Four ticks around a night without a change, by the schedule's own map. -/
theorem daily_once_per_date_applies :
    let rule : LocalRule := ⟨3600, 7200, fun _ => false⟩
    let ticks : List Tick := [1000, 90000, 0, 100000].map fun now => ⟨now, 95000, fun _ => true⟩
    let tasks := [every 60 (bytes "a"), dailyAt rule (bytes "03:00") (bytes "b")]
    ((runsOf 1 (runTicks memoryStamps tasks ⟨∅, []⟩ ticks).log).map rule.date).Nodup :=
  daily_once_per_date rfl trivial rfl (by decide)
    (noSecondTrigger_of_offset_le fun _ _ _ _ _ _ => le_refl _)

/-- A schedule of one task. -/
theorem runPending_singleton (t : Task) (st : State σ) (tick : Tick) :
    (runPending S [t] st tick).1 =
      if t.due tick.instant (S.lastRun st.stamps t.name) then afterRun S 0 t tick.instant st
      else st := by
  rw [runPending, runTasks]
  split
  · show (if tick.throws 0 = true then (afterRun S 0 t tick.instant st, none) else _).1 = _
    split <;> rfl
  · rfl

/-- Two ticks of one date, with a last run from before: the condition is exact. -/
theorem once_of_two_ticks_iff {name : Bytes} {st : State σ} (hvalid : S.Valid st.stamps)
    (hlog : st.log = []) {r n : Tick} (hdate : rule.date r.instant = rule.date n.instant)
    (hlast : S.lastRun st.stamps name < trigger rule hhmm r.instant) :
    ((runsOf 0 (runTicks S [dailyAt rule hhmm name] st [r, n]).log).map rule.date).Nodup ↔
      ¬ (trigger rule hhmm r.instant ≤ r.instant ∧ r.instant < trigger rule hhmm n.instant ∧
        trigger rule hhmm n.instant ≤ n.instant) := by
  rw [runTicks, List.foldl_cons, List.foldl_cons, List.foldl_nil, runPending_singleton,
    runPending_singleton]
  by_cases hr : trigger rule hhmm r.instant ≤ r.instant
  · have hfire : (dailyAt rule hhmm name).due r.instant (S.lastRun st.stamps
        (dailyAt rule hhmm name).name) = true := due_dailyAt.mpr ⟨hr, hlast⟩
    rw [if_pos hfire]
    have hstamp : S.lastRun (afterRun S 0 (dailyAt rule hhmm name) r.instant st).stamps
        (dailyAt rule hhmm name).name = r.instant := S.lastRun_self _ _ hvalid
    rw [hstamp]
    split
    · rename_i hn
      rw [due_dailyAt] at hn
      simp [runsOf, afterRun, hlog, hdate, hr, hn.1, hn.2]
    · rename_i hn
      rw [due_dailyAt] at hn
      simp only [runsOf, afterRun, hlog, hr, true_and]
      exact iff_of_true (by simp) fun h => hn h.symm
  · have hwait : ¬ (dailyAt rule hhmm name).due r.instant (S.lastRun st.stamps
        (dailyAt rule hhmm name).name) = true := fun h => hr (due_dailyAt.mp h).1
    rw [if_neg hwait]
    split <;> simp [runsOf, afterRun, hlog, hr]

end

/-- The night of 2025-11-02 in a zone five hours behind UTC, four in summer: the clock is set back
from two to one. The task of half past midnight runs at 00:40 and, with the trigger an hour later,
again at 01:00. -/
theorem fires_twice_when_set_back :
    let rule : LocalRule := ⟨-18000, -14400, fun t => t < 1762063200⟩
    let ticks : List Tick := [1762058400, 1762063200].map fun now => ⟨now, 0, fun _ => false⟩
    (ticks.map Tick.instant).Pairwise (· ≤ ·) ∧
    ¬ ((runsOf 0 (runTicks memoryStamps [dailyAt rule (bytes "00:30") (bytes "a")] ⟨∅, []⟩
      ticks).log).map rule.date).Nodup :=
  ⟨by decide, fun h => (once_of_two_ticks_iff trivial rfl (by decide)
    (by decide)).mp h (by decide)⟩

end Daily

end CppLaravel.Scheduler
