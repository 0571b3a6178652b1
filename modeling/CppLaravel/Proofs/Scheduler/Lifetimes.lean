import CppLaravel.Proofs.Scheduler.Daily
import CppLaravel.Scheduler.Lifetimes

/-!
# `CppLaravel.Proofs.Scheduler.Lifetimes`: a schedule that is started again

The stamps of a run survive in the table of the connection, and `run_pending` asks for nothing
else. `Agree` relates two schedules that tell the same last runs of the tasks; what they run at a
tick is the same (`Agree.fire`), and a new schedule over the connection of one of them agrees with
the other still (`Agree.restart`).
-/

set_option autoImplicit false

namespace CppLaravel.Scheduler

open CppLaravel.Lib
open CppLaravel.Database
open CppLaravel.Database.MemoryConnection (OwnIds)

section Stamps
variable (table : Bytes)

/-- A schedule whose connection, if it has one, keeps rows with ids of their own. -/
def Schedule.Valid (s : Schedule) : Prop := ∀ c, s.conn = some c → OwnIds table c

variable {table}

/-- A run is recorded under its name and under no other. -/
theorem Schedule.lastRun_recordRun {s : Schedule} (h : s.Valid table) (name : Bytes) (now : Int)
    (name' : Bytes) : (s.recordRun table name now).lastRun table name' =
      if name' = name then now else s.lastRun table name' := by
  obtain ⟨conn, memory⟩ := s
  cases conn with
  | none =>
    show Memory.lastRun (memory.recordRun name now) name' = _
    by_cases hname : name' = name
    · rw [if_pos hname, hname]
      exact memoryStamps.lastRun_self name now trivial
    · rw [if_neg hname, Memory.lastRun, Memory.recordRun, Finmap.lookup_insert_of_ne _ hname]
      rfl
  | some c =>
    obtain ⟨-, hother⟩ := getKey_tableRecordRun (h c rfl) name now
    show tableLastRun table (tableRecordRun table c name now) name' = _
    by_cases hname : name' = name
    · rw [if_pos hname, hname]
      exact (tableStamps table).lastRun_self name now (h c rfl)
    · rw [if_neg hname, tableLastRun_eq, hother name' hname, ← tableLastRun_eq]
      rfl

theorem Schedule.Valid.recordRun {s : Schedule} (h : s.Valid table) (name : Bytes) (now : Int) :
    (s.recordRun table name now).Valid table := by
  obtain ⟨conn, memory⟩ := s
  cases conn with
  | none => exact fun c hc => nomatch hc
  | some c =>
    intro c' hc'
    obtain rfl : tableRecordRun table c name now = c' := Option.some.inj hc'
    exact ownIds_tableRecordRun (h c rfl) name now

variable (table) in
/-- The place that a schedule uses. -/
def scheduleStamps : Stamps Schedule where
  lastRun := Schedule.lastRun table
  recordRun := Schedule.recordRun table
  Valid := Schedule.Valid table
  valid_record name t h := h.recordRun name t
  lastRun_self name t h := by rw [Schedule.lastRun_recordRun h, if_pos rfl]
  lastRun_other name t name' h := by
    rw [Schedule.lastRun_recordRun h]
    by_cases hname : name' = name
    · exact .inr (if_pos hname)
    · exact .inl (if_neg hname)

end Stamps

/-! ### Two schedules that agree -/

section Agree
variable {table : Bytes} {tasks : List Task} {s s' : Schedule}

variable (table tasks) in
/-- Two schedules that tell the same last runs of the tasks. -/
structure Agree (s s' : Schedule) : Prop where
  valid : s.Valid table
  valid' : s'.Valid table
  lastRun : ∀ t ∈ tasks, s.lastRun table t.name = s'.lastRun table t.name

theorem Agree.recordRun (h : Agree table tasks s s') (name : Bytes) (now : Int) :
    Agree table tasks (s.recordRun table name now) (s'.recordRun table name now) where
  valid := h.valid.recordRun name now
  valid' := h.valid'.recordRun name now
  lastRun t ht := by
    rw [Schedule.lastRun_recordRun h.valid, Schedule.lastRun_recordRun h.valid', h.lastRun t ht]

/-- Schedules that agree run the same tasks and agree afterwards, also where a task throws. -/
theorem Agree.runTasks (now : Int) (throws : Nat → Bool) (i : Nat) {ts : List Task}
    (hts : ∀ t ∈ ts, t ∈ tasks) (h : Agree table tasks s s') (log : List (Nat × Int))
    (ran : Nat) :
    let r := runTasks (scheduleStamps table) now throws i ts ⟨s, log⟩ ran
    let r' := runTasks (scheduleStamps table) now throws i ts ⟨s', log⟩ ran
    r.1.log = r'.1.log ∧ r.2 = r'.2 ∧ Agree table tasks r.1.stamps r'.1.stamps := by
  induction ts generalizing i s s' log ran with
  | nil => exact ⟨rfl, rfl, h⟩
  | cons t ts ih =>
    rw [List.forall_mem_cons] at hts
    have hlast : (scheduleStamps table).lastRun s t.name =
        (scheduleStamps table).lastRun s' t.name := h.lastRun t hts.1
    have hrecord := h.recordRun t.name now
    simp only [Scheduler.runTasks, hlast]
    split
    · split
      · exact ⟨rfl, rfl, hrecord⟩
      · exact ih (i + 1) hts.2 hrecord _ _
    · exact ih (i + 1) hts.2 h log ran

theorem Agree.fire (h : Agree table tasks s s') (tick : Tick) :
    (fire (scheduleStamps table) tasks s tick).1 = (fire (scheduleStamps table) tasks s' tick).1 ∧
      Agree table tasks (Scheduler.fire (scheduleStamps table) tasks s tick).2
        (Scheduler.fire (scheduleStamps table) tasks s' tick).2 := by
  obtain ⟨hlog, hran, hagree⟩ := h.runTasks tick.instant tick.throws 0 (fun t ht => ht) [] 0
  exact ⟨congrArg₂ Reply.mk (congrArg List.reverse hlog) hran, hagree⟩

variable (table) in
/-- A schedule with a connection keeps it. -/
theorem isSome_conn_runTasks (now : Int) (throws : Nat → Bool) (i : Nat) (ts : List Task)
    (st : State Schedule) (ran : Nat) :
    (runTasks (scheduleStamps table) now throws i ts st ran).1.stamps.conn.isSome =
      st.stamps.conn.isSome := by
  induction ts generalizing i st ran with
  | nil => rfl
  | cons t ts ih =>
    have hrecord : ((scheduleStamps table).recordRun st.stamps t.name now).conn.isSome =
        st.stamps.conn.isSome := by
      show (st.stamps.recordRun table t.name now).conn.isSome = _
      unfold Schedule.recordRun
      split
      · rfl
      · rename_i hconn
        rw [hconn]
        rfl
    rw [Scheduler.runTasks]
    split
    · dsimp only
      split
      · exact hrecord
      · exact (ih _ _ _).trans hrecord
    · exact ih _ _ _

/-- A new schedule over the connection of another tells the same last runs. -/
theorem Agree.restart (h : Agree table tasks s s') (hconn : s.conn.isSome) :
    Agree table tasks (Schedule.new s.conn) s' := by
  obtain ⟨c, hc⟩ := Option.isSome_iff_exists.mp hconn
  refine ⟨h.valid, h.valid', fun t ht => ?_⟩
  rw [← h.lastRun t ht, Schedule.new, Schedule.lastRun, Schedule.lastRun, hc]

/-- The processes of a schedule with a connection do what one does that is never started again. -/
theorem Agree.serve (events : List Event) (h : Agree table tasks s s') (hconn : s.conn.isSome) :
    serve (scheduleStamps table) tasks s events =
      fireAll (scheduleStamps table) tasks s' (events.filterMap Event.tick?) := by
  induction events generalizing s s' with
  | nil => rfl
  | cons event events ih =>
    cases event with
    | restart => exact ih (h.restart hconn) hconn
    | tick tick =>
      obtain ⟨hreply, hagree⟩ := h.fire tick
      have hconn' :=
        (isSome_conn_runTasks table tick.instant tick.throws 0 tasks ⟨s, []⟩ 0).trans hconn
      show _ :: _ = _ :: _
      rw [hreply, ih hagree hconn']

end Agree

/-! ### The runs of a task -/

section Runs
variable {σ : Type} (S : Stamps σ) (tasks : List Task)

/-- What has run before is kept at the end of the log. -/
theorem runTasks_append (now : Int) (throws : Nat → Bool) (i : Nat) (ts : List Task) (s : σ)
    (log before : List (Nat × Int)) (ran : Nat) :
    runTasks S now throws i ts ⟨s, log ++ before⟩ ran =
      let r := runTasks S now throws i ts ⟨s, log⟩ ran
      (⟨r.1.stamps, r.1.log ++ before⟩, r.2) := by
  induction ts generalizing i s log ran with
  | nil => rfl
  | cons t ts ih =>
    rw [runTasks, runTasks]
    dsimp only
    split
    · split
      · rfl
      · exact ih (i + 1) _ ((i, now) :: log) _
    · exact ih (i + 1) s log ran

/-- The log of a schedule is what its ticks have run. -/
theorem log_runTicks (s : σ) (log : List (Nat × Int)) (ticks : List Tick) :
    (runTicks S tasks ⟨s, log⟩ ticks).log.reverse =
      log.reverse ++ (fireAll S tasks s ticks).flatMap Reply.fired := by
  induction ticks generalizing s log with
  | nil => simp [runTicks, fireAll]
  | cons tick ticks ih =>
    have hstep : (runPending S tasks ⟨s, log⟩ tick).1 =
        ⟨(fire S tasks s tick).2, (fire S tasks s tick).1.fired.reverse ++ log⟩ := by
      rw [runPending, ← List.nil_append log, runTasks_append]
      simp [fire, runPending]
    show (runTicks S tasks (runPending S tasks ⟨s, log⟩ tick).1 ticks).log.reverse = _
    rw [hstep, ih, List.reverse_append, List.reverse_reverse, List.append_assoc]
    rfl

variable {S tasks}

/-- Two runs of a task of `every` are its interval apart, if no tick is at the time `0` or
earlier. -/
theorem every_apart {s : σ} (hvalid : S.Valid s) {ticks : List Tick}
    (hpos : ∀ tick ∈ ticks, 0 < tick.instant)
    (hsorted : (ticks.map Tick.instant).Pairwise (· ≤ ·)) {i : Nat} {secs : Int} {name : Bytes}
    (htask : tasks[i]? = some (every secs name)) :
    (runsOf i ((fireAll S tasks s ticks).flatMap Reply.fired)).Pairwise
      fun run later => later - run ≥ secs := by
  obtain ⟨now, h⟩ : ∃ now, Spaced S tasks (ticks.map Tick.instant) now
      (runTicks S tasks ⟨s, []⟩ ticks) := spaced_of_sorted hvalid rfl hsorted
  have hlog := log_runTicks S tasks s [] ticks
  rw [List.reverse_nil, List.nil_append] at hlog
  rw [← hlog, runsOf, List.filter_reverse, List.map_reverse, List.pairwise_reverse]
  refine (h.runsOf htask).imp_of_mem ?_
  intro later run _ hrun hlater
  obtain ⟨_, last, hlast, hdue⟩ := hlater
  obtain ⟨hmem, -⟩ := h.due (i, run) (mem_runsOf.mp hrun)
  obtain ⟨tick, htick, rfl⟩ := List.mem_map.mp hmem
  have hrun_pos := hpos tick htick
  have hdue : last = 0 ∨ later - last ≥ secs := of_decide_eq_true hdue
  show later - tick.instant ≥ secs
  omega

end Runs

/-- **Starting again changes nothing.** The processes of a schedule over a connection that has no
last run of its tasks do at every tick what one schedule does that is never started again and keeps
the last runs itself; and two runs of a task of `every` are its interval apart, also where another
task has its name. -/
theorem serve_eq_fireAll {table : Bytes} {tasks : List Task} {c : MemoryConnection}
    (hc : OwnIds table c) (hnone : ∀ t ∈ tasks, tableLastRun table c t.name = 0)
    {events : List Event} (hpos : ∀ tick ∈ events.filterMap Event.tick?, 0 < tick.now)
    (hsorted : (events.filterMap Event.tick?).Pairwise fun tick later => tick.now ≤ later.now) :
    let replies := serve (scheduleStamps table) tasks (Schedule.new (some c)) events
    replies = fireAll (scheduleStamps table) tasks (Schedule.new none)
        (events.filterMap Event.tick?) ∧
      ∀ i secs name, tasks[i]? = some (every secs name) →
        (runsOf i (replies.flatMap Reply.fired)).Pairwise
          fun run later => later - run ≥ secs := by
  intro replies
  -- The table has the last runs that a schedule without a connection keeps itself.
  have hagree : Agree table tasks (Schedule.new (some c)) (Schedule.new none) := by
    refine ⟨fun c' hc' => ?_, fun c' hc' => ?_, fun t ht => ?_⟩
    · obtain rfl : c = c' := Option.some.inj hc'
      exact hc
    · cases hc'
    · exact hnone t ht
  have hreplies : replies = _ := hagree.serve events rfl
  -- A tick with a positive time is taken at that time.
  have hinstant : ∀ tick ∈ events.filterMap Event.tick?, tick.instant = tick.now := by
    intro tick htick
    have htick := hpos tick htick
    exact if_neg (by omega)
  refine ⟨hreplies, fun i secs name htask => ?_⟩
  rw [hreplies]
  refine every_apart hagree.valid' (fun tick htick => ?_) ?_ htask
  · rw [hinstant tick htick]
    exact hpos tick htick
  · rw [List.pairwise_map]
    refine hsorted.imp_of_mem fun ha hb hle => ?_
    rwa [hinstant _ ha, hinstant _ hb]

/-- Two tasks of one name, the first of which throws, over a connection that is new. -/
theorem serve_eq_fireAll_applies :
    let tasks := [every 60 (bytes "a"), every 30 (bytes "a")]
    let events : List Event := [.tick ⟨1000, 0, fun i => i = 0⟩, .restart,
      .tick ⟨1030, 0, fun _ => false⟩, .tick ⟨1090, 0, fun _ => false⟩]
    let replies := serve (scheduleStamps (bytes "schedule_runs")) tasks
      (Schedule.new (some .empty)) events
    replies = [⟨[(0, 1000)], none⟩, ⟨[(1, 1030)], some 1⟩, ⟨[(0, 1090)], some 1⟩] ∧
      (runsOf 0 (replies.flatMap Reply.fired)).Pairwise fun run later => later - run ≥ 60 := by
  intro tasks events replies
  have hc : OwnIds (bytes "schedule_runs") .empty :=
    MemoryConnection.ownIds_of_tables_eq_nil rfl
  have hnone : ∀ t ∈ tasks, tableLastRun (bytes "schedule_runs") .empty t.name = 0 := by
    decide
  have hpos : ∀ tick ∈ events.filterMap Event.tick?, 0 < tick.now := by
    decide
  have h := serve_eq_fireAll hc hnone hpos (by decide)
  exact ⟨h.1.trans (by decide), h.2 0 60 (bytes "a") rfl⟩

end CppLaravel.Scheduler
