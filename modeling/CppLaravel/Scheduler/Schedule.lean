import CppLaravel.Database.MemoryConnection
import CppLaravel.Decimal
import CppLaravel.Lib.Find
import CppLaravel.Scheduler.LocalTime

/-!
# `CppLaravel.Scheduler.Schedule`: the scheduler (`include/scheduler.hpp`)

`Stamps` is what `run_pending` uses of the place where the last runs are kept: the map of the
schedule, or a table of its connection. A state has the stamps and a log of what has run. What
a task does is its own business, except that it may throw.
-/

set_option autoImplicit false

namespace CppLaravel.Scheduler

open CppLaravel.Lib
open CppLaravel.Database

/-- A place for the times of the last runs. Recording a run may only be seen under other names
as that run. -/
structure Stamps (σ : Type) where
  lastRun : σ → Bytes → Int
  recordRun : σ → Bytes → Int → σ
  Valid : σ → Prop
  valid_record : ∀ {s} name t, Valid s → Valid (recordRun s name t)
  lastRun_self : ∀ {s} name t, Valid s → lastRun (recordRun s name t) name = t
  lastRun_other : ∀ {s} name t name', Valid s →
    lastRun (recordRun s name t) name' = lastRun s name' ∨ lastRun (recordRun s name t) name' = t

/-! ### The two places -/

/-- The branches of `last_run` and `record_run` for the schedule's own map. -/
abbrev Memory := Finmap fun _ : Bytes => Int

def Memory.lastRun (memory : Memory) (name : Bytes) : Int := (memory.lookup name).getD 0

def Memory.recordRun (memory : Memory) (name : Bytes) (now : Int) : Memory :=
  memory.insert name now

section
variable (table : Bytes)

/-- The branch of `last_run` for a connection. -/
def tableLastRun (c : MemoryConnection) (name : Bytes) : Int :=
  match c.select table [(bytes "name", .string name)] with
  | r :: _ => (r.getInt (bytes "last_run")).getD 0
  | [] => 0

/-- The branch of `record_run` for a connection. A row without an id is none that `insert` has
made. -/
def tableRecordRun (c : MemoryConnection) (name : Bytes) (now : Int) : MemoryConnection :=
  match c.select table [(bytes "name", .string name)] with
  | [] =>
    (c.insert table ((Row.empty.set (bytes "name") (.string name)).set (bytes "last_run")
      (.int now))).2
  | r :: _ =>
    match r.getInt (bytes "id") with
    | none => c
    | some id => (c.update table id (r.set (bytes "last_run") (.int now))).2

end

/-! ### Tasks -/

/-- `Task`; its function is not part of the model. -/
structure Task where
  name : Bytes
  due : Int → Int → Bool

/-- `every`. -/
def every (secs : Int) (name : Bytes) : Task where
  name := name
  due now last := last = 0 ∨ now - last ≥ secs

/-- `parse_hhmm`: the hour and the minute. -/
def parseHhmm (s : Bytes) : Int × Int :=
  match find s (bytes ":") 0 with
  | none => (0, 0)
  | some colon => (atoi (substr s 0 colon), atoi (s.drop (colon + 1)))

/-- `today_at`. -/
def todayAt (rule : LocalRule) (now hour minute : Int) : Int :=
  rule.mktime { rule.localtime now with hour := hour, min := minute, sec := 0 }

/-- `daily_at`. -/
def dailyAt (rule : LocalRule) (hhmm name : Bytes) : Task where
  name := name
  due now last :=
    let trigger := todayAt rule now (parseHhmm hhmm).1 (parseHhmm hhmm).2
    now ≥ trigger ∧ last < trigger

/-! ### Running what is due -/

/-- The stamps, and the tasks that have run by their places in the schedule, with the instants
of their runs, latest first. -/
structure State (σ : Type) where
  stamps : σ
  log : List (Nat × Int)

section
variable {σ : Type} (S : Stamps σ)

/-- The loop of `run_pending` from the task at the place `i` on. The number of tasks that ran
is nothing if one of them threw. -/
def runTasks (now : Int) (throws : Nat → Bool) :
    Nat → List Task → State σ → Nat → State σ × Option Nat
  | _, [], st, ran => (st, some ran)
  | i, t :: ts, st, ran =>
    if t.due now (S.lastRun st.stamps t.name) then
      let st := ⟨S.recordRun st.stamps t.name now, (i, now) :: st.log⟩
      if throws i then (st, none) else runTasks now throws (i + 1) ts st (ran + 1)
    else runTasks now throws (i + 1) ts st ran

/-- A call of `run_pending`: its argument, what the clock shows, and which tasks would throw. -/
structure Tick where
  now : Int
  clock : Int
  throws : Nat → Bool

/-- The instant of a call: `0` stands for the clock. -/
def Tick.instant (tick : Tick) : Int := if tick.now = 0 then tick.clock else tick.now

/-- `run_pending`. -/
def runPending (tasks : List Task) (st : State σ) (tick : Tick) : State σ × Option Nat :=
  runTasks S tick.instant tick.throws 0 tasks st 0

/-- Calls one after the other, by a caller that catches what a task throws. -/
def runTicks (tasks : List Task) (st : State σ) (ticks : List Tick) : State σ :=
  ticks.foldl (fun st tick => (runPending S tasks st tick).1) st

end

/-- The instants at which the task at the place `i` ran. -/
def runsOf (i : Nat) (log : List (Nat × Int)) : List Int :=
  (log.filter fun run => run.1 = i).map Prod.snd

end CppLaravel.Scheduler
