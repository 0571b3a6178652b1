import CppLaravel.Scheduler.Schedule

/-!
# `CppLaravel.Scheduler.Lifetimes`: a schedule and its processes (`include/scheduler.hpp`)

A `Schedule` has its own map and, if it is given one, a connection, which it then uses instead. A
process that is started again makes a new schedule of the same tasks over the same connection.
-/

set_option autoImplicit false

namespace CppLaravel.Scheduler

open CppLaravel.Database

/-- `Schedule`, without its tasks. -/
structure Schedule where
  conn : Option MemoryConnection
  memory : Memory

namespace Schedule

/-- A new schedule. -/
def new (conn : Option MemoryConnection) : Schedule := ⟨conn, ∅⟩

variable (table : Bytes)

/-- `last_run`. -/
def lastRun (s : Schedule) (name : Bytes) : Int :=
  match s.conn with
  | none => s.memory.lastRun name
  | some c => tableLastRun table c name

/-- `record_run`. -/
def recordRun (s : Schedule) (name : Bytes) (now : Int) : Schedule :=
  match s.conn with
  | none => { s with memory := s.memory.recordRun name now }
  | some c => { s with conn := some (tableRecordRun table c name now) }

end Schedule

/-- What a call of `run_pending` does: the tasks that it runs by their places, with the instant, and
how many it says, or nothing when a task throws. -/
structure Reply where
  fired : List (Nat × Int)
  ran : Option Nat
deriving DecidableEq

section
variable {σ : Type} (S : Stamps σ) (tasks : List Task)

/-- A call of `run_pending` and what it does. -/
def fire (s : σ) (tick : Tick) : Reply × σ :=
  let (st, ran) := runPending S tasks ⟨s, []⟩ tick
  (⟨st.log.reverse, ran⟩, st.stamps)

/-- What calls one after the other do. -/
def fireAll : σ → List Tick → List Reply
  | _, [] => []
  | s, tick :: ticks => (fire S tasks s tick).1 :: fireAll (fire S tasks s tick).2 ticks

end

/-- What comes to the processes of a schedule: a tick, or a process that is started again. -/
inductive Event where
  | tick (t : Tick)
  | restart

/-- The tick of an event. -/
def Event.tick? : Event → Option Tick
  | .tick t => some t
  | .restart => none

/-- What the processes of a schedule do at each tick. -/
def serve (S : Stamps Schedule) (tasks : List Task) : Schedule → List Event → List Reply
  | _, [] => []
  | s, .tick t :: events => (fire S tasks s t).1 :: serve S tasks (fire S tasks s t).2 events
  | s, .restart :: events => serve S tasks (Schedule.new s.conn) events

end CppLaravel.Scheduler
