import CppLaravel.Lib.Growing
import CppLaravel.Lib.Transition

/-!
# `CppLaravel.Queue.ArrayQueue`: jobs that wait for `work()` (`include/queue.hpp`,
`include/events.hpp`)

The queue is a vector of jobs. `work()` goes through it by two iterators, taken before the first
job, and clears it behind the last one; an exception of a job leaves the loop with the vector as it
is. While a job runs, the code in it may push and dispatch as any other code may. `dispatch` calls
the listeners of the event in turn: a queued one pushes a job, and what any other does is code
again.

A job is the number of its push. What a running piece of code does is not fixed: any sequence of
events that fits the calls under way is a run. A push that moves the vector to a new storage while
`work()` is in it leaves its iterators, and the job that runs, without a storage: the behaviour is
`undefined` from there on. A job does not call `work()` itself.
-/

set_option autoImplicit false

namespace CppLaravel.ArrayQueue

open CppLaravel.Lib

/-- A listener: of `listen` or of `listen_queued`. -/
inductive Listener
  | inline
  | queued
deriving DecidableEq

/-- The loop of `work()`: the positions of its iterators, whether the job at the first one is
running, and how many dispatches were under way when `work()` was called. -/
structure Loop where
  next : Nat
  last : Nat
  busy : Bool
  depth : Nat

/-- The queue, the calls under way, and the history. -/
structure State where
  jobs : Growing Nat
  loop : Option Loop
  /-- The dispatches under way, the innermost first: the listeners that are still to be called. -/
  calls : List (List Listener)
  undefined : Bool
  /-- How many jobs were pushed. -/
  pushed : Nat
  /-- The jobs that were started, in this order. -/
  started : List Nat
  /-- The jobs that were pushed while `work()` was running. -/
  inside : List Nat
  /-- How many jobs of the vector were started by the last `work()` that an exception left. -/
  stopped : Option Nat

/-- What may happen, for events of the types `E`. -/
inductive Event (E : Type)
  | push
  | dispatch (e : E)
  /-- The innermost dispatch calls its next listener. -/
  | call
  /-- The innermost dispatch ends, by itself or by an exception that somebody catches. -/
  | endDispatch
  | work
  /-- `work()` calls the next job. -/
  | start
  /-- The job returns. -/
  | finish
  /-- The job throws, out of `work()`. -/
  | throw
  /-- `work()` is behind the last job. -/
  | leave

namespace State

/-- An empty queue. -/
def initial : State where
  jobs := .empty
  loop := none
  calls := []
  undefined := false
  pushed := 0
  started := []
  inside := []
  stopped := none

/-- Some code runs that is not the loop of `work()`. -/
def inCode (s : State) : Bool :=
  match s.loop with
  | none => true
  | some l => l.busy

/-- A dispatch is under way that was not there when `work()` was called. -/
def inDispatch (s : State) : Bool :=
  match s.loop with
  | none => true
  | some l => l.busy && l.depth < s.calls.length

/-- `push`. -/
def push (grow : Nat → Nat) (s : State) : State :=
  { s with
    jobs := s.jobs.push grow s.pushed
    undefined := s.loop.isSome && s.jobs.full
    pushed := s.pushed + 1
    inside := if s.loop.isSome then s.inside ++ [s.pushed] else s.inside }

end State

section
variable {E : Type} (grow : Nat → Nat) (listeners : E → List Listener)

/-- The step function: nothing is known behind undefined behaviour. -/
def step (s : State) (a : Event E) : Option State :=
  if s.undefined then none
  else
    match a with
    | .push => if s.inCode then some (s.push grow) else none
    | .dispatch e => if s.inCode then some { s with calls := listeners e :: s.calls } else none
    | .call =>
      match s.calls with
      | (.queued :: ls) :: calls =>
        if s.inDispatch then some ({ s with calls := ls :: calls }.push grow) else none
      | (.inline :: ls) :: calls =>
        if s.inDispatch then some { s with calls := ls :: calls } else none
      | _ => none
    | .endDispatch =>
      match s.calls with
      | _ :: calls => if s.inDispatch then some { s with calls := calls } else none
      | [] => none
    | .work =>
      match s.loop with
      | none => some { s with loop := some ⟨0, s.jobs.items.length, false, s.calls.length⟩ }
      | some _ => none
    | .start =>
      match s.loop with
      | some ⟨next, last, false, depth⟩ =>
        if next < last then
          (s.jobs.items[next]?).map fun j =>
            { s with loop := some ⟨next, last, true, depth⟩, started := s.started ++ [j] }
        else none
      | _ => none
    | .finish =>
      match s.loop with
      | some ⟨next, last, true, depth⟩ =>
        if s.calls.length = depth then
          some { s with loop := some ⟨next + 1, last, false, depth⟩ }
        else none
      | _ => none
    | .throw =>
      match s.loop with
      | some ⟨next, _, true, depth⟩ =>
        some
          { s with
            loop := none
            calls := s.calls.drop (s.calls.length - depth)
            stopped := some (next + 1) }
      | _ => none
    | .leave =>
      match s.loop with
      | some ⟨next, last, false, _⟩ =>
        if next < last then none
        else some { s with loop := none, jobs := s.jobs.clear, stopped := none }
      | _ => none

end

/-- What is asked of a state: its behaviour is defined, no job was started twice, and a job that was
pushed while `work()` was running is started or waits in the queue when `work()` is not running. -/
structure Lawful (s : State) : Prop where
  defined : s.undefined = false
  once : s.started.Nodup
  kept : s.loop = none → ∀ j ∈ s.inside, j ∈ s.started ∨ j ∈ s.jobs.items

end CppLaravel.ArrayQueue
