import CppLaravel.Database.MemoryConnection

/-!
# `CppLaravel.Queue.DbQueue`: workers on a shared jobs table (`include/db_queue.hpp`)

Any number of `DbQueue` objects run `work()` passes over one `MemoryConnection` while jobs
are pushed. The model is a step function: one action is one `Connection` call together with
the local code up to it, or the start or the end of a handler run, so a list of actions is
an interleaving of the workers at that granularity.

A worker is in one `Phase`. `work(now)` enters, copies the table (`conn_->all("jobs")`), and
then looks at the rows of its copy one after the other. A row that is due is claimed with
`update_if`; from there until its `remove`, its move to `failed_jobs` or its requeue the
worker *holds* the row, at one `Point` of the loop body. A handler is any code: the actions
say whether a run returns, throws a `std::exception`, or throws something else, and a job
that it pushes is a `push` action.

`clock` is the wall clock of `std::time`, which all workers read. `log` is the history of
the run; no step reads it. Times and counters are unbounded integers.
-/

set_option autoImplicit false

namespace CppLaravel.Queue

open CppLaravel.Database

/-- The configuration of a `DbQueue`, and the names it has handlers for. -/
structure DbQueue where
  maxAttempts : Int := 3
  retryBackoff : Int := 0
  retryAfter : Int := 90
  handlers : Bytes → Bool

/-- The locals of `work()` inside its loop: `now`, `processed`, and the rows of the copied
table that the loop has not reached. -/
structure Pass (ρ : Type) where
  now : Int
  processed : Nat
  rest : List ρ
deriving DecidableEq

/-- Where a worker stands in the loop body after its claim succeeded. -/
inductive Point where
  /-- The handler is looked up next. -/
  | claimed
  /-- There is no handler: the row is removed next. -/
  | dropping
  /-- Inside the handler. -/
  | running
  /-- The handler returned: the row is removed next. -/
  | succeeded
  /-- The handler threw: the row is requeued or moved to `failed_jobs` next. -/
  | failed (what : Bytes)
  /-- The `failed_jobs` row is written: the job's row is removed next. -/
  | buried
deriving DecidableEq

/-- What a worker is doing. -/
inductive Phase (ρ : Type) where
  /-- Outside `work()`. -/
  | idle
  /-- `work()` has fixed `now`; the table is copied next. -/
  | entered (now : Int)
  /-- At the head of the loop. -/
  | scanning (p : Pass ρ)
  /-- In the loop body, with a claim on `row`. -/
  | holding (p : Pass ρ) (row : ρ) (pt : Point)
deriving DecidableEq

/-- The events of a run: jobs pushed, handler runs started and failed, and the three ways a
job ends. A failure carries the time its pass was given, a start also the wall clock. -/
inductive Event (W : Type) where
  | pushed (id : Int)
  | started (w : W) (id now clock : Int)
  | failed (w : W) (id now : Int)
  | completed (w : W) (id : Int)
  | dropped (w : W) (id : Int)
  | buried (w : W) (id : Int)
  | returned (w : W) (processed : Nat)
deriving DecidableEq

/-- The shared store, the clock, the workers, and the history (newest event first). -/
structure State (W : Type) where
  conn : MemoryConnection
  clock : Int
  phase : W → Phase Row
  log : List (Event W)

/-- What can happen next, worker by worker. -/
inductive Action (W : Type) where
  | tick (seconds : Nat)
  | push (job payload : Bytes) (delay : Int)
  | enter (w : W) (arg : Int)
  | snapshot (w : W)
  | look (w : W)
  | dispatch (w : W)
  | returns (w : W)
  | throws (w : W) (what : Bytes)
  | throwsOther (w : W)
  | settle (w : W)
  | crash (w : W)
deriving DecidableEq

/-- `DbQueue::push` up to the insert: the row of a new job at the time `clock`. -/
def pushedRow (job payload : Bytes) (delay clock : Int) : Row :=
  ((((Row.empty.set (bytes "job") (.string job)).set
    (bytes "payload") (.string payload)).set
    (bytes "attempts") (.int 0)).set
    (bytes "available_at") (.int (if 0 < delay then clock + delay else 0))).set
    (bytes "reserved_at") (.int 0)

/-- The `failed_jobs` row of a job. -/
def failedRow (job payload error : Bytes) : Row :=
  ((Row.empty.set (bytes "job") (.string job)).set
    (bytes "payload") (.string payload)).set
    (bytes "error") (.string error)

/-- A column that defaults to `0` where the row lacks it. -/
def columnOrZero (row : Row) (key : Bytes) : Int := (row.getInt key).getD 0

/-- The two `continue` tests of the loop: the row is available at `now`, and not reserved
by a claim younger than `retry_after_`. -/
def due (q : DbQueue) (now available reserved : Int) : Prop :=
  available ≤ now ∧ (reserved = 0 ∨ q.retryAfter ≤ now - reserved)

instance (q : DbQueue) (now available reserved : Int) : Decidable (due q now available reserved) :=
  inferInstanceAs (Decidable (_ ∧ _))

/-- The row a failed job is requeued as. -/
def requeuedRow (q : DbQueue) (now : Int) (row : Row) (attempts : Int) : Row :=
  ((row.set (bytes "attempts") (.int attempts)).set
    (bytes "reserved_at") (.int 0)).set
    (bytes "available_at")
      (.int (if 0 < q.retryBackoff then now + q.retryBackoff * attempts else 0))

/-- The text of the `std::out_of_range` that `data.at` throws for a missing column. -/
def outOfRange : Bytes := bytes "unordered_map::at"

variable {W : Type} [DecidableEq W]

namespace State

/-- Worker `w` goes on to the phase `ph`. -/
def goto (s : State W) (w : W) (ph : Phase Row) : State W :=
  { s with phase := Function.update s.phase w ph }

/-- The next event of the history. -/
def note (s : State W) (e : Event W) : State W := { s with log := e :: s.log }

/-- The store after a call on the connection. -/
def store (s : State W) (c : MemoryConnection) : State W := { s with conn := c }

end State

/-- The loop goes on to the next row; `processed` counts the row at hand. -/
def Pass.next {ρ : Type} (p : Pass ρ) : Pass ρ := { p with processed := p.processed + 1 }

/-- The head of the loop, `look w`: return after the last row, otherwise test the next row
and try to claim it. A missing `id` column is an exception that leaves `work()`. -/
def look (q : DbQueue) (s : State W) (w : W) (p : Pass Row) : State W :=
  match p.rest with
  | [] => (s.goto w .idle).note (.returned w p.processed)
  | row :: rest =>
    match row.getInt (bytes "id") with
    | none => s.goto w .idle
    | some id =>
      let p := { p with rest := rest }
      let reserved := columnOrZero row (bytes "reserved_at")
      if due q p.now (columnOrZero row (bytes "available_at")) reserved then
        let claim := row.set (bytes "reserved_at") (.int p.now)
        match s.conn.updateIf (bytes "jobs") id (bytes "reserved_at") (.int reserved) claim with
        | (true, c) => (s.store c).goto w (.holding p row .claimed)
        | (false, c) => (s.store c).goto w (.scanning p)
      else s.goto w (.scanning p)

/-- `dispatch w`: look up the handler of the claimed row and call it. A missing `payload`
is caught like a failure of the handler, a missing `job` leaves `work()`. -/
def dispatch (q : DbQueue) (s : State W) (w : W) (p : Pass Row) (row : Row) : State W :=
  match row.getString (bytes "job") with
  | none => s.goto w .idle
  | some job =>
    if q.handlers job then
      match row.getString (bytes "payload") with
      | none => s.goto w (.holding p row (.failed outOfRange))
      | some _ =>
        (s.goto w (.holding p row .running)).note
          (.started w ((row.getInt (bytes "id")).getD 0) p.now s.clock)
    else s.goto w (.holding p row .dropping)

/-- The catch block, `settle w` after a failure: the last allowed attempt writes the job to
`failed_jobs`, an earlier one requeues it. A missing column leaves `work()`. -/
def settleFailed (q : DbQueue) (s : State W) (w : W) (p : Pass Row) (row : Row) (id : Int)
    (what : Bytes) : State W :=
  match row.getInt (bytes "attempts") with
  | none => s.goto w .idle
  | some attempts =>
    let attempts := attempts + 1
    if q.maxAttempts ≤ attempts then
      match row.getString (bytes "job"), row.getString (bytes "payload") with
      | some job, some payload =>
        ((s.store (s.conn.insert (bytes "failed_jobs") (failedRow job payload what)).2).goto w
          (.holding p row .buried)).note (.buried w id)
      | _, _ => s.goto w .idle
    else
      (s.store (s.conn.update (bytes "jobs") id (requeuedRow q p.now row attempts)).2).goto w
        (.scanning p.next)

/-- `settle w`: the `Connection` call that follows a handler run or its lookup. -/
def settle (q : DbQueue) (s : State W) (w : W) (p : Pass Row) (row : Row) (pt : Point) :
    Option (State W) :=
  let id := (row.getInt (bytes "id")).getD 0
  let removed := (s.store (s.conn.remove (bytes "jobs") id).2).goto w (.scanning p.next)
  match pt with
  | .claimed => none
  | .running => none
  | .dropping => some (removed.note (.dropped w id))
  | .succeeded => some (removed.note (.completed w id))
  | .buried => some removed
  | .failed what => some (settleFailed q s w p row id what)

/-- One action of one worker, of a pusher or of the clock; `none` where it is not possible
in the present state. `throwsOther` is a throw of a type that the catch block does not
name, and `crash` the end of the worker's process: both leave `work()` at once. -/
def step (q : W → DbQueue) (s : State W) : Action W → Option (State W)
  | .tick seconds => some { s with clock := s.clock + seconds }
  | .push job payload delay =>
    let r := s.conn.insert (bytes "jobs") (pushedRow job payload delay s.clock)
    some ((s.store r.2).note (.pushed r.1))
  | .enter w arg =>
    match s.phase w with
    | .idle => some (s.goto w (.entered (if arg = 0 then s.clock else arg)))
    | _ => none
  | .snapshot w =>
    match s.phase w with
    | .entered now => some (s.goto w (.scanning ⟨now, 0, s.conn.all (bytes "jobs")⟩))
    | _ => none
  | .look w =>
    match s.phase w with
    | .scanning p => some (look (q w) s w p)
    | _ => none
  | .dispatch w =>
    match s.phase w with
    | .holding p row .claimed => some (dispatch (q w) s w p row)
    | _ => none
  | .returns w =>
    match s.phase w with
    | .holding p row .running => some (s.goto w (.holding p row .succeeded))
    | _ => none
  | .throws w what =>
    match s.phase w with
    | .holding p row .running =>
      some ((s.goto w (.holding p row (.failed what))).note
        (.failed w ((row.getInt (bytes "id")).getD 0) p.now))
    | _ => none
  | .throwsOther w =>
    match s.phase w with
    | .holding _ _ .running => some (s.goto w .idle)
    | _ => none
  | .settle w =>
    match s.phase w with
    | .holding p row pt => settle (q w) s w p row pt
    | _ => none
  | .crash w => some (s.goto w .idle)

/-- An empty store at the time `clock`, all workers outside `work()`. -/
def init (clock : Int) : State W :=
  ⟨MemoryConnection.empty, clock, fun _ => .idle, []⟩

/-! ### Observations

What the statements about runs speak of: which worker holds which job, which row a worker
looks at next, and what the stored row of a job says. -/

/-- The pass and the row of a worker that holds a claim. -/
def Phase.claim? {ρ : Type} : Phase ρ → Option (Pass ρ × ρ)
  | .holding p row _ => some (p, row)
  | _ => none

/-- The row of a worker that is inside its handler. -/
def Phase.running? {ρ : Type} : Phase ρ → Option ρ
  | .holding _ row .running => some row
  | _ => none

/-- The pass and the row that a worker at the head of the loop looks at next. -/
def Phase.next? {ρ : Type} : Phase ρ → Option (Pass ρ × ρ)
  | .scanning p => p.rest.head?.map fun row => (p, row)
  | _ => none

/-- The worker whose loop goes on with this action. -/
def Action.look? : Action W → Option W
  | .look w => some w
  | _ => none

/-- The argument of the call to `work()` that this action is. -/
def Action.enter? : Action W → Option Int
  | .enter _ arg => some arg
  | _ => none

/-- Worker `w` holds a claim on the job `id`. -/
def HoldsClaim (s : State W) (w : W) (id : Int) : Prop :=
  ∃ c ∈ (s.phase w).claim?, c.2.getInt (bytes "id") = some id

/-- Worker `w` is inside the handler of the job `id`. -/
def InsideHandler (s : State W) (w : W) (id : Int) : Prop :=
  ∃ row ∈ (s.phase w).running?, row.getInt (bytes "id") = some id

instance (s : State W) (w : W) (id : Int) : Decidable (InsideHandler s w id) :=
  inferInstanceAs (Decidable (∃ row ∈ (s.phase w).running?, _))

/-- The stored row of the job `id`, while there is one. -/
def storedRow (s : State W) (id : Int) : Option Row := s.conn.find (bytes "jobs") id

/-- The stored attempts counter of the job `id`. -/
def storedAttempts (s : State W) (id : Int) : Option Int :=
  (storedRow s id).bind (·.getInt (bytes "attempts"))

end CppLaravel.Queue
