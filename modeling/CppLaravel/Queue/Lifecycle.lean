import CppLaravel.Queue.DbQueue
import CppLaravel.Lib.Transition

/-!
# `CppLaravel.Queue.Lifecycle`: the life of a job, as a relation

`DbQueue` keeps jobs as rows of named cells. Here a job is a record, the table a list of
jobs, and `JobStep` a relation with one constructor for each thing that can happen to a job:
claimed, started, requeued, buried and so on. The proofs about interleavings are by cases on
this relation.

`toState` writes the records as the rows that `push` inserts and `work()` rewrites.
`step_toState` is the connection to the code's model: from a state of records, every step of
`DbQueue` is a step of `JobStep`, and it leads to a state of records again. `trace_toState`
carries this to runs from the empty store.
-/

set_option autoImplicit false

namespace CppLaravel.Queue

open CppLaravel.Lib
open CppLaravel.Database

/-- A row of the `jobs` table. -/
structure Job where
  id : Int
  job : Bytes
  payload : Bytes
  attempts : Int
  availableAt : Int
  reservedAt : Int
deriving DecidableEq

/-- A row of the `failed_jobs` table. -/
structure FailedJob where
  id : Int
  job : Bytes
  payload : Bytes
  error : Bytes
deriving DecidableEq

/-- The tables as lists of records, with the clock, the workers and the history. -/
structure JobState (W : Type) where
  jobs : List Job
  nextId : Int
  failedJobs : List FailedJob
  nextFailedId : Int
  clock : Int
  phase : W → Phase Job
  log : List (Event W)

namespace Job

/-- The job as `push` inserts it. -/
def pushed (id : Int) (job payload : Bytes) (delay clock : Int) : Job :=
  ⟨id, job, payload, 0, if 0 < delay then clock + delay else 0, 0⟩

/-- The job as a worker claims it at `now`. -/
def claimedAt (j : Job) (now : Int) : Job := { j with reservedAt := now }

/-- The job as a worker requeues it after one more failure. -/
def requeuedAt (q : DbQueue) (j : Job) (now : Int) : Job :=
  { j with
      attempts := j.attempts + 1
      reservedAt := 0
      availableAt := if 0 < q.retryBackoff then now + q.retryBackoff * (j.attempts + 1) else 0 }

/-- The cells of a job. -/
def toRow (j : Job) : Row :=
  (((((Row.empty.set (bytes "job") (.string j.job)).set
    (bytes "payload") (.string j.payload)).set
    (bytes "attempts") (.int j.attempts)).set
    (bytes "available_at") (.int j.availableAt)).set
    (bytes "reserved_at") (.int j.reservedAt)).set
    (bytes "id") (.int j.id)

end Job

/-- The cells of a failed job. -/
def FailedJob.toRow (f : FailedJob) : Row :=
  (failedRow f.job f.payload f.error).set (bytes "id") (.int f.id)

/-- The phase of a worker with its rows translated. -/
def Phase.map {ρ ρ' : Type} (f : ρ → ρ') : Phase ρ → Phase ρ'
  | .idle => .idle
  | .entered now => .entered now
  | .scanning p => .scanning ⟨p.now, p.processed, p.rest.map f⟩
  | .holding p row pt => .holding ⟨p.now, p.processed, p.rest.map f⟩ (f row) pt

variable {W : Type} [DecidableEq W]

namespace JobState

/-- Worker `w` goes on to the phase `ph`. -/
def goto (s : JobState W) (w : W) (ph : Phase Job) : JobState W :=
  { s with phase := Function.update s.phase w ph }

/-- The next event of the history. -/
def note (s : JobState W) (e : Event W) : JobState W := { s with log := e :: s.log }

/-- The jobs table after a call. -/
def withJobs (s : JobState W) (jobs : List Job) : JobState W := { s with jobs := jobs }

/-- The tables after a push. -/
def addJob (s : JobState W) (job payload : Bytes) (delay : Int) : JobState W :=
  { s with
      jobs := s.jobs ++ [Job.pushed (s.nextId + 1) job payload delay s.clock]
      nextId := s.nextId + 1 }

/-- The tables after a job is written to `failed_jobs`. -/
def addFailed (s : JobState W) (j : Job) (what : Bytes) : JobState W :=
  { s with
      failedJobs := s.failedJobs ++ [⟨s.nextFailedId + 1, j.job, j.payload, what⟩]
      nextFailedId := s.nextFailedId + 1 }

/-- The job with the id, while its row is in the table. -/
def jobAt (s : JobState W) (id : Int) : Option Job := getKey Job.id id s.jobs

/-- The records written as rows. -/
def toState (s : JobState W) : State W where
  conn :=
    { tables := fun t =>
        if t = bytes "jobs" then s.jobs.map Job.toRow
        else if t = bytes "failed_jobs" then s.failedJobs.map FailedJob.toRow
        else []
      nextId := fun t =>
        if t = bytes "jobs" then s.nextId
        else if t = bytes "failed_jobs" then s.nextFailedId
        else 0 }
  clock := s.clock
  phase := fun w => (s.phase w).map Job.toRow
  log := s.log

/-- No jobs, all workers outside `work()`. -/
def init (clock : Int) : JobState W :=
  ⟨[], 0, [], 0, clock, fun _ => .idle, []⟩

end JobState

open JobState in
/-- What can happen to the jobs. `look` has three outcomes: the pass returns, the job at
hand is passed over, or it is claimed; `dispatch` and `settle` have one constructor for each
branch of the loop body. -/
inductive JobStep (q : W → DbQueue) : JobState W → Action W → JobState W → Prop
  | tick (s : JobState W) (n : Nat) :
      JobStep q s (.tick n) { s with clock := s.clock + n }
  | push (s : JobState W) (job payload : Bytes) (delay : Int) :
      JobStep q s (.push job payload delay)
        ((s.addJob job payload delay).note (.pushed (s.nextId + 1)))
  | enter {s : JobState W} {w : W} (arg : Int) (h : s.phase w = .idle) :
      JobStep q s (.enter w arg) (s.goto w (.entered (if arg = 0 then s.clock else arg)))
  | snapshot {s : JobState W} {w : W} {now : Int} (h : s.phase w = .entered now) :
      JobStep q s (.snapshot w) (s.goto w (.scanning ⟨now, 0, s.jobs⟩))
  | finish {s : JobState W} {w : W} {now : Int} {n : Nat} (h : s.phase w = .scanning ⟨now, n, []⟩) :
      JobStep q s (.look w) ((s.goto w .idle).note (.returned w n))
  | skip {s : JobState W} {w : W} {now : Int} {n : Nat} {j : Job} {rest : List Job}
      (h : s.phase w = .scanning ⟨now, n, j :: rest⟩)
      (hno : due (q w) now j.availableAt j.reservedAt →
        ∀ stored, s.jobAt j.id = some stored → stored.reservedAt ≠ j.reservedAt) :
      JobStep q s (.look w) (s.goto w (.scanning ⟨now, n, rest⟩))
  | claim {s : JobState W} {w : W} {now : Int} {n : Nat} {j stored : Job} {rest : List Job}
      (h : s.phase w = .scanning ⟨now, n, j :: rest⟩)
      (hdue : due (q w) now j.availableAt j.reservedAt)
      (hstored : s.jobAt j.id = some stored) (hguard : stored.reservedAt = j.reservedAt) :
      JobStep q s (.look w)
        ((s.withJobs (setKey Job.id j.id (j.claimedAt now) s.jobs)).goto w
          (.holding ⟨now, n, rest⟩ j .claimed))
  | start {s : JobState W} {w : W} {p : Pass Job} {j : Job}
      (h : s.phase w = .holding p j .claimed) (hh : (q w).handlers j.job = true) :
      JobStep q s (.dispatch w)
        ((s.goto w (.holding p j .running)).note (.started w j.id p.now s.clock))
  | unknown {s : JobState W} {w : W} {p : Pass Job} {j : Job}
      (h : s.phase w = .holding p j .claimed) (hh : (q w).handlers j.job = false) :
      JobStep q s (.dispatch w) (s.goto w (.holding p j .dropping))
  | returns {s : JobState W} {w : W} {p : Pass Job} {j : Job}
      (h : s.phase w = .holding p j .running) :
      JobStep q s (.returns w) (s.goto w (.holding p j .succeeded))
  | throws {s : JobState W} {w : W} {p : Pass Job} {j : Job} (what : Bytes)
      (h : s.phase w = .holding p j .running) :
      JobStep q s (.throws w what)
        ((s.goto w (.holding p j (.failed what))).note (.failed w j.id p.now))
  | throwsOther {s : JobState W} {w : W} {p : Pass Job} {j : Job}
      (h : s.phase w = .holding p j .running) :
      JobStep q s (.throwsOther w) (s.goto w .idle)
  | complete {s : JobState W} {w : W} {p : Pass Job} {j : Job}
      (h : s.phase w = .holding p j .succeeded) :
      JobStep q s (.settle w)
        (((s.withJobs (eraseKey Job.id j.id s.jobs)).goto w (.scanning p.next)).note
          (.completed w j.id))
  | drop {s : JobState W} {w : W} {p : Pass Job} {j : Job}
      (h : s.phase w = .holding p j .dropping) :
      JobStep q s (.settle w)
        (((s.withJobs (eraseKey Job.id j.id s.jobs)).goto w (.scanning p.next)).note
          (.dropped w j.id))
  | bury {s : JobState W} {w : W} {p : Pass Job} {j : Job} {what : Bytes}
      (h : s.phase w = .holding p j (.failed what)) (hmax : (q w).maxAttempts ≤ j.attempts + 1) :
      JobStep q s (.settle w)
        (((s.addFailed j what).goto w (.holding p j .buried)).note (.buried w j.id))
  | clear {s : JobState W} {w : W} {p : Pass Job} {j : Job}
      (h : s.phase w = .holding p j .buried) :
      JobStep q s (.settle w)
        ((s.withJobs (eraseKey Job.id j.id s.jobs)).goto w (.scanning p.next))
  | requeue {s : JobState W} {w : W} {p : Pass Job} {j : Job} {what : Bytes}
      (h : s.phase w = .holding p j (.failed what)) (hmax : j.attempts + 1 < (q w).maxAttempts) :
      JobStep q s (.settle w)
        ((s.withJobs (setKey Job.id j.id (j.requeuedAt (q w) p.now) s.jobs)).goto w
          (.scanning p.next))
  | crash (s : JobState W) (w : W) : JobStep q s (.crash w) (s.goto w .idle)

/-! ### Reading and writing the cells of a job -/

namespace Job

/-- The cell of every column of a job. -/
theorem get?_toRow (j : Job) (key : Bytes) :
    j.toRow.get? key =
      if key = bytes "id" then some (.int j.id)
      else if key = bytes "reserved_at" then some (.int j.reservedAt)
      else if key = bytes "available_at" then some (.int j.availableAt)
      else if key = bytes "attempts" then some (.int j.attempts)
      else if key = bytes "payload" then some (.string j.payload)
      else if key = bytes "job" then some (.string j.job)
      else none := by
  simp only [toRow, Row.get?_set, Row.get?_empty]

@[simp] theorem getInt_id (j : Job) : j.toRow.getInt (bytes "id") = some j.id := by
  simp [Row.getInt, get?_toRow, Value.asInt]

@[simp] theorem getInt_attempts (j : Job) :
    j.toRow.getInt (bytes "attempts") = some j.attempts := by
  rw [Row.getInt, get?_toRow]
  rfl

@[simp] theorem get?_reservedAt (j : Job) :
    j.toRow.get? (bytes "reserved_at") = some (.int j.reservedAt) := by
  rw [get?_toRow]
  rfl

@[simp] theorem columnOrZero_reservedAt (j : Job) :
    columnOrZero j.toRow (bytes "reserved_at") = j.reservedAt := by
  rw [columnOrZero, Row.getInt, get?_toRow]
  rfl

@[simp] theorem columnOrZero_availableAt (j : Job) :
    columnOrZero j.toRow (bytes "available_at") = j.availableAt := by
  rw [columnOrZero, Row.getInt, get?_toRow]
  rfl

@[simp] theorem getString_job (j : Job) : j.toRow.getString (bytes "job") = some j.job := by
  rw [Row.getString, get?_toRow]
  rfl

@[simp] theorem getString_payload (j : Job) :
    j.toRow.getString (bytes "payload") = some j.payload := by
  rw [Row.getString, get?_toRow]
  rfl

@[simp] theorem rowId_toRow (j : Job) : MemoryConnection.rowId j.toRow = some j.id :=
  getInt_id j

/-- The row that `update_if` writes for a claim is the claimed job's. -/
theorem toRow_claim (j : Job) (now : Int) :
    (j.toRow.set (bytes "reserved_at") (.int now)).set (bytes "id") (.int j.id)
      = (j.claimedAt now).toRow := by
  refine Row.ext_get? fun key => ?_
  simp only [Row.get?_set, get?_toRow, claimedAt]
  split_ifs <;> rfl

/-- The row that `update` writes for a requeue is the requeued job's. -/
theorem toRow_requeue (q : DbQueue) (j : Job) (now : Int) :
    (requeuedRow q now j.toRow (j.attempts + 1)).set (bytes "id") (.int j.id)
      = (j.requeuedAt q now).toRow := by
  refine Row.ext_get? fun key => ?_
  have hcol : bytes "reserved_at" ≠ bytes "available_at" := by decide
  simp only [requeuedRow, Row.get?_set, get?_toRow, requeuedAt]
  split_ifs <;> simp_all

/-- The row that `insert` stores for a push is the pushed job's. -/
theorem toRow_push (id : Int) (job payload : Bytes) (delay clock : Int) :
    (pushedRow job payload delay clock).set (bytes "id") (.int id)
      = (pushed id job payload delay clock).toRow := rfl

end Job

end CppLaravel.Queue
