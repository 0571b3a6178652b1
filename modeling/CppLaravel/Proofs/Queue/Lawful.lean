import CppLaravel.Proofs.Queue.Retry

/-!
# `CppLaravel.Proofs.Queue.Lawful`: what one worker owes to the jobs

Observations of a run with one worker. The jobs that were pushed are read off the actions
(`entryAt`), what became of them off the history and the two tables. `Lawful` says what a queue with
one worker is for: when a handler runs, in which order, when a job leaves its table, and that every
job is accounted for.
-/

set_option autoImplicit false

namespace CppLaravel.Queue

open CppLaravel.Database

/-! ### The jobs that are pushed -/

/-- A job as it is pushed; it is due from `availableAt` on. -/
structure Entry where
  job : Bytes
  payload : Bytes
  availableAt : Int

section
variable {W : Type}

/-- The clock after some actions. -/
def clockAfter : Int → List (Action W) → Int
  | clock, [] => clock
  | clock, .tick seconds :: as => clockAfter (clock + seconds) as
  | clock, _ :: as => clockAfter clock as

/-- The jobs that the actions push, from a time of the clock on. -/
def entries : Int → List (Action W) → List Entry
  | _, [] => []
  | clock, .tick seconds :: as => entries (clock + seconds) as
  | clock, .push job payload delay :: as =>
    ⟨job, payload, if 0 < delay then clock + delay else 0⟩ :: entries clock as
  | clock, _ :: as => entries clock as

/-- The job with an id: ids count the pushes. -/
def entryAt (clock : Int) (as : List (Action W)) (id : Int) : Option Entry :=
  if 1 ≤ id then (entries clock as)[(id - 1).toNat]? else none

/-- The times of the passes. -/
def passes (as : List (Action W)) : List Int := as.filterMap Action.enter?

/-- The passes are called with positive times that do not go back. -/
def Forward (as : List (Action W)) : Prop :=
  (∀ now ∈ passes as, 0 < now) ∧ (passes as).Pairwise (· ≤ ·)

/-! ### The history -/

/-- The job that an event pushes. -/
def Event.pushed? : Event W → Option Int
  | .pushed id => some id
  | _ => none

/-- The job that an event completes. -/
def Event.completed? : Event W → Option Int
  | .completed _ id => some id
  | _ => none

/-- The job that an event drops. -/
def Event.dropped? : Event W → Option Int
  | .dropped _ id => some id
  | _ => none

/-- The job that an event writes to `failed_jobs`. -/
def Event.buried? : Event W → Option Int
  | .buried _ id => some id
  | _ => none

/-- The jobs whose handlers the present pass has started, the last one first. -/
def passStarts : List (Event W) → List Int
  | [] => []
  | .returned _ _ :: _ => []
  | .started _ id _ _ :: log => id :: passStarts log
  | _ :: log => passStarts log

/-- In every pass the handlers run in the order of insertion. -/
def RunsInOrder : List (Event W) → Prop
  | [] => True
  | .started _ id _ _ :: log => (∀ earlier ∈ passStarts log, earlier < id) ∧ RunsInOrder log
  | _ :: log => RunsInOrder log

end

/-! ### The laws -/

/-- The worker has yet to record how a handler run or its lookup has ended. -/
def Phase.settling {ρ : Type} : Phase ρ → Bool
  | .holding _ _ .claimed => false
  | .holding _ _ .running => false
  | .holding _ _ _ => true
  | _ => false

/-- The row is one of `failed_jobs` for the job. -/
def Entry.Failed (e : Entry) (row : Row) : Prop :=
  row.getString (bytes "job") = some e.job ∧ row.getString (bytes "payload") = some e.payload

/-- What a queue with one worker owes to the jobs, after the actions `as`. -/
structure Lawful (q : DbQueue) (clock : Int) (as : List (Action Unit)) (s : State Unit) : Prop where
  /-- A handler runs for a job that has not ended, when the job is available, and not before the
  backoff of each of its failures. -/
  onTime : ∀ after id now c before, s.log = after ++ .started () id now c :: before →
    endings id before = 0 ∧
      (∃ e, entryAt clock as id = some e ∧ q.handlers e.job = true ∧ e.availableAt ≤ now) ∧
      ∀ f ∈ failures id before, f.1 + q.retryBackoff * f.2 ≤ now
  /-- A job with a handler leaves the table at its first success or its last failure. -/
  leaves : (s.phase ()).settling = false → ∀ id e, entryAt clock as id = some e →
    q.handlers e.job = true → ((storedRow s id).isSome ↔
      id ∉ s.log.filterMap Event.completed? ∧ ((failures id s.log).length : Int) < q.maxAttempts)
  /-- No job ends twice, so none both succeeds and is written to `failed_jobs`. -/
  endsOnce : ∀ id, endings id s.log ≤ 1
  /-- The rows of `failed_jobs` are one for each job with as many failures as are allowed, and none
  for a job that succeeds. -/
  failedRows : (s.phase ()).settling = false → ∃ ids : List Int, ids.Nodup ∧
    (∀ id, id ∈ ids ↔ ((failures id s.log).length : Int) = q.maxAttempts) ∧
    (∀ id ∈ ids, id ∉ s.log.filterMap Event.completed?) ∧
    List.Forall₂ (fun row id => ∃ e, entryAt clock as id = some e ∧ e.Failed row)
      (s.conn.all (bytes "failed_jobs")) ids
  /-- The jobs of a pass run in the order of insertion. -/
  inOrder : RunsInOrder s.log
  /-- Every job is present, completed, failed or dropped. -/
  conserved : (∀ p row, s.phase () ≠ .holding p row .buried) →
    (s.conn.all (bytes "jobs")).length + (s.log.filterMap Event.completed?).length +
      (s.conn.all (bytes "failed_jobs")).length + (s.log.filterMap Event.dropped?).length =
        (entries clock as).length

/-- The rows whose handlers a pass at the time `now` runs. -/
def runnable (q : DbQueue) (now : Int) (row : Row) : Bool :=
  columnOrZero row (bytes "available_at") ≤ now ∧ (row.getString (bytes "job")).any q.handlers

end CppLaravel.Queue
