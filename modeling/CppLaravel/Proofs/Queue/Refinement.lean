import CppLaravel.Queue.Lifecycle

/-!
# `CppLaravel.Proofs.Queue.Refinement`: `work()` on rows is `JobStep` on jobs

`step_toState`: from the rows of a `JobState`, every step of the code's model is a step of
`JobStep`, and the rows it leaves are those of the `JobState` reached. `trace_toState` lifts
this to runs, and `trace_init_toState` to those from the empty store. The rows of a reachable
store are therefore always complete (`push` wrote every column, and `work()` only overwrites
them), and no column lookup of `work()` throws.

The lemmas before it say what each `Connection` call does to the rows of a job table, one
call at a time.
-/

set_option autoImplicit false

namespace CppLaravel.Queue

open CppLaravel.Lib
open CppLaravel.Database

variable {W : Type}

namespace JobState

theorem toState_goto [DecidableEq W] (s : JobState W) (w : W) (ph : Phase Job) :
    (s.goto w ph).toState = s.toState.goto w (ph.map Job.toRow) := by
  simp only [toState, goto, State.goto, State.mk.injEq, true_and, and_true]
  funext w'
  by_cases h : w' = w
  · subst h; simp
  · simp [h]

theorem toState_note (s : JobState W) (e : Event W) :
    (s.note e).toState = s.toState.note e := rfl

theorem toState_phase (s : JobState W) (w : W) :
    s.toState.phase w = (s.phase w).map Job.toRow := rfl

theorem tables_jobs (s : JobState W) :
    s.toState.conn.tables (bytes "jobs") = s.jobs.map Job.toRow := by
  simp [toState]

/-- Writing the jobs table of the rows is writing the list of records. -/
theorem store_withTable (s : JobState W) (jobs : List Job) :
    s.toState.store (s.toState.conn.withTable (bytes "jobs") (jobs.map Job.toRow))
      = (s.withJobs jobs).toState := by
  simp only [toState, State.store, MemoryConnection.withTable, withJobs]
  congr 2
  funext t
  by_cases h : t = bytes "jobs"
  · subst h; simp
  · simp [h]

/-- `find` on the rows is the lookup of the record. -/
theorem find_toState (s : JobState W) (id : Int) :
    s.toState.conn.find (bytes "jobs") id = (s.jobAt id).map Job.toRow := by
  have hkey : getKey (fun j : Job => some j.id) (some id) s.jobs = s.jobAt id := by
    simp only [getKey, jobAt, Option.some.injEq]
  rw [MemoryConnection.find, tables_jobs, getKey_map Job.rowId_toRow, hkey]

/-- Overwriting the row of a job is replacing its record. -/
theorem store_overwrite (s : JobState W) (id : Int) (row : Row) (j : Job)
    (hrow : row.set (bytes "id") (.int id) = j.toRow) :
    s.toState.store (s.toState.conn.overwrite (bytes "jobs") id row)
      = (s.withJobs (setKey Job.id id j s.jobs)).toState := by
  have hkey : setKey (fun j : Job => some j.id) (some id) j s.jobs
      = setKey Job.id id j s.jobs := by
    simp only [setKey, Option.some.injEq]
  rw [MemoryConnection.overwrite, hrow, tables_jobs, setKey_map Job.rowId_toRow, hkey,
    store_withTable]

/-- `remove` on the rows drops the records with the id. -/
theorem store_remove (s : JobState W) (id : Int) :
    s.toState.store (s.toState.conn.remove (bytes "jobs") id).2
      = (s.withJobs (eraseKey Job.id id s.jobs)).toState := by
  have hkey : eraseKey (fun j : Job => some j.id) (some id) s.jobs
      = eraseKey Job.id id s.jobs := by
    simp only [eraseKey, ne_eq, Option.some.injEq]
  simp only [MemoryConnection.remove]
  rw [tables_jobs, eraseKey_map Job.rowId_toRow, hkey, store_withTable]

/-- `update` on the rows replaces the record, if its row is in the table. -/
theorem store_update (s : JobState W) (id : Int) (row : Row) (j : Job)
    (hrow : row.set (bytes "id") (.int id) = j.toRow) :
    s.toState.store (s.toState.conn.update (bytes "jobs") id row).2
      = (s.withJobs (setKey Job.id id j s.jobs)).toState := by
  rw [MemoryConnection.update]
  cases hfind : s.toState.conn.find (bytes "jobs") id with
  | some r => exact s.store_overwrite id row j hrow
  | none =>
    -- `update` leaves the store alone, and `setKey` has no record to replace.
    rw [find_toState, Option.map_eq_none_iff, jobAt, getKey, List.find?_eq_none] at hfind
    have hset : setKey Job.id id j s.jobs = s.jobs := by
      refine List.replaceF_of_forall_none fun x hx => ?_
      simpa using hfind x hx
    rw [hset]
    rfl

/-- `update_if` succeeds on the rows exactly when the record is in the table and its stamp
is the observed one. -/
theorem updateIf_toState (s : JobState W) (id observed : Int) (row : Row) :
    s.toState.conn.updateIf (bytes "jobs") id (bytes "reserved_at") (.int observed) row
      = if ∃ stored, s.jobAt id = some stored ∧ stored.reservedAt = observed then
          (true, s.toState.conn.overwrite (bytes "jobs") id row)
        else (false, s.toState.conn) := by
  rw [MemoryConnection.updateIf, find_toState]
  cases s.jobAt id with
  | none => simp
  | some stored => simp [Value.eq]

/-- `insert` of a pushed row appends the pushed record. -/
theorem store_push (s : JobState W) (job payload : Bytes) (delay : Int) :
    s.toState.store
        (s.toState.conn.insert (bytes "jobs") (pushedRow job payload delay s.toState.clock)).2
      = (s.addJob job payload delay).toState := by
  simp only [toState, State.store, MemoryConnection.insert, MemoryConnection.withTable, addJob]
  congr 2
  · funext t
    by_cases h : t = bytes "jobs"
    · subst h; simp [Job.toRow_push]
    · simp [h]
  · funext t
    by_cases h : t = bytes "jobs"
    · subst h; simp
    · simp [h]

/-- `insert` of a failed job's row appends its record. -/
theorem store_failed (s : JobState W) (j : Job) (what : Bytes) :
    s.toState.store
        (s.toState.conn.insert (bytes "failed_jobs") (failedRow j.job j.payload what)).2
      = (s.addFailed j what).toState := by
  have hne : bytes "failed_jobs" ≠ bytes "jobs" := by decide
  simp only [toState, State.store, MemoryConnection.insert, MemoryConnection.withTable, addFailed]
  congr 2
  · funext t
    by_cases h : t = bytes "failed_jobs"
    · subst h; simp [hne, FailedJob.toRow]
    · simp [h]
  · funext t
    by_cases h : t = bytes "failed_jobs"
    · subst h; simp [hne]
    · simp [h]

/-- The empty store is the rows of no jobs. -/
theorem init_toState (clock : Int) : Queue.init clock = (init clock : JobState W).toState := by
  simp [Queue.init, init, toState, MemoryConnection.empty, Phase.map]

end JobState

/-! ### The steps of the code are steps of the jobs -/

variable [DecidableEq W] {q : W → DbQueue}

open JobState in
/-- The head of the loop: the pass returns, passes the row over, or claims it. -/
theorem look_toState {s : JobState W} {w : W} {p : Pass Job} (h : s.phase w = .scanning p) :
    ∃ s', JobStep q s (.look w) s' ∧
      look (q w) s.toState w ⟨p.now, p.processed, p.rest.map Job.toRow⟩ = s'.toState := by
  obtain ⟨now, n, rest⟩ := p
  cases rest with
  | nil => exact ⟨_, .finish h, by rw [toState_note, toState_goto]; rfl⟩
  | cons j rest =>
    simp only [look, List.map_cons, Job.getInt_id, Job.columnOrZero_reservedAt,
      Job.columnOrZero_availableAt, updateIf_toState]
    -- The two tests of the loop first, then the compare-and-swap of the claim.
    by_cases hdue : due (q w) now j.availableAt j.reservedAt
    · rw [if_pos hdue]
      by_cases hcas : ∃ stored, s.jobAt j.id = some stored ∧ stored.reservedAt = j.reservedAt
      · obtain ⟨stored, hstored, hguard⟩ := hcas
        refine ⟨_, .claim h hdue hstored hguard, ?_⟩
        rw [if_pos ⟨stored, hstored, hguard⟩, toState_goto]
        dsimp only
        rw [s.store_overwrite j.id _ (j.claimedAt now) (j.toRow_claim now)]
        rfl
      · -- Another worker has the row, or it is gone.
        refine ⟨_, .skip h fun _ stored hstored hguard => hcas ⟨stored, hstored, hguard⟩, ?_⟩
        rw [if_neg hcas, toState_goto]
        rfl
    · refine ⟨_, .skip h fun hdue' => absurd hdue' hdue, ?_⟩
      rw [if_neg hdue, toState_goto]
      rfl

open JobState in
/-- The lookup of the handler starts it, or finds the job unknown. -/
theorem dispatch_toState {s : JobState W} {w : W} {p : Pass Job} {j : Job}
    (h : s.phase w = .holding p j .claimed) :
    ∃ s', JobStep q s (.dispatch w) s' ∧
      dispatch (q w) s.toState w ⟨p.now, p.processed, p.rest.map Job.toRow⟩ j.toRow
        = s'.toState := by
  simp only [dispatch, Job.getString_job, Job.getString_payload, Job.getInt_id]
  cases hh : (q w).handlers j.job with
  | true =>
    refine ⟨_, .start h hh, ?_⟩
    rw [toState_note, toState_goto]
    rfl
  | false =>
    refine ⟨_, .unknown h hh, ?_⟩
    rw [toState_goto]
    rfl

open JobState in
/-- The call after a run: removal, burial or requeue. -/
theorem settle_toState {s : JobState W} {w : W} {p : Pass Job} {j : Job} {pt : Point}
    {c' : State W} (h : s.phase w = .holding p j pt)
    (hstep : settle (q w) s.toState w ⟨p.now, p.processed, p.rest.map Job.toRow⟩ j.toRow pt
      = some c') :
    ∃ s', JobStep q s (.settle w) s' ∧ c' = s'.toState := by
  -- Three points end in the same `remove`.
  have hremove : (s.toState.store (s.toState.conn.remove (bytes "jobs") j.id).2).goto w
        (.scanning (⟨p.now, p.processed, p.rest.map Job.toRow⟩ : Pass Row).next)
      = ((s.withJobs (eraseKey Job.id j.id s.jobs)).goto w (.scanning p.next)).toState := by
    rw [store_remove, toState_goto]
    rfl
  simp only [settle, Job.getInt_id, Option.getD_some] at hstep
  cases pt with
  | claimed => cases hstep
  | running => cases hstep
  | dropping =>
    cases hstep
    exact ⟨_, .drop h, by rw [hremove]; rfl⟩
  | succeeded =>
    cases hstep
    exact ⟨_, .complete h, by rw [hremove]; rfl⟩
  | buried =>
    cases hstep
    exact ⟨_, .clear h, hremove⟩
  | failed what =>
    -- The catch block: the last allowed attempt is buried, an earlier one requeued.
    cases hstep
    simp only [settleFailed, Job.getInt_attempts, Job.getString_job, Job.getString_payload]
    by_cases hmax : (q w).maxAttempts ≤ j.attempts + 1
    · refine ⟨_, .bury h hmax, ?_⟩
      rw [if_pos hmax, store_failed, toState_note, toState_goto]
      rfl
    · refine ⟨_, .requeue h (by omega), ?_⟩
      rw [if_neg hmax, s.store_update j.id _ (j.requeuedAt (q w) p.now) (j.toRow_requeue _ _),
        toState_goto]
      rfl

open JobState in
/-- From the rows of a `JobState`, every step of `DbQueue` is a step of `JobStep`, to the
rows of a `JobState` again. -/
theorem step_toState {s : JobState W} {a : Action W} {c' : State W}
    (h : step q s.toState a = some c') : ∃ s', JobStep q s a s' ∧ c' = s'.toState := by
  cases a with
  | tick n =>
    cases h
    exact ⟨_, .tick s n, rfl⟩
  | push job payload delay =>
    simp only [step, Option.some.injEq] at h
    refine ⟨_, .push s job payload delay, ?_⟩
    rw [toState_note, ← store_push, ← h]
    simp [MemoryConnection.insert, toState]
  | crash w =>
    cases h
    exact ⟨_, .crash s w, by rw [toState_goto]; rfl⟩
  -- A worker in another phase than the action's has no such step.
  | enter w arg =>
    cases hph : s.phase w <;> simp only [step, toState_phase, hph, Phase.map] at h <;> cases h
    exact ⟨_, .enter arg hph, by rw [toState_goto]; rfl⟩
  | snapshot w =>
    cases hph : s.phase w <;> simp only [step, toState_phase, hph, Phase.map] at h <;> cases h
    refine ⟨_, .snapshot hph, ?_⟩
    rw [toState_goto, MemoryConnection.all, tables_jobs]
    rfl
  | look w =>
    cases hph : s.phase w <;> simp only [step, toState_phase, hph, Phase.map] at h <;> cases h
    obtain ⟨s', hs', heq⟩ := look_toState (q := q) hph
    exact ⟨s', hs', heq⟩
  | dispatch w =>
    cases hph : s.phase w with
    | holding p j pt =>
      cases pt <;> simp only [step, toState_phase, hph, Phase.map] at h <;> cases h
      obtain ⟨s', hs', heq⟩ := dispatch_toState (q := q) hph
      exact ⟨s', hs', heq⟩
    | _ => simp only [step, toState_phase, hph, Phase.map] at h; cases h
  | returns w =>
    cases hph : s.phase w with
    | holding p j pt =>
      cases pt <;> simp only [step, toState_phase, hph, Phase.map] at h <;> cases h
      exact ⟨_, .returns hph, by rw [toState_goto]; rfl⟩
    | _ => simp only [step, toState_phase, hph, Phase.map] at h; cases h
  | throws w what =>
    cases hph : s.phase w with
    | holding p j pt =>
      cases pt <;> simp only [step, toState_phase, hph, Phase.map] at h <;> cases h
      refine ⟨_, .throws what hph, ?_⟩
      rw [toState_note, toState_goto, Job.getInt_id]
      rfl
    | _ => simp only [step, toState_phase, hph, Phase.map] at h; cases h
  | throwsOther w =>
    cases hph : s.phase w with
    | holding p j pt =>
      cases pt <;> simp only [step, toState_phase, hph, Phase.map] at h <;> cases h
      exact ⟨_, .throwsOther hph, by rw [toState_goto]; rfl⟩
    | _ => simp only [step, toState_phase, hph, Phase.map] at h; cases h
  | settle w =>
    cases hph : s.phase w with
    | holding p j pt =>
      simp only [step, toState_phase, hph, Phase.map] at h
      exact settle_toState hph h
    | _ => simp only [step, toState_phase, hph, Phase.map] at h; cases h

/-- Every run of the code from the rows of a `JobState`, under a condition `G` on its steps,
is a run of the jobs under the same condition. -/
theorem trace_toState {G : State W → Action W → Prop} {s : JobState W} {as : List (Action W)}
    {c : State W} (h : Trace (Guarded G (Steps (step q))) s.toState as c) :
    ∃ s', Trace (Guarded (fun s : JobState W => G s.toState) (JobStep q)) s as s' ∧
      c = s'.toState := by
  refine h.simulate (R := fun (c : State W) (s : JobState W) => c = s.toState) ?_ rfl
  rintro c s a c' rfl ⟨hG, hstep⟩
  obtain ⟨s', hs', heq⟩ := step_toState hstep
  exact ⟨s', ⟨hG, hs'⟩, heq⟩

/-- The same for the runs from the empty store. -/
theorem trace_init_toState {G : State W → Action W → Prop} {clock : Int}
    {as : List (Action W)} {c : State W}
    (h : Trace (Guarded G (Steps (step q))) (init clock) as c) :
    ∃ s, Trace (Guarded (fun s : JobState W => G s.toState) (JobStep q)) (JobState.init clock)
      as s ∧ c = s.toState :=
  trace_toState (JobState.init_toState clock ▸ h)

end CppLaravel.Queue
