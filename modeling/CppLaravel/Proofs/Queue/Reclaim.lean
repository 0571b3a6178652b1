import CppLaravel.Proofs.Queue.Exclusive

/-!
# `CppLaravel.Proofs.Queue.Reclaim`: when a running job is reclaimed

`retry_after` lets a worker take over a job whose claimant crashed. A claim is stamped with
the `now` of its pass, the time at which that pass *started*, so the age that another worker
reads off the stamp is the age of the pass.

* `one_handler_at_a_time`: no two workers are ever inside the handler of one job, in every
  run in which a pass that finds the stamp of a claim still held runs less than
  `retry_after` seconds after the pass of the holder (`YoungWhenSeen`).
* `stale_stamp_runs_job_twice`: without that condition the property fails. A pass that has
  spent 80 seconds on its first job claims the second with a stamp that is already 80
  seconds old; 15 seconds into that handler another worker finds the stamp stale and starts
  the same job. No handler run took as long as `retry_after`.
-/

set_option autoImplicit false

namespace CppLaravel.Queue

open CppLaravel.Lib
open CppLaravel.Database

variable {W : Type}

/-- `work()` is called with the time at which the pass starts (or `0`, which reads it). -/
def OnTime (s : State W) (a : Action W) : Prop :=
  ∀ arg ∈ a.enter?, arg = 0 ∨ arg = s.clock

instance (s : State W) (a : Action W) : Decidable (OnTime s a) :=
  inferInstanceAs (Decidable (∀ arg ∈ a.enter?, _))

/-- A worker that looks at a row stamped by a pass that still holds the job does so in a
pass that started less than `retry_after` seconds after the holder's. -/
def YoungWhenSeen (q : W → DbQueue) (s : State W) (a : Action W) : Prop :=
  ∀ w ∈ a.look?, ∀ n ∈ (s.phase w).next?, ∀ w', ∀ c ∈ (s.phase w').claim?,
    c.2.getInt (bytes "id") = n.2.getInt (bytes "id") →
    columnOrZero n.2 (bytes "reserved_at") = c.1.now →
    n.1.now - c.1.now < (q w).retryAfter

instance [Fintype W] (q : W → DbQueue) (s : State W) (a : Action W) :
    Decidable (YoungWhenSeen q s a) :=
  inferInstanceAs (Decidable (∀ w ∈ a.look?, ∀ n ∈ (s.phase w).next?, ∀ w',
    ∀ c ∈ (s.phase w').claim?, _))

/-- When worker `w` last started a handler, by the wall clock. -/
def lastStart [DecidableEq W] (s : State W) (w : W) : Option Int :=
  s.log.findSome? fun
    | .started w' _ _ clock => if w' = w then some clock else none
    | _ => none

/-- Every handler that is running was started less than `retry_after` seconds ago. -/
def ShortRuns [DecidableEq W] (q : W → DbQueue) (s : State W) : Prop :=
  ∀ w, ∀ _row ∈ (s.phase w).running?, ∀ started ∈ lastStart s w,
    s.clock - started < (q w).retryAfter

instance [DecidableEq W] [Fintype W] (q : W → DbQueue) (s : State W) :
    Decidable (ShortRuns q s) :=
  inferInstanceAs (Decidable (∀ w, ∀ _row ∈ (s.phase w).running?, ∀ started ∈ lastStart s w, _))

/-- The observations of a phase translate with its rows. -/
theorem claim?_map {ρ ρ' : Type} (f : ρ → ρ') (ph : Phase ρ) :
    (ph.map f).claim? =
      ph.claim?.map fun c => (⟨c.1.now, c.1.processed, c.1.rest.map f⟩, f c.2) := by
  cases ph <;> rfl

theorem next?_map {ρ ρ' : Type} (f : ρ → ρ') (ph : Phase ρ) :
    (ph.map f).next? =
      ph.next?.map fun c => (⟨c.1.now, c.1.processed, c.1.rest.map f⟩, f c.2) := by
  cases ph with
  | scanning p => obtain ⟨now, n, rest⟩ := p; cases rest <;> rfl
  | _ => rfl

theorem running?_map {ρ ρ' : Type} (f : ρ → ρ') (ph : Phase ρ) :
    (ph.map f).running? = ph.running?.map f := by
  cases ph with
  | holding p row pt => cases pt <;> rfl
  | _ => rfl

/-- A worker inside a handler holds the job. -/
theorem holding_of_running? {ρ : Type} {ph : Phase ρ} {row : ρ} (h : ph.running? = some row) :
    ∃ p, ph = .holding p row .running := by
  cases ph with
  | holding p row' pt =>
    cases pt <;> cases h
    exact ⟨p, rfl⟩
  | _ => cases h

variable [DecidableEq W] {q : W → DbQueue}

omit [DecidableEq W] in
/-- A worker that could steal a claim would see its stamp as old. -/
theorem noSteal_of_youngWhenSeen {s : JobState W} {a : Action W} (h : Exclusive s)
    (hnow : NowNonzero s) (hyoung : YoungWhenSeen q s.toState a) : NoSteal q s a := by
  rintro w p j stored rfl hnext hdue hstored hguard w' p' j' pt' hheld hid
  obtain ⟨hstamp, hold⟩ := seen_stamp_of_steal h hnow hdue hstored hguard hheld hid
  have hyoung' := hyoung w rfl (⟨p.now, p.processed, p.rest.map Job.toRow⟩, j.toRow)
    (by rw [JobState.toState_phase, next?_map, hnext]; rfl)
    w' (⟨p'.now, p'.processed, p'.rest.map Job.toRow⟩, j'.toRow)
    (by rw [JobState.toState_phase, claim?_map, hheld]; rfl)
  simp only [Job.getInt_id, Job.columnOrZero_reservedAt] at hyoung'
  have := hyoung' (by rw [hid]) hstamp
  omega

/-- **One handler at a time.** When no pass finds the stamp of a claim that is still held
`retry_after` seconds old, no two workers are inside the handler of the same job. -/
theorem one_handler_at_a_time (q : W → DbQueue) {clock : Int} (hclock : 0 < clock)
    {as : List (Action W)} {s : State W}
    (h : Trace (Guarded (fun s a => OnTime s a ∧ YoungWhenSeen q s a) (Steps (step q)))
      (init clock) as s)
    {w w' : W} {id : Int} (hw : InsideHandler s w id) (hw' : InsideHandler s w' id) : w = w' := by
  obtain ⟨t, ht, rfl⟩ := trace_init_toState h
  have hinv : Exclusive t ∧ NowNonzero t := by
    refine ht.invariant (P := fun t => Exclusive t ∧ NowNonzero t) ?_
      ⟨Exclusive.init clock, NowNonzero.init hclock⟩
    rintro t a t' ⟨hex, hnow⟩ ⟨⟨-, hyoung⟩, hstep⟩
    exact ⟨exclusive_step hex (noSteal_of_youngWhenSeen hex hnow hyoung) hstep,
      nowNonzero_step hnow hstep⟩
  obtain ⟨row, hrow, hid⟩ := hw
  obtain ⟨row', hrow', hid'⟩ := hw'
  rw [JobState.toState_phase, running?_map, Option.mem_def, Option.map_eq_some_iff] at hrow hrow'
  obtain ⟨j, hj, rfl⟩ := hrow
  obtain ⟨j', hj', rfl⟩ := hrow'
  obtain ⟨p, hp⟩ := holding_of_running? hj
  obtain ⟨p', hp'⟩ := holding_of_running? hj'
  rw [Job.getInt_id, Option.some.injEq] at hid hid'
  exact hinv.1.unique w w' p p' j j' _ _ hp hp' (hid.trans hid'.symm)

/-- Two workers with a handler for every job and `retry_after` at its default of 90. -/
def twoWorkers : Bool → DbQueue := fun _ => { handlers := fun _ => true }

/-- The first worker spends 80 seconds on its first job, claims the second, and is 15
seconds into its handler when the second worker passes. -/
def longPass : List (Action Bool) :=
  [.push (bytes "job") [] 0, .push (bytes "job") [] 0,
    .enter true 0, .snapshot true, .look true, .dispatch true, .tick 80, .returns true,
    .settle true, .look true, .dispatch true, .tick 15,
    .enter false 0, .snapshot false, .look false, .dispatch false]

/-- **A running job is started again.** Both passes are called with the present time and no
handler run takes as long as `retry_after`; still both workers end up inside the handler of
job 2. -/
theorem stale_stamp_runs_job_twice :
    ∃ s, Trace (Guarded (fun s a => OnTime s a ∧ ShortRuns twoWorkers s)
        (Steps (step twoWorkers))) (init 1000) longPass s ∧
      ShortRuns twoWorkers s ∧ InsideHandler s true 2 ∧ InsideHandler s false 2 := by
  have h : (run (guard (fun s a => OnTime s a ∧ ShortRuns twoWorkers s) (step twoWorkers))
      (init 1000) longPass).any
        (fun s => ShortRuns twoWorkers s ∧ InsideHandler s true 2 ∧ InsideHandler s false 2)
      = true := by
    decide
  obtain ⟨s, hs, hp⟩ := Option.any_eq_true _ _ |>.mp h
  exact ⟨s, trace_of_run_guard hs, of_decide_eq_true hp⟩

/-- The condition of `one_handler_at_a_time` allows a second worker to look at a job that is
being run: here it comes 15 seconds after the pass that holds the job. -/
theorem one_handler_at_a_time_applies :
    ∃ s, Trace (Guarded (fun s a => OnTime s a ∧ YoungWhenSeen twoWorkers s a)
        (Steps (step twoWorkers))) (init 1000)
        [.push (bytes "job") [] 0, .enter true 0, .snapshot true, .look true, .dispatch true,
          .tick 15, .enter false 0, .snapshot false, .look false] s ∧
      InsideHandler s true 1 ∧ ∀ w, InsideHandler s w 1 → w = true := by
  have h : (run (guard (fun s a => OnTime s a ∧ YoungWhenSeen twoWorkers s a) (step twoWorkers))
      (init 1000) [.push (bytes "job") [] 0, .enter true 0, .snapshot true, .look true,
        .dispatch true, .tick 15, .enter false 0, .snapshot false, .look false]).any
        (fun s => InsideHandler s true 1) = true := by
    decide
  obtain ⟨s, hs, hp⟩ := Option.any_eq_true _ _ |>.mp h
  have hrun := trace_of_run_guard hs
  have hin : InsideHandler s true 1 := of_decide_eq_true hp
  exact ⟨s, hrun, hin, fun w hw => one_handler_at_a_time twoWorkers (by decide) hrun hw hin⟩

end CppLaravel.Queue
