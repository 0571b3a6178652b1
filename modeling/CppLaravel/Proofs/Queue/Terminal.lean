import CppLaravel.Proofs.Queue.Reclaim

/-!
# `CppLaravel.Proofs.Queue.Terminal`: no job is lost, none ends twice

A job ends when its row is removed after a success, when it is written to `failed_jobs`, or
when it is dropped for want of a handler. `Accounted` counts these events: each job has at
most one, a job without one has its row in the table, and a row of a job that has ended
belongs to the worker that is about to remove it.

`every_job_ends_once` is the result about runs: any number of pushers and workers, handlers
that return or throw a `std::exception`, no crash, and no claim old enough to be reclaimed
(`NoReclaim`). It needs nothing about the snapshots being fresh: a stale snapshot can win a
claim, but only of a job that nobody holds and that has not ended.
-/

set_option autoImplicit false

namespace CppLaravel.Queue

open CppLaravel.Lib
open CppLaravel.Database

variable {W : Type}

/-- The job that an event ends. -/
def Event.ends? : Event W → Option Int
  | .completed _ id => some id
  | .dropped _ id => some id
  | .buried _ id => some id
  | _ => none

/-- How often the job `id` has ended. -/
def endings (id : Int) (log : List (Event W)) : Nat := log.countP fun e => e.ends? = some id

/-- No worker dies, and no handler throws what the catch block does not name. -/
def NoCrash : Action W → Prop
  | .throwsOther _ => False
  | .crash _ => False
  | _ => True

instance : (a : Action W) → Decidable (NoCrash a)
  | .throwsOther _ | .crash _ => isFalse id
  | .tick _ | .push _ _ _ | .enter _ _ | .snapshot _ | .look _ | .dispatch _ | .returns _
  | .throws _ _ | .settle _ => isTrue trivial

/-- No worker finds the stamp of a claim old enough to reclaim the job. -/
def NoReclaim (q : W → DbQueue) (s : State W) (a : Action W) : Prop :=
  ∀ w ∈ a.look?, ∀ n ∈ (s.phase w).next?, columnOrZero n.2 (bytes "reserved_at") ≠ 0 →
    n.1.now - columnOrZero n.2 (bytes "reserved_at") < (q w).retryAfter

instance (q : W → DbQueue) (s : State W) (a : Action W) : Decidable (NoReclaim q s a) :=
  inferInstanceAs (Decidable (∀ w ∈ a.look?, ∀ n ∈ (s.phase w).next?, _))

theorem endings_cons (id : Int) (e : Event W) (log : List (Event W)) :
    endings id (e :: log) = endings id log + if e.ends? = some id then 1 else 0 := by
  simp [endings, List.countP_cons]

/-- The account of endings: see the module docstring. -/
structure Accounted (s : JobState W) : Prop where
  atMostOne : ∀ id, endings id s.log ≤ 1
  present : ∀ id, .pushed id ∈ s.log → endings id s.log = 0 → (s.jobAt id).isSome
  gone : ∀ id, (s.jobAt id).isSome → endings id s.log = 1 →
    ∃ w p j, s.phase w = .holding p j .buried ∧ j.id = id
  buried : ∀ w p j, s.phase w = .holding p j .buried → endings j.id s.log = 1
  fresh : ∀ id, endings id s.log ≠ 0 → id ≤ s.nextId

namespace Accounted

theorem init (clock : Int) : Accounted (JobState.init clock : JobState W) where
  atMostOne _ := Nat.zero_le 1
  present _ h := by simp [JobState.init] at h
  gone _ h := by simp [JobState.init, JobState.jobAt] at h
  buried _ _ _ h := by simp [JobState.init] at h
  fresh _ h := by simp [JobState.init, endings] at h

/-- The frame rule: a step that ends no job, and neither adds nor removes a row. -/
theorem frame {s s' : JobState W} (h : Accounted s)
    (hends : ∀ id, endings id s'.log = endings id s.log)
    (hpushed : ∀ id, .pushed id ∈ s'.log → .pushed id ∈ s.log)
    (hrows : ∀ id, (s'.jobAt id).isSome = (s.jobAt id).isSome)
    (hnext : s'.nextId = s.nextId)
    (hburied : ∀ w p j, s'.phase w = .holding p j .buried ↔ s.phase w = .holding p j .buried) :
    Accounted s' where
  atMostOne id := by rw [hends]; exact h.atMostOne id
  present id hp he := by
    rw [hrows]
    exact h.present id (hpushed id hp) (by rw [← hends]; exact he)
  gone id hs he := by
    rw [hrows] at hs
    rw [hends] at he
    obtain ⟨w, p, j, hw, hid⟩ := h.gone id hs he
    exact ⟨w, p, j, (hburied w p j).mpr hw, hid⟩
  buried w p j hw := by
    rw [hends]
    exact h.buried w p j ((hburied w p j).mp hw)
  fresh id he := by
    rw [hends] at he
    rw [hnext]
    exact h.fresh id he

/-- A job that a worker holds, and has not yet buried, has not ended. -/
theorem open_of_holding {s : JobState W} (h : Accounted s) (hex : Exclusive s) {w : W}
    {p : Pass Job} {j : Job} {pt : Point} (hw : s.phase w = .holding p j pt)
    (hpt : pt ≠ .buried) : endings j.id s.log = 0 := by
  by_contra hne
  -- A job that has ended while its row is there is buried, by a worker that holds it.
  have hone : endings j.id s.log = 1 := by
    have := h.atMostOne j.id
    omega
  have hstored := hex.stored w p j pt hw
  obtain ⟨w', p', j', hw', hid⟩ := h.gone j.id (by rw [hstored]; rfl) hone
  cases hex.unique w' w p' p j' j .buried pt hw' hw hid
  rw [hw] at hw'
  cases hw'
  exact hpt rfl

/-- A worker removes the row of its job: the job has one ending from now on, and the other
jobs are as before. -/
theorem remove {s s' : JobState W} (h : Accounted s) (hex : Exclusive s) (hk : Known s) {w : W}
    {p : Pass Job} {j : Job} {pt : Point} (hw : s.phase w = .holding p j pt)
    (hjobs : s'.jobs = eraseKey Job.id j.id s.jobs)
    (hself : endings j.id s'.log = 1)
    (hother : ∀ id, id ≠ j.id → endings id s'.log = endings id s.log)
    (hpushed : ∀ id, .pushed id ∈ s'.log → .pushed id ∈ s.log)
    (hnext : s'.nextId = s.nextId)
    (hphase : ∀ w', w' ≠ w → s'.phase w' = s.phase w')
    (hfree : (s'.phase w).claim? = none) : Accounted s' := by
  have hgone : s'.jobAt j.id = none := by rw [JobState.jobAt, hjobs, getKey_eraseKey_self]
  have hrest : ∀ id, id ≠ j.id → s'.jobAt id = s.jobAt id := fun id hne => by
    rw [JobState.jobAt, hjobs, getKey_eraseKey_ne hne]
    rfl
  -- The job at hand by `hself` and `hgone`, every other as before.
  constructor
  · intro id
    by_cases hid : id = j.id
    · rw [hid, hself]
    · rw [hother id hid]
      exact h.atMostOne id
  · intro id hp he
    by_cases hid : id = j.id
    · rw [hid, hself] at he
      cases he
    · rw [hother id hid] at he
      rw [hrest id hid]
      exact h.present id (hpushed id hp) he
  · intro id hs he
    by_cases hid : id = j.id
    · rw [hid, hgone] at hs
      cases hs
    · rw [hrest id hid] at hs
      rw [hother id hid] at he
      -- The worker that clears another job's row is another worker.
      obtain ⟨w', p', j', hw', hid'⟩ := h.gone id hs he
      have hne : w' ≠ w := by
        rintro rfl
        rw [hw] at hw'
        cases hw'
        exact hid hid'.symm
      exact ⟨w', p', j', (hphase w' hne).trans hw', hid'⟩
  · intro w' p' j' hw'
    have hne : w' ≠ w := by
      rintro rfl
      rw [hw'] at hfree
      cases hfree
    rw [hphase w' hne] at hw'
    have hid : j'.id ≠ j.id := fun hid => hne (hex.unique w' w p' p j' j _ pt hw' hw hid)
    rw [hother j'.id hid]
    exact h.buried w' p' j' hw'
  · intro id he
    rw [hnext]
    by_cases hid : id = j.id
    · rw [hid]
      exact hk j.id (by rw [hex.stored w p j pt hw]; rfl)
    · rw [hother id hid] at he
      exact h.fresh id he

/-- A push adds one row under an id that has no history. -/
theorem push {s : JobState W} (h : Accounted s) (hk : Known s) (job payload : Bytes)
    (delay : Int) : Accounted ((s.addJob job payload delay).note (.pushed (s.nextId + 1))) := by
  have hends : ∀ id, endings id (.pushed (s.nextId + 1) :: s.log) = endings id s.log :=
    fun id => by simp [endings_cons, Event.ends?]
  have hrows : ∀ id, ((s.addJob job payload delay).note (.pushed (s.nextId + 1))).jobAt id
      = if id = s.nextId + 1 then some (Job.pushed (s.nextId + 1) job payload delay s.clock)
        else s.jobAt id := jobAt_addJob hk job payload delay
  constructor
  · exact fun id => (hends id).trans_le (h.atMostOne id)
  · intro id hp he
    rw [hrows]
    split
    · rfl
    · rename_i hne
      rcases List.mem_cons.mp hp with heq | hp
      · exact absurd (by cases heq; rfl) hne
      · exact h.present id hp ((hends id).symm.trans he)
  · intro id hs he
    -- A job that has ended has an id that the counter has passed, so it is not the new one.
    have he' : endings id s.log = 1 := (hends id).symm.trans he
    have hle := h.fresh id (by omega)
    rw [hrows, if_neg (by omega)] at hs
    exact h.gone id hs he'
  · intro w p j hw
    exact (hends j.id).trans (h.buried w p j hw)
  · intro id he
    have := h.fresh id (fun h0 => he ((hends id).trans h0))
    show id ≤ s.nextId + 1
    omega

end Accounted

variable [DecidableEq W] {q : W → DbQueue}

/-- A worker that is not about to clear a buried row, and does not get there, leaves the set
of such workers alone. -/
theorem buried_goto_iff {s : JobState W} {w : W} {ph : Phase Job}
    (hold : ∀ p j, s.phase w ≠ .holding p j .buried) (hnew : ∀ p j, ph ≠ .holding p j .buried)
    (w' : W) (p : Pass Job) (j : Job) :
    (s.goto w ph).phase w' = .holding p j .buried ↔ s.phase w' = .holding p j .buried := by
  rw [JobState.phase_goto]
  by_cases hw : w' = w
  · subst hw
    rw [if_pos rfl]
    exact ⟨fun h => absurd h (hnew p j), fun h => absurd h (hold p j)⟩
  · rw [if_neg hw]

open JobState in
/-- The last attempt writes the job to `failed_jobs`: it ends, and its row stays until the
worker clears it. -/
theorem Accounted.bury {s : JobState W} (h : Accounted s) (hex : Exclusive s) (hk : Known s) {w : W}
    {p : Pass Job} {j : Job} {what : Bytes} (hw : s.phase w = .holding p j (.failed what)) :
    Accounted (((s.addFailed j what).goto w (.holding p j .buried)).note (.buried w j.id)) := by
  have hends : ∀ id, endings id (.buried w j.id :: s.log)
      = endings id s.log + if j.id = id then 1 else 0 := fun id => by
    simp [endings_cons, Event.ends?]
  have hopen := h.open_of_holding hex hw (by simp)
  have hphase : ∀ w', (((s.addFailed j what).goto w (.holding p j .buried)).note
      (.buried w j.id)).phase w' = if w' = w then .holding p j .buried else s.phase w' :=
    fun w' => phase_goto _ _ _ _
  constructor
  · intro id
    refine (hends id).trans_le ?_
    have := h.atMostOne id
    split
    · rename_i hid
      subst hid
      omega
    · omega
  · intro id hp he
    have he' : endings id s.log + (if j.id = id then 1 else 0) = 0 := (hends id).symm.trans he
    refine h.present id ?_ (by omega)
    simpa [note, goto, addFailed] using hp
  · intro id hs he
    by_cases hid : j.id = id
    · -- The row of the buried job stays, and this worker clears it.
      exact ⟨w, p, j, by rw [hphase, if_pos rfl], hid⟩
    · have he' : endings id s.log = 1 := by
        have := (hends id).symm.trans he
        rwa [if_neg hid, Nat.add_zero] at this
      obtain ⟨w', p', j', hw', hid'⟩ := h.gone id hs he'
      refine ⟨w', p', j', ?_, hid'⟩
      rw [hphase, if_neg, hw']
      rintro rfl
      rw [hw] at hw'
      cases hw'
  · intro w' p' j' hw'
    rw [hphase] at hw'
    refine (hends j'.id).trans ?_
    by_cases hne : w' = w
    · rw [if_pos hne] at hw'
      cases hw'
      rw [if_pos rfl, hopen]
    · rw [if_neg hne] at hw'
      have hid : j.id ≠ j'.id := fun hid => hne (hex.unique w' w p' p j' j _ _ hw' hw hid.symm)
      rw [if_neg hid]
      exact h.buried w' p' j' hw'
  · intro id he
    show id ≤ s.nextId
    by_cases hid : j.id = id
    · exact hk id (by rw [← hid, hex.stored w p j _ hw]; rfl)
    · refine h.fresh id fun h0 => he ((hends id).trans ?_)
      rw [if_neg hid, h0]


omit [DecidableEq W] in
/-- An event that ends no job and is no push changes nothing. -/
theorem Accounted.note {s : JobState W} (h : Accounted s) {e : Event W} (hends : e.ends? = none)
    (hpushed : ∀ id, e ≠ .pushed id) : Accounted (s.note e) := by
  refine h.frame (fun id => ?_) (fun id hp => ?_) (fun _ => rfl) rfl fun _ _ _ => Iff.rfl
  · show endings id (e :: s.log) = _
    rw [endings_cons, hends]
    rfl
  · exact (List.mem_cons.mp hp).resolve_left (hpushed id).symm

/-- Neither does a worker that moves between phases in which its job is not buried. -/
theorem Accounted.move {s : JobState W} (h : Accounted s) {w : W} {ph : Phase Job}
    (hold : ∀ p j, s.phase w ≠ .holding p j .buried) (hnew : ∀ p j, ph ≠ .holding p j .buried) :
    Accounted (s.goto w ph) :=
  h.frame (fun _ => rfl) (fun _ => id) (fun _ => rfl) rfl (buried_goto_iff hold hnew)

omit [DecidableEq W] in
/-- Nor does a row that is overwritten under its own id. -/
theorem Accounted.overwrite {s : JobState W} (h : Accounted s) {id : Int} {b : Job}
    (hb : b.id = id) : Accounted (s.withJobs (setKey Job.id id b s.jobs)) :=
  h.frame (fun _ => rfl) (fun _ hp => hp) (fun id' => isSome_getKey_setKey hb id' s.jobs) rfl
    fun _ _ _ => Iff.rfl

open JobState in
/-- A worker removes the row of its job, and with it the job ends. -/
theorem Accounted.finish {s : JobState W} (h : Accounted s) (hex : Exclusive s) (hk : Known s)
    {w : W} {p : Pass Job} {j : Job} {pt : Point} (hw : s.phase w = .holding p j pt)
    (hpt : pt ≠ .buried) {e : Event W} (hends : e.ends? = some j.id)
    (hpushed : ∀ id, e ≠ .pushed id) :
    Accounted (((s.withJobs (eraseKey Job.id j.id s.jobs)).goto w (.scanning p.next)).note e) := by
  have hopen := h.open_of_holding hex hw hpt
  refine h.remove hex hk hw rfl ?_ (fun id hne => ?_) (fun id hp => ?_) rfl
    (fun w' hne => by exact (phase_goto _ w w' _).trans (if_neg hne))
    (by exact congrArg Phase.claim? (phase_goto_self _ _ _))
  · show endings j.id (e :: s.log) = 1
    rw [endings_cons, hopen, hends, if_pos rfl]
  · show endings id (e :: s.log) = endings id s.log
    rw [endings_cons, hends, if_neg fun heq => hne (Option.some.inj heq).symm, Nat.add_zero]
  · exact (List.mem_cons.mp hp).resolve_left (hpushed id).symm

open JobState in
/-- Every step but a crash keeps the account, while claims have one holder. -/
theorem accounted_step {s s' : JobState W} {a : Action W} (h : Accounted s) (hex : Exclusive s)
    (hk : Known s) (hcrash : NoCrash a) (hstep : JobStep q s a s') : Accounted s' := by
  cases hstep with
  | tick n => exact h.frame (fun _ => rfl) (fun _ => id) (fun _ => rfl) rfl fun _ _ _ => Iff.rfl
  | push job payload delay => exact h.push hk job payload delay
  -- The worker moves, and at most notes that its pass returned or its handler ran.
  | enter arg hw => exact h.move (by simp [hw]) (by simp)
  | snapshot hw => exact h.move (by simp [hw]) (by simp)
  | finish hw => exact (h.move (by simp [hw]) (by simp)).note rfl (by simp)
  | skip hw hno => exact h.move (by simp [hw]) (by simp)
  | start hw hh => exact (h.move (by simp [hw]) (by simp)).note rfl (by simp)
  | unknown hw hh => exact h.move (by simp [hw]) (by simp)
  | returns hw => exact h.move (by simp [hw]) (by simp)
  | throws what hw => exact (h.move (by simp [hw]) (by simp)).note rfl (by simp)
  -- A claim and a requeue overwrite the row of the job.
  | @claim w now n j stored rest hw hdue hstored hguard =>
    have hid : (j.claimedAt now).id = j.id := rfl
    exact (h.overwrite hid).move (by simp [withJobs, hw]) (by simp)
  | @requeue w p j what hw hmax =>
    have hid : (j.requeuedAt (q w) p.now).id = j.id := rfl
    exact (h.overwrite hid).move (by simp [withJobs, hw]) (by simp)
  -- The endings.
  | complete hw => exact h.finish hex hk hw (by simp) rfl (by simp)
  | drop hw => exact h.finish hex hk hw (by simp) rfl (by simp)
  | bury hw hmax => exact h.bury hex hk hw
  | @clear w p j hw =>
    exact h.remove hex hk hw rfl (h.buried w p j hw) (fun _ _ => rfl) (fun _ => id) rfl
      (fun w' hne => by exact (phase_goto _ w w' _).trans (if_neg hne))
      (by exact congrArg Phase.claim? (phase_goto_self _ _ _))
  | throwsOther hw => exact hcrash.elim
  | crash w => exact hcrash.elim

omit [DecidableEq W] in
/-- Without a reclaim only unclaimed jobs are claimed. -/
theorem noSteal_of_noReclaim {s : JobState W} {a : Action W} (h : Exclusive s)
    (hnow : NowNonzero s) (hno : NoReclaim q s.toState a) : NoSteal q s a := by
  rintro w p j stored rfl hnext hdue hstored hguard w' p' j' pt' hheld hid
  obtain ⟨hstamp, hold⟩ := seen_stamp_of_steal h hnow hdue hstored hguard hheld hid
  have hne : p'.now ≠ 0 := hnow.now w' p'.now (by rw [hheld]; rfl)
  have hno' := hno w rfl (⟨p.now, p.processed, p.rest.map Job.toRow⟩, j.toRow)
    (by rw [JobState.toState_phase, next?_map, hnext]; rfl)
  simp only [Job.columnOrZero_reservedAt] at hno'
  have := hno' (by omega)
  omega

omit [DecidableEq W] in
/-- The holders of a claim, read off the records. -/
theorem holding_of_holdsClaim {s : JobState W} {w : W} {id : Int}
    (h : HoldsClaim s.toState w id) : ∃ p j pt, s.phase w = .holding p j pt ∧ j.id = id := by
  obtain ⟨c, hc, hid⟩ := h
  rw [JobState.toState_phase, claim?_map, Option.mem_def, Option.map_eq_some_iff] at hc
  obtain ⟨⟨p, j⟩, hpj, rfl⟩ := hc
  rw [Job.getInt_id, Option.some.injEq] at hid
  cases hph : s.phase w with
  | holding p' j' pt =>
    rw [hph] at hpj
    cases hpj
    exact ⟨p, j, pt, rfl, hid⟩
  | _ => rw [hph] at hpj; cases hpj

/-- **No job is lost and none ends twice.** For any pushers and workers, when no worker
crashes and no claim is old enough to be reclaimed: every pushed job has at most one ending,
without one its row is in the table, and a claim has at most one holder. -/
theorem every_job_ends_once (q : W → DbQueue) {clock : Int} (hclock : 0 < clock)
    {as : List (Action W)} {s : State W}
    (h : Trace (Guarded (fun s a => NoCrash a ∧ NoReclaim q s a) (Steps (step q)))
      (init clock) as s) :
    (∀ id, .pushed id ∈ s.log → endings id s.log ≤ 1 ∧
      (endings id s.log = 0 → (storedRow s id).isSome)) ∧
    ∀ w w' id, HoldsClaim s w id → HoldsClaim s w' id → w = w' := by
  obtain ⟨t, ht, rfl⟩ := trace_init_toState h
  have hinv : Exclusive t ∧ NowNonzero t ∧ Known t ∧ Accounted t := by
    refine ht.invariant (P := fun t => Exclusive t ∧ NowNonzero t ∧ Known t ∧ Accounted t) ?_
      ⟨Exclusive.init clock, NowNonzero.init hclock, Known.init clock, Accounted.init clock⟩
    rintro t a t' ⟨hex, hnow, hk, hacc⟩ ⟨⟨hcrash, hno⟩, hstep⟩
    exact ⟨exclusive_step hex (noSteal_of_noReclaim hex hnow hno) hstep,
      nowNonzero_step hnow hstep, known_step hk hstep, accounted_step hacc hex hk hcrash hstep⟩
  obtain ⟨hex, -, -, hacc⟩ := hinv
  refine ⟨fun id hp => ⟨hacc.atMostOne id, fun he => ?_⟩, fun w w' id hw hw' => ?_⟩
  · rw [storedRow, JobState.find_toState, Option.isSome_map]
    exact hacc.present id hp he
  · obtain ⟨p, j, pt, hph, hid⟩ := holding_of_holdsClaim hw
    obtain ⟨p', j', pt', hph', hid'⟩ := holding_of_holdsClaim hw'
    exact hex.unique w w' p p' j j' pt pt' hph hph' (hid.trans hid'.symm)

/-- A stale snapshot may win a claim here: the first worker copies the table, the second runs
the job, fails and requeues it, and the first then claims it with the row it copied. The job
still ends once. -/
theorem every_job_ends_once_applies :
    ∃ s, Trace (Guarded (fun s a => NoCrash a ∧ NoReclaim twoWorkers s a)
        (Steps (step twoWorkers))) (init 1000)
        [.push (bytes "job") [] 0, .enter true 0, .snapshot true, .enter false 0,
          .snapshot false, .look false, .dispatch false, .throws false [], .settle false,
          .look true, .dispatch true, .returns true, .settle true, .look true, .look false] s ∧
      .pushed 1 ∈ s.log ∧ endings 1 s.log ≤ 1 := by
  have h : (run (guard (fun s a => NoCrash a ∧ NoReclaim twoWorkers s a) (step twoWorkers))
      (init 1000) [.push (bytes "job") [] 0, .enter true 0, .snapshot true, .enter false 0,
        .snapshot false, .look false, .dispatch false, .throws false [], .settle false,
        .look true, .dispatch true, .returns true, .settle true, .look true, .look false]).any
        (fun s => Event.pushed 1 ∈ s.log) = true := by
    decide
  obtain ⟨s, hs, hp⟩ := Option.any_eq_true _ _ |>.mp h
  have hrun := trace_of_run_guard hs
  have hmem : Event.pushed 1 ∈ s.log := of_decide_eq_true hp
  exact ⟨s, hrun, hmem, ((every_job_ends_once twoWorkers (by decide) hrun).1 1 hmem).1⟩

end CppLaravel.Queue
