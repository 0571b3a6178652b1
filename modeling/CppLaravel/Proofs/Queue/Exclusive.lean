import CppLaravel.Proofs.Queue.Refinement

/-!
# `CppLaravel.Proofs.Queue.Exclusive`: a claim has one holder

`Exclusive` is the invariant of the claim protocol: a job that a worker holds is stored
exactly as that worker claimed it, and no second worker holds it. Every step keeps it except
one, a claim of a job that is still held. `NoSteal` is the condition that this step is not
taken; `exclusive_step` is the step lemma under it.

`NowNonzero` says that no pass works at time `0`, the value that marks a job as unclaimed.
Together with `Exclusive` it links the stored stamp to the holder: `seen_stamp_of_steal`
shows that a steal is only possible for a worker that saw the holder's own stamp and took it
for stale.
-/

set_option autoImplicit false

namespace CppLaravel.Queue

open CppLaravel.Lib
open CppLaravel.Database

variable {W : Type}

namespace JobState

theorem phase_goto [DecidableEq W] (s : JobState W) (w w' : W) (ph : Phase Job) :
    (s.goto w ph).phase w' = if w' = w then ph else s.phase w' := by
  simp [goto, Function.update_apply]

@[simp] theorem phase_goto_self [DecidableEq W] (s : JobState W) (w : W) (ph : Phase Job) :
    (s.goto w ph).phase w = ph := by
  simp [phase_goto]

/-- A claimed job, or a requeued one, is stored under its own id when it replaces a row. -/
theorem jobAt_setKey_self {s : JobState W} {id : Int} {j j' : Job} (hj : s.jobAt id = some j)
    (hid : j'.id = id) : getKey Job.id id (setKey Job.id id j' s.jobs) = some j' := by
  rw [getKey_setKey_self hid, show getKey Job.id id s.jobs = some j from hj]
  rfl

end JobState

/-- The claim invariant: held jobs are stored as they were claimed, and have one holder. -/
structure Exclusive (s : JobState W) : Prop where
  stored : ∀ w p j pt, s.phase w = .holding p j pt → s.jobAt j.id = some (j.claimedAt p.now)
  unique : ∀ w w' p p' j j' pt pt', s.phase w = .holding p j pt →
    s.phase w' = .holding p' j' pt' → j.id = j'.id → w = w'

/-- The action does not claim a job that some worker holds. -/
def NoSteal (q : W → DbQueue) (s : JobState W) (a : Action W) : Prop :=
  ∀ w p j stored, a = .look w → (s.phase w).next? = some (p, j) →
    due (q w) p.now j.availableAt j.reservedAt → s.jobAt j.id = some stored →
    stored.reservedAt = j.reservedAt →
    ∀ w' p' j' pt', s.phase w' = .holding p' j' pt' → j'.id ≠ j.id

namespace Exclusive

theorem init (clock : Int) : Exclusive (JobState.init clock : JobState W) :=
  ⟨fun _ _ _ _ h => by simp [JobState.init] at h, fun _ _ _ _ _ _ _ _ h => by
    simp [JobState.init] at h⟩

/-- The frame rule: one worker moves, the rows of the jobs that the others hold stay, and
what the worker holds afterwards is stored as claimed and held by no other. -/
theorem of_frame {s s' : JobState W} (w : W) (h : Exclusive s)
    (hphase : ∀ w', w' ≠ w → s'.phase w' = s.phase w')
    (hframe : ∀ w' p j pt, w' ≠ w → s.phase w' = .holding p j pt →
      s'.jobAt j.id = s.jobAt j.id)
    (hself : ∀ p j pt, s'.phase w = .holding p j pt →
      s'.jobAt j.id = some (j.claimedAt p.now) ∧
        ∀ w' p' j' pt', w' ≠ w → s.phase w' = .holding p' j' pt' → j'.id ≠ j.id) :
    Exclusive s' := by
  -- The worker that moves by `hself`, the others by `hphase` and `hframe`.
  constructor
  · intro w₁ p j pt h₁
    by_cases hw : w₁ = w
    · subst hw
      exact (hself p j pt h₁).1
    · rw [hphase w₁ hw] at h₁
      rw [hframe w₁ p j pt hw h₁]
      exact h.stored w₁ p j pt h₁
  · intro w₁ w₂ p p' j j' pt pt' h₁ h₂ hid
    by_cases hw₁ : w₁ = w
    · subst hw₁
      by_cases hw₂ : w₂ = w₁
      · exact hw₂.symm
      · rw [hphase w₂ hw₂] at h₂
        exact absurd hid.symm ((hself p j pt h₁).2 w₂ p' j' pt' hw₂ h₂)
    · rw [hphase w₁ hw₁] at h₁
      by_cases hw₂ : w₂ = w
      · subst hw₂
        exact absurd hid ((hself p' j' pt' h₂).2 w₁ p j pt hw₁ h₁)
      · rw [hphase w₂ hw₂] at h₂
        exact h.unique w₁ w₂ p p' j j' pt pt' h₁ h₂ hid

/-- A worker that lets go of its job, or holds none, keeps the invariant when only rows that
no other worker holds change. -/
theorem release {s s' : JobState W} (w : W) (h : Exclusive s)
    (hphase : ∀ w', w' ≠ w → s'.phase w' = s.phase w')
    (hself : (s'.phase w).claim? = none)
    (hframe : ∀ w' p j pt, w' ≠ w → s.phase w' = .holding p j pt →
      s'.jobAt j.id = s.jobAt j.id) : Exclusive s' := by
  refine h.of_frame w hphase hframe fun p j pt hp => ?_
  rw [hp] at hself
  cases hself

/-- A worker that goes on with the job it holds keeps the invariant. -/
theorem advance {s s' : JobState W} {w : W} {p : Pass Job} {j : Job} {pt pt' : Point}
    (h : Exclusive s) (hw : s.phase w = .holding p j pt) (hw' : s'.phase w = .holding p j pt')
    (hphase : ∀ w', w' ≠ w → s'.phase w' = s.phase w')
    (hjobs : s'.jobs = s.jobs) : Exclusive s' := by
  have hjob : ∀ id, s'.jobAt id = s.jobAt id := fun id => by simp only [JobState.jobAt, hjobs]
  refine h.of_frame w hphase (fun _ _ _ _ _ _ => hjob _) fun p₁ j₁ pt₁ h₁ => ?_
  rw [hw'] at h₁
  cases h₁
  refine ⟨(hjob _).trans (h.stored w p j pt hw), fun w₂ p₂ j₂ pt₂ hne h₂ hid => ?_⟩
  exact hne (h.unique w₂ w p₂ p j₂ j pt₂ pt h₂ hw hid)

/-- The rows of the other workers' jobs stay when the row of a held job is replaced or
erased. -/
theorem frame_of_ne {s : JobState W} {w : W} {p : Pass Job} {j : Job} {pt : Point}
    {jobs : List Job} (h : Exclusive s) (hw : s.phase w = .holding p j pt)
    (hjobs : ∀ id, id ≠ j.id → getKey Job.id id jobs = s.jobAt id) :
    ∀ w' p' j' pt', w' ≠ w → s.phase w' = .holding p' j' pt' →
      getKey Job.id j'.id jobs = s.jobAt j'.id :=
  fun w' p' j' pt' hne h' => hjobs j'.id fun hid =>
    hne (h.unique w' w p' p j' j pt' pt h' hw hid)

end Exclusive

variable [DecidableEq W] {q : W → DbQueue}

open JobState in
/-- Every step that steals no claim keeps the invariant. -/
theorem exclusive_step {s s' : JobState W} {a : Action W} (h : Exclusive s)
    (hsteal : NoSteal q s a) (hstep : JobStep q s a s') : Exclusive s' := by
  have hother : ∀ {s : JobState W} {w : W} {ph : Phase Job}, ∀ w', w' ≠ w →
      (s.goto w ph).phase w' = s.phase w' := fun w' hne => by rw [phase_goto, if_neg hne]
  cases hstep with
  | tick n => exact ⟨h.stored, h.unique⟩
  | push job payload delay =>
    refine ⟨fun w p j pt hw => ?_, h.unique⟩
    -- The new row stands behind every row of a held job.
    have hj := h.stored w p j pt hw
    show getKey Job.id j.id (s.jobs ++ _) = _
    rw [getKey_append, show getKey Job.id j.id s.jobs = _ from hj]
    rfl
  -- A worker at the head of the loop holds no job.
  | enter arg hw => exact h.release _ hother (by rw [phase_goto_self]; rfl) fun _ _ _ _ _ _ => rfl
  | snapshot hw => exact h.release _ hother (by rw [phase_goto_self]; rfl) fun _ _ _ _ _ _ => rfl
  | finish hw =>
    exact h.release _ hother (by show ((s.goto _ _).phase _).claim? = _; rw [phase_goto_self]; rfl)
      fun _ _ _ _ _ _ => rfl
  | skip hw hno => exact h.release _ hother (by rw [phase_goto_self]; rfl) fun _ _ _ _ _ _ => rfl
  | @claim w now n j stored rest hw hdue hstored hguard =>
    -- The one step that makes a holder: the condition says that there is none yet.
    have hfree := hsteal w ⟨now, n, j :: rest⟩ j stored rfl (by rw [hw]; rfl) hdue hstored hguard
    have hid : (j.claimedAt now).id = j.id := rfl
    refine h.of_frame w hother (fun w' p' j' pt' _ h' => ?_) fun p₁ j₁ pt₁ h₁ => ?_
    · exact getKey_setKey_ne hid (hfree w' p' j' pt' h') s.jobs
    · rw [phase_goto_self] at h₁
      cases h₁
      exact ⟨jobAt_setKey_self hstored hid, fun w' p' j' pt' _ h' => hfree w' p' j' pt' h'⟩
  -- The worker goes on with the job it holds.
  | start hw hh => exact h.advance hw (by exact phase_goto_self s _ _) hother rfl
  | unknown hw hh => exact h.advance hw (by exact phase_goto_self s _ _) hother rfl
  | returns hw => exact h.advance hw (by exact phase_goto_self s _ _) hother rfl
  | throws what hw => exact h.advance hw (by exact phase_goto_self s _ _) hother rfl
  | throwsOther hw =>
    exact h.release _ hother (by rw [phase_goto_self]; rfl) fun _ _ _ _ _ _ => rfl
  -- The worker lets go of its job, whose row it removes or rewrites.
  | complete hw =>
    exact h.release _ hother (by exact congrArg Phase.claim? (phase_goto_self _ _ _))
      (h.frame_of_ne hw fun id hid => getKey_eraseKey_ne hid s.jobs)
  | drop hw =>
    exact h.release _ hother (by exact congrArg Phase.claim? (phase_goto_self _ _ _))
      (h.frame_of_ne hw fun id hid => getKey_eraseKey_ne hid s.jobs)
  | bury hw hmax => exact h.advance hw (by exact phase_goto_self _ _ _) hother rfl
  | clear hw =>
    exact h.release _ hother (by rw [phase_goto_self]; rfl)
      (h.frame_of_ne hw fun id hid => getKey_eraseKey_ne hid s.jobs)
  | @requeue w p j what hw hmax =>
    have hid : (j.requeuedAt (q w) p.now).id = j.id := rfl
    exact h.release _ hother (by rw [phase_goto_self]; rfl)
      (h.frame_of_ne hw fun id hne => getKey_setKey_ne hid hne s.jobs)
  | crash w => exact h.release _ hother (by rw [phase_goto_self]; rfl) fun _ _ _ _ _ _ => rfl

/-! ### The ids of the rows -/

/-- Every row has an id that the counter has passed, so a new id is the id of no row. -/
def Known (s : JobState W) : Prop := ∀ id, (s.jobAt id).isSome → id ≤ s.nextId

omit [DecidableEq W] in
theorem Known.init (clock : Int) : Known (JobState.init clock : JobState W) :=
  fun _ h => by simp [JobState.init, JobState.jobAt] at h

omit [DecidableEq W] in
/-- A push is found under its own new id; the other jobs are found as before. -/
theorem jobAt_addJob {s : JobState W} (h : Known s) (job payload : Bytes) (delay id : Int) :
    (s.addJob job payload delay).jobAt id =
      if id = s.nextId + 1 then some (Job.pushed (s.nextId + 1) job payload delay s.clock)
      else s.jobAt id := by
  show getKey Job.id id (s.jobs ++ _) = _
  rw [getKey_append, getKey_cons, getKey_nil]
  by_cases hid : id = s.nextId + 1
  · have hnone : getKey Job.id id s.jobs = none := by
      by_contra hne
      have := h id (Option.isSome_iff_ne_none.mpr hne)
      omega
    rw [hnone, if_pos hid, hid]
    exact if_pos rfl
  · rw [if_neg hid, if_neg (fun heq => hid heq.symm), Option.or_none]
    rfl

open JobState in
/-- No step makes a row with an unknown id. -/
theorem known_step {s s' : JobState W} {a : Action W} (h : Known s) (hstep : JobStep q s a s') :
    Known s' := by
  have hset : ∀ {k : Int} {b : Job}, b.id = k → ∀ id,
      (getKey Job.id id (setKey Job.id k b s.jobs)).isSome → id ≤ s.nextId :=
    fun hb id hs => h id (by rwa [isSome_getKey_setKey hb] at hs)
  have herase : ∀ (k id : Int), (getKey Job.id id (eraseKey Job.id k s.jobs)).isSome →
      id ≤ s.nextId := fun k id hs => by
    by_cases hid : id = k
    · subst hid
      rw [getKey_eraseKey_self] at hs
      cases hs
    · exact h id (by rwa [getKey_eraseKey_ne hid] at hs)
  -- Rows are rewritten and removed under known ids; only a push makes a new one.
  cases hstep with
  | push job payload delay =>
    intro id hs
    have hs : ((s.addJob job payload delay).jobAt id).isSome := hs
    rw [jobAt_addJob h] at hs
    show id ≤ s.nextId + 1
    split at hs
    · omega
    · have := h id hs
      omega
  | claim hw hdue hstored hguard => exact hset rfl
  | requeue hw hmax => exact hset rfl
  | complete hw => exact herase _
  | drop hw => exact herase _
  | clear hw => exact herase _
  | _ => exact h

/-! ### The time of a pass -/

/-- The time a pass was given, once the worker is inside `work()`. -/
def Phase.now? {ρ : Type} : Phase ρ → Option Int
  | .idle => none
  | .entered now => some now
  | .scanning p => some p.now
  | .holding p _ _ => some p.now

/-- The rows of the copy that the loop has not reached. -/
def Phase.ahead {ρ : Type} : Phase ρ → List ρ
  | .scanning p => p.rest
  | .holding p _ _ => p.rest
  | _ => []

open JobState in
/-- A step keeps the time of every pass; only entering `work()` sets one. -/
theorem now?_step {s s' : JobState W} {a : Action W} (hstep : JobStep q s a s') {w : W}
    {now : Int} (hnow : (s'.phase w).now? = some now) :
    (s.phase w).now? = some now ∨
      ∃ arg, a = .enter w arg ∧ now = if arg = 0 then s.clock else arg := by
  -- A worker that moves inside `work()` keeps its `now`, one that leaves has none.
  have hkeep : ∀ {s₁ : JobState W} {w₁ : W} {ph : Phase Job},
      s₁.phase = Function.update s.phase w₁ ph →
      (∀ t, ph.now? = some t → (s.phase w₁).now? = some t) →
      (s₁.phase w).now? = some now → (s.phase w).now? = some now := by
    intro s₁ w₁ ph hs₁ hph h
    rw [hs₁] at h
    by_cases hw : w = w₁
    · subst hw
      rw [Function.update_self] at h
      exact hph now h
    · rwa [Function.update_of_ne hw] at h
  -- By cases on the step: every phase inside the loop carries the pass along.
  cases hstep with
  | tick n => exact .inl hnow
  | push job payload delay => exact .inl hnow
  | @enter w₁ arg hw =>
    by_cases h : w = w₁
    · subst h
      rw [phase_goto_self] at hnow
      cases hnow
      exact .inr ⟨arg, rfl, rfl⟩
    · rw [phase_goto, if_neg h] at hnow
      exact .inl hnow
  | snapshot hw => exact .inl (hkeep rfl (fun t ht => by rw [hw]; exact ht) hnow)
  | finish hw => exact .inl (hkeep rfl (fun t ht => by cases ht) hnow)
  | skip hw hno => exact .inl (hkeep rfl (fun t ht => by rw [hw]; exact ht) hnow)
  | claim hw hdue hstored hguard => exact .inl (hkeep rfl (fun t ht => by rw [hw]; exact ht) hnow)
  | start hw hh => exact .inl (hkeep rfl (fun t ht => by rw [hw]; exact ht) hnow)
  | unknown hw hh => exact .inl (hkeep rfl (fun t ht => by rw [hw]; exact ht) hnow)
  | returns hw => exact .inl (hkeep rfl (fun t ht => by rw [hw]; exact ht) hnow)
  | throws what hw => exact .inl (hkeep rfl (fun t ht => by rw [hw]; exact ht) hnow)
  | throwsOther hw => exact .inl (hkeep rfl (fun t ht => by cases ht) hnow)
  | complete hw => exact .inl (hkeep rfl (fun t ht => by rw [hw]; exact ht) hnow)
  | drop hw => exact .inl (hkeep rfl (fun t ht => by rw [hw]; exact ht) hnow)
  | bury hw hmax => exact .inl (hkeep rfl (fun t ht => by rw [hw]; exact ht) hnow)
  | clear hw => exact .inl (hkeep rfl (fun t ht => by rw [hw]; exact ht) hnow)
  | requeue hw hmax => exact .inl (hkeep rfl (fun t ht => by rw [hw]; exact ht) hnow)
  | crash w₁ => exact .inl (hkeep rfl (fun t ht => by cases ht) hnow)

/-- The clock never goes back. -/
theorem clock_le_step {s s' : JobState W} {a : Action W} (hstep : JobStep q s a s') :
    s.clock ≤ s'.clock := by
  cases hstep with
  | tick n => exact Int.le_add_of_nonneg_right (Int.natCast_nonneg n)
  | _ => exact Int.le_refl _

/-- The clock is positive, and no pass works at the time `0`. -/
structure NowNonzero (s : JobState W) : Prop where
  clock : 0 < s.clock
  now : ∀ w now, (s.phase w).now? = some now → now ≠ 0

omit [DecidableEq W] in
theorem NowNonzero.init {clock : Int} (h : 0 < clock) :
    NowNonzero (JobState.init clock : JobState W) :=
  ⟨h, fun _ _ hnow => by simp [JobState.init, Phase.now?] at hnow⟩

/-- `work(0)` reads the positive clock, so no pass ever works at `0`. -/
theorem nowNonzero_step {s s' : JobState W} {a : Action W} (h : NowNonzero s)
    (hstep : JobStep q s a s') : NowNonzero s' := by
  have hclock := h.clock
  refine ⟨Int.lt_of_lt_of_le hclock (clock_le_step hstep), fun w now hnow => ?_⟩
  rcases now?_step hstep hnow with hold | ⟨arg, -, rfl⟩
  · exact h.now w now hold
  · split <;> omega

omit [DecidableEq W] in
/-- A worker that would steal a claim saw the stamp of the pass that holds it, and took it
for stale. -/
theorem seen_stamp_of_steal {s : JobState W} (h : Exclusive s) (hnow : NowNonzero s)
    {w w' : W} {now reserved available : Int} {j stored j' : Job} {p' : Pass Job} {pt' : Point}
    (hdue : due (q w) now available reserved) (hstored : s.jobAt j.id = some stored)
    (hguard : stored.reservedAt = reserved)
    (hheld : s.phase w' = .holding p' j' pt') (hid : j'.id = j.id) :
    reserved = p'.now ∧ (q w).retryAfter ≤ now - p'.now := by
  have hj' := h.stored w' p' j' pt' hheld
  rw [hid, hstored, Option.some.injEq] at hj'
  have hstamp : reserved = p'.now := by rw [← hguard, hj']; rfl
  have hne : p'.now ≠ 0 := hnow.now w' p'.now (by rw [hheld]; rfl)
  have hdue' := hdue.2
  omega

end CppLaravel.Queue
