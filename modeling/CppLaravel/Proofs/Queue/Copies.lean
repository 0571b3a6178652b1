import CppLaravel.Proofs.Queue.Lawful

/-!
# `CppLaravel.Proofs.Queue.Copies`: the copy of a single worker stays true

`work()` looks at a copy of the table. With one worker, the rows that it has not reached are still
as it copied them: what it rewrites and removes is the row at hand, and a push only appends
(`Copied`). So every claim finds the row as it was copied (`Copied.fresh`), and a job that is due
is run. `toStart` are the jobs whose handlers the pass has yet to start. Together with those that it
has started they are the same from the copy on (`progress_step`), in the order of the table.
-/

set_option autoImplicit false

namespace CppLaravel.Queue

open CppLaravel.Lib
open CppLaravel.Database

/-! ### The copied rows -/

/-- The rows of the copy from the one at hand on. -/
def Phase.todo {ρ : Type} : Phase ρ → List ρ
  | .scanning p => p.rest
  | .holding p row _ => row :: p.rest
  | _ => []

/-- The rows that the worker has not reached are stored as it copied them. -/
structure Copied (s : JobState Unit) : Prop where
  nextId : 0 ≤ s.nextId
  ascending : (s.jobs.map Job.id).Pairwise (· < ·)
  bounds : ∀ j ∈ s.jobs, 1 ≤ j.id ∧ j.id ≤ s.nextId
  unclaimed : ∀ id j, s.jobAt id = some j → Unheld s id → j.reservedAt = 0
  ahead : ∀ j ∈ (s.phase ()).ahead, s.jobAt j.id = some j
  todo : ((s.phase ()).todo.map Job.id).Pairwise (· < ·)

namespace JobState

@[simp] theorem phase_note (s : JobState Unit) (e : Event Unit) : (s.note e).phase = s.phase := rfl

@[simp] theorem phase_goto_unit (s : JobState Unit) (w : Unit) (ph : Phase Job) :
    (s.goto w ph).phase () = ph :=
  phase_goto_self s w ph

theorem phase_note_goto_unit (s : JobState Unit) (w : Unit) (ph : Phase Job) (e : Event Unit) :
    ((s.goto w ph).note e).phase () = ph :=
  phase_goto_self s w ph

end JobState

section
variable {q : DbQueue} {s s' : JobState Unit} {a : Action Unit}

theorem Copied.init (clock : Int) : Copied (JobState.init clock) :=
  ⟨Int.le_refl 0, .nil, by simp [JobState.init], by simp [JobState.init, JobState.jobAt],
    by simp [JobState.init, Phase.ahead], .nil⟩

theorem Copied.nodup (h : Copied s) : (s.jobs.map Job.id).Nodup :=
  h.ascending.imp fun hlt => Int.ne_of_lt hlt

theorem Copied.mem_iff (h : Copied s) {id : Int} {j : Job} :
    s.jobAt id = some j ↔ j ∈ s.jobs ∧ j.id = id :=
  getKey_eq_some_iff h.nodup

theorem Copied.known (h : Copied s) : Known s := by
  intro id hid
  obtain ⟨j, hj⟩ := Option.isSome_iff_exists.mp hid
  obtain ⟨hmem, rfl⟩ := h.mem_iff.mp hj
  exact (h.bounds j hmem).2

/-- Nobody holds a job while the worker holds none. -/
theorem unheld_of_claim? (h : (s.phase ()).claim? = none) (id : Int) : Unheld s id := by
  intro w p j pt hw
  rw [hw] at h
  cases h

/-- Every claim finds the row as it was copied. -/
theorem Copied.fresh (h : Copied s) (a : Action Unit) : JobFresh (fun _ => q) s a := by
  intro w p j stored _ hnext _ hstored _
  cases hphase : s.phase w with
  | scanning p' =>
    have hrest : p'.rest.head? = some j ∧ p' = p := by
      rw [hphase] at hnext
      obtain ⟨row, hrow, heq⟩ := Option.map_eq_some_iff.mp hnext
      cases heq
      exact ⟨hrow, rfl⟩
    have hmem : j ∈ (s.phase ()).ahead := by
      rw [hphase]
      exact List.mem_of_head? hrest.1
    have hfree : (s.phase ()).claim? = none := by
      rw [hphase]
      rfl
    rw [h.ahead j hmem, Option.some.injEq] at hstored
    exact ⟨hstored.symm, unheld_of_claim? hfree j.id⟩
  | _ =>
    rw [hphase] at hnext
    cases hnext

/-- The rows ahead are other rows than the one at hand. -/
theorem Copied.ne_of_ahead (h : Copied s) {p : Pass Job} {j : Job} {pt : Point}
    (hw : s.phase () = .holding p j pt) {r : Job} (hr : r ∈ p.rest) : r.id ≠ j.id := by
  have htodo := h.todo
  rw [hw] at htodo
  have hlt := (List.pairwise_cons.mp htodo).1 r.id (List.mem_map_of_mem hr)
  omega

/-- The worker moves on in its copy, and the table stays. -/
theorem Copied.move (h : Copied s) (hjobs : s'.jobs = s.jobs) (hnext : s'.nextId = s.nextId)
    (hheld : ∀ id, Unheld s' id → Unheld s id)
    (hahead : (s'.phase ()).ahead ⊆ (s.phase ()).ahead)
    (htodo : (s'.phase ()).todo.Sublist (s.phase ()).todo) : Copied s' where
  nextId := hnext ▸ h.nextId
  ascending := by
    rw [hjobs]
    exact h.ascending
  bounds := by
    rw [hjobs, hnext]
    exact h.bounds
  unclaimed id j hj hun := by
    rw [JobState.jobAt, hjobs] at hj
    exact h.unclaimed id j hj (hheld id hun)
  ahead j hj := by
    rw [JobState.jobAt, hjobs]
    exact h.ahead j (hahead hj)
  todo := h.todo.sublist (htodo.map Job.id)

/-- The worker rewrites the row of its job. -/
theorem Copied.overwrite (h : Copied s) {id : Int} {b : Job} (hb : b.id = id)
    (hjobs : s'.jobs = setKey Job.id id b s.jobs) (hnext : s'.nextId = s.nextId)
    (hself : Unheld s' id → b.reservedAt = 0)
    (hheld : ∀ k, k ≠ id → Unheld s' k → Unheld s k)
    (hahead : ∀ r ∈ (s'.phase ()).ahead, r ∈ (s.phase ()).ahead ∧ r.id ≠ id)
    (htodo : (s'.phase ()).todo.Sublist (s.phase ()).todo) : Copied s' where
  nextId := hnext ▸ h.nextId
  ascending := by
    rw [hjobs, map_setKey hb]
    exact h.ascending
  bounds j hj := by
    rw [hjobs] at hj
    have hid : j.id ∈ s.jobs.map Job.id := by
      rw [← map_setKey hb]
      exact List.mem_map_of_mem hj
    obtain ⟨j', hj', heq⟩ := List.mem_map.mp hid
    rw [← heq, hnext]
    exact h.bounds j' hj'
  unclaimed k j hj hun := by
    rw [JobState.jobAt, hjobs] at hj
    by_cases hk : k = id
    · subst hk
      rw [getKey_setKey_self hb, Option.map_eq_some_iff] at hj
      obtain ⟨-, -, rfl⟩ := hj
      exact hself hun
    · rw [getKey_setKey_ne hb hk] at hj
      exact h.unclaimed k j hj (hheld k hk hun)
  ahead r hr := by
    obtain ⟨hr, hne⟩ := hahead r hr
    rw [JobState.jobAt, hjobs, getKey_setKey_ne hb hne]
    exact h.ahead r hr
  todo := h.todo.sublist (htodo.map Job.id)

/-- The worker goes on with the row at hand. -/
theorem Copied.stay (h : Copied s) (hjobs : s'.jobs = s.jobs) (hnext : s'.nextId = s.nextId)
    {p : Pass Job} {j : Job} {pt pt' : Point} (hw : s.phase () = .holding p j pt)
    (hw' : s'.phase () = .holding p j pt') : Copied s' := by
  refine h.move hjobs hnext (fun id hun => ?_) ?_ ?_
  · intro w p' j' pt₁ hw₁
    rw [hw] at hw₁
    cases hw₁
    exact hun () p j pt' hw'
  · rw [hw, hw']
    exact List.Subset.refl _
  · rw [hw, hw']
    exact List.Sublist.refl _

/-- The worker removes the row of its job. -/
theorem Copied.remove (h : Copied s) {p : Pass Job} {j : Job} {pt : Point}
    (hw : s.phase () = .holding p j pt) (hjobs : s'.jobs = eraseKey Job.id j.id s.jobs)
    (hnext : s'.nextId = s.nextId) (hw' : s'.phase () = .scanning p.next) : Copied s' where
  nextId := hnext ▸ h.nextId
  ascending := by
    rw [hjobs]
    exact h.ascending.sublist (List.filter_sublist.map Job.id)
  bounds r hr := by
    rw [hjobs] at hr
    rw [hnext]
    exact h.bounds r (List.mem_filter.mp hr).1
  unclaimed k r hr hun := by
    rw [JobState.jobAt, hjobs] at hr
    by_cases hk : k = j.id
    · rw [hk, getKey_eraseKey_self] at hr
      cases hr
    · rw [getKey_eraseKey_ne hk] at hr
      refine h.unclaimed k r hr fun w p' j' pt' hw₁ => ?_
      rw [hw] at hw₁
      cases hw₁
      exact fun hid => hk hid.symm
  ahead r hr := by
    rw [hw'] at hr
    rw [JobState.jobAt, hjobs, getKey_eraseKey_ne (h.ne_of_ahead hw hr)]
    refine h.ahead r ?_
    rw [hw]
    exact hr
  todo := by
    have htodo := h.todo
    rw [hw] at htodo
    rw [hw']
    exact (List.pairwise_cons.mp htodo).2

theorem Copied.push (h : Copied s) (job payload : Bytes) (delay : Int) :
    Copied ((s.addJob job payload delay).note (.pushed (s.nextId + 1))) where
  nextId := Int.le_trans h.nextId (Int.le_add_one (Int.le_refl s.nextId))
  ascending := by
    show ((s.jobs ++ [_]).map Job.id).Pairwise (· < ·)
    rw [List.map_append, List.pairwise_append]
    refine ⟨h.ascending, List.pairwise_singleton _ _, fun k hk k' hk' => ?_⟩
    obtain ⟨j, hj, rfl⟩ := List.mem_map.mp hk
    obtain rfl : k' = s.nextId + 1 := List.mem_singleton.mp hk'
    have hbounds := h.bounds j hj
    omega
  bounds j hj := by
    have hj : j ∈ s.jobs ++ [Job.pushed (s.nextId + 1) job payload delay s.clock] := hj
    show 1 ≤ j.id ∧ j.id ≤ s.nextId + 1
    have hnext := h.nextId
    rcases List.mem_append.mp hj with hj | hj
    · have hbounds := h.bounds j hj
      omega
    · rw [List.mem_singleton.mp hj]
      show 1 ≤ s.nextId + 1 ∧ s.nextId + 1 ≤ s.nextId + 1
      omega
  -- The new row is unreserved, and has an id of its own.
  unclaimed k j hj hun := by
    have hj : (s.addJob job payload delay).jobAt k = some j := hj
    rw [jobAt_addJob h.known] at hj
    split at hj
    · cases hj
      rfl
    · exact h.unclaimed k j hj hun
  ahead r hr := by
    have hr := h.ahead r hr
    have hid := h.known r.id (by rw [hr]; rfl)
    show (s.addJob job payload delay).jobAt r.id = some r
    rw [jobAt_addJob h.known, if_neg (by omega), hr]
  todo := h.todo

open JobState in
/-- Every step but a crash keeps the copy true. -/
theorem copied_step (h : Copied s) (hcrash : NoCrash a) (hstep : JobStep (fun _ => q) s a s') :
    Copied s' := by
  -- A worker that holds no job before a step leaves nobody's job alone by it.
  have hnone : ∀ {t : JobState Unit}, (s.phase ()).claim? = none → ∀ id, Unheld t id →
      Unheld s id := fun hfree id _ => unheld_of_claim? hfree id
  cases hstep with
  | tick n => exact h.move rfl rfl (fun _ hun => hun) (List.Subset.refl _) (List.Sublist.refl _)
  | push job payload delay => exact h.push job payload delay
  | enter arg hw =>
    refine h.move rfl rfl (hnone (by rw [hw]; rfl)) ?_ ?_
    · simp [goto, Phase.ahead]
    · simp [goto, Phase.todo]
  | snapshot hw =>
    refine ⟨h.nextId, h.ascending, h.bounds, fun id j hj _ => ?_, fun j hj => ?_, ?_⟩
    · exact h.unclaimed id j hj (unheld_of_claim? (by rw [hw]; rfl) id)
    · rw [phase_goto_self] at hj
      exact h.mem_iff.mpr ⟨hj, rfl⟩
    · rw [phase_goto_self]
      exact h.ascending
  | finish hw =>
    refine h.move rfl rfl (hnone (by rw [hw]; rfl)) ?_ ?_
    · simp [goto, note, Phase.ahead]
    · simp [goto, note, Phase.todo]
  | skip hw hno =>
    refine h.move rfl rfl (hnone (by rw [hw]; rfl)) ?_ ?_
    · rw [phase_goto_self, hw]
      exact List.subset_cons_self _ _
    · rw [phase_goto_self, hw]
      exact List.sublist_cons_self _ _
  | @claim w now n j stored rest hw hdue hstored hguard =>
    have hid : (j.claimedAt now).id = j.id := rfl
    have htodo := h.todo
    rw [hw] at htodo
    refine h.overwrite hid rfl rfl (fun hun => ?_) (fun k _ _ => ?_) (fun r hr => ?_) ?_
    · exact absurd rfl (hun () _ j .claimed (phase_goto_self _ _ _))
    · exact unheld_of_claim? (by rw [hw]; rfl) k
    · rw [phase_goto_self] at hr
      have hlt := (List.pairwise_cons.mp htodo).1 r.id (List.mem_map_of_mem hr)
      rw [hw]
      exact ⟨List.mem_cons_of_mem j hr, by omega⟩
    · rw [phase_goto_self, hw]
      exact List.Sublist.refl _
  | start hw hh => exact h.stay rfl rfl hw (phase_note_goto_unit _ _ _ _)
  | unknown hw hh => exact h.stay rfl rfl hw (phase_goto_unit _ _ _)
  | returns hw => exact h.stay rfl rfl hw (phase_goto_unit _ _ _)
  | throws what hw => exact h.stay rfl rfl hw (phase_note_goto_unit _ _ _ _)
  | bury hw hmax => exact h.stay rfl rfl hw (phase_note_goto_unit _ _ _ _)
  | complete hw => exact h.remove hw rfl rfl (phase_note_goto_unit _ _ _ _)
  | drop hw => exact h.remove hw rfl rfl (phase_note_goto_unit _ _ _ _)
  | clear hw => exact h.remove hw rfl rfl (phase_goto_unit _ _ _)
  | @requeue w p j what hw hmax =>
    have hid : (j.requeuedAt q p.now).id = j.id := rfl
    refine h.overwrite hid rfl rfl (fun _ => rfl) (fun k hk hun => ?_) (fun r hr => ?_) ?_
    · intro w' p' j' pt' hw'
      rw [hw] at hw'
      cases hw'
      exact fun heq => hk heq.symm
    · rw [phase_goto_self] at hr
      rw [hw]
      exact ⟨hr, h.ne_of_ahead hw hr⟩
    · rw [phase_goto_self, hw]
      exact List.sublist_cons_self _ _
  | throwsOther hw => exact hcrash.elim
  | crash w => exact hcrash.elim

end

/-! ### What a pass starts -/

/-- The handler of the job runs in a pass at the time `now`. -/
def Job.runnable (q : DbQueue) (now : Int) (j : Job) : Bool :=
  j.availableAt ≤ now ∧ q.handlers j.job

/-- The jobs among some rows whose handlers a pass runs. -/
def startsOf (q : DbQueue) (now : Int) (rows : List Job) : List Int :=
  (rows.filter (Job.runnable q now)).map Job.id

/-- The jobs whose handlers the pass has yet to start. -/
def toStart (q : DbQueue) : Phase Job → List Int
  | .scanning p => startsOf q p.now p.rest
  | .holding p j .claimed => (if q.handlers j.job then [j.id] else []) ++ startsOf q p.now p.rest
  | .holding p _ _ => startsOf q p.now p.rest
  | _ => []

/-- The worker is in the loop of `work()`. -/
def Phase.looping {ρ : Type} : Phase ρ → Bool
  | .scanning _ => true
  | .holding _ _ _ => true
  | _ => false

/-- The jobs whose handlers the pass has started or has yet to start. -/
def progress (q : DbQueue) (s : JobState Unit) : List Int :=
  (passStarts s.log).reverse ++ toStart q (s.phase ())

section
variable {q : DbQueue} {s s' : JobState Unit} {a : Action Unit}

theorem startsOf_cons (now : Int) (j : Job) (rows : List Job) :
    startsOf q now (j :: rows) =
      (if Job.runnable q now j then [j.id] else []) ++ startsOf q now rows := by
  unfold startsOf
  rw [List.filter_cons]
  split <;> rfl

open JobState in
/-- From the copy on, the jobs of a pass are the same. -/
theorem progress_step (h : Copied s) (hcrash : NoCrash a) (ha : a ≠ .snapshot ())
    (hstep : JobStep (fun _ => q) s a s') (hloop : (s'.phase ()).looping) :
    (s.phase ()).looping ∧ progress q s' = progress q s := by
  cases hstep with
  | tick n => exact ⟨hloop, rfl⟩
  | push job payload delay => exact ⟨hloop, rfl⟩
  | enter arg hw =>
    rw [phase_goto_unit] at hloop
    cases hloop
  | snapshot hw => exact absurd rfl ha
  | finish hw =>
    rw [phase_note, phase_goto_unit] at hloop
    cases hloop
  | @skip w now n j rest hw hno =>
    refine ⟨by rw [hw]; rfl, ?_⟩
    -- The row is as it was copied, so it is passed over because it is not due.
    have hmem : j ∈ (s.phase ()).ahead := by
      rw [hw]
      exact List.mem_cons_self
    have hstored := h.ahead j hmem
    have hreserved := h.unclaimed j.id j hstored (unheld_of_claim? (by rw [hw]; rfl) j.id)
    have hnot : Job.runnable q now j = false := by
      refine decide_eq_false fun hrun => ?_
      exact hno ⟨hrun.1, .inl hreserved⟩ j hstored rfl
    rw [progress, progress, phase_goto_unit, hw]
    show _ ++ startsOf q now rest = _ ++ startsOf q now (j :: rest)
    rw [startsOf_cons, hnot]
    rfl
  | @claim w now n j stored rest hw hdue hstored hguard =>
    refine ⟨by rw [hw]; rfl, ?_⟩
    have hrun : Job.runnable q now j = q.handlers j.job := by
      unfold Job.runnable
      simp [hdue.1]
    rw [progress, progress, phase_goto_unit, hw]
    show _ ++ ((if q.handlers j.job then [j.id] else []) ++ startsOf q now rest) =
      _ ++ startsOf q now (j :: rest)
    rw [startsOf_cons, hrun]
    rfl
  | @start w p j hw hh =>
    refine ⟨by rw [hw]; rfl, ?_⟩
    rw [progress, progress, phase_note, phase_goto_unit, hw]
    show (j.id :: passStarts s.log).reverse ++ startsOf q p.now p.rest =
      _ ++ ((if q.handlers j.job then [j.id] else []) ++ startsOf q p.now p.rest)
    rw [if_pos hh, List.reverse_cons, List.append_assoc]
  | @unknown w p j hw hh =>
    refine ⟨by rw [hw]; rfl, ?_⟩
    have hnot : ¬ q.handlers j.job = true := by
      rw [hh]
      exact Bool.false_ne_true
    rw [progress, progress, phase_goto_unit, hw]
    show _ ++ startsOf q p.now p.rest =
      _ ++ ((if q.handlers j.job then [j.id] else []) ++ startsOf q p.now p.rest)
    rw [if_neg hnot]
    rfl
  -- The worker goes on with the row at hand, or lets go of it.
  | returns hw => exact ⟨by rw [hw]; rfl, by simp [progress, hw, toStart, goto]⟩
  | throws what hw =>
    exact ⟨by rw [hw]; rfl, by simp [progress, hw, toStart, goto, note, passStarts]⟩
  | bury hw hmax =>
    exact ⟨by rw [hw]; rfl, by simp [progress, hw, toStart, goto, note, passStarts, addFailed]⟩
  | complete hw =>
    exact ⟨by rw [hw]; rfl,
      by simp [progress, hw, toStart, goto, note, passStarts, withJobs, Pass.next]⟩
  | drop hw =>
    exact ⟨by rw [hw]; rfl,
      by simp [progress, hw, toStart, goto, note, passStarts, withJobs, Pass.next]⟩
  | clear hw => exact ⟨by rw [hw]; rfl, by simp [progress, hw, toStart, goto, withJobs, Pass.next]⟩
  | requeue hw hmax =>
    exact ⟨by rw [hw]; rfl, by simp [progress, hw, toStart, goto, withJobs, Pass.next]⟩
  | throwsOther hw => exact hcrash.elim
  | crash w => exact hcrash.elim

/-- A copy that ends in the loop has been in it all along. -/
theorem progress_run {as : List (Action Unit)} (h : Copied s)
    (hrun : Trace (Guarded (fun _ a => NoCrash a) (JobStep fun _ => q)) s as s')
    (ha : .snapshot () ∉ as) (hloop : (s'.phase ()).looping) :
    (s.phase ()).looping ∧ progress q s' = progress q s := by
  induction hrun with
  | nil s => exact ⟨hloop, rfl⟩
  | cons hstep _ ih =>
    rw [List.mem_cons, not_or] at ha
    obtain ⟨hcrash, hstep⟩ := hstep
    obtain ⟨hloop₁, hrest⟩ := ih (copied_step h hcrash hstep) ha.2 hloop
    obtain ⟨hloop₀, hfirst⟩ := progress_step h hcrash (Ne.symm ha.1) hstep hloop₁
    exact ⟨hloop₀, hrest.trans hfirst⟩

variable (q) in
/-- The handlers of a pass run in the order of insertion. -/
structure InPass (s : JobState Unit) : Prop where
  outside : (s.phase ()).looping = false → passStarts s.log = []
  ascending : (progress q s).Pairwise (· < ·)
  inOrder : RunsInOrder s.log

theorem InPass.init (clock : Int) : InPass q (JobState.init clock) :=
  ⟨fun _ => rfl, .nil, trivial⟩

open JobState in
/-- The events of a step that starts no handler keep the order. -/
theorem runsInOrder_step (h : InPass q s) (hstep : JobStep (fun _ => q) s a s') :
    RunsInOrder s'.log := by
  cases hstep with
  | @start w p j hw hh =>
    refine ⟨fun earlier hearlier => ?_, h.inOrder⟩
    -- The job at hand comes after those that were started.
    have hascending := h.ascending
    rw [progress, hw, toStart, if_pos hh, List.pairwise_append] at hascending
    exact hascending.2.2 earlier (List.mem_reverse.mpr hearlier) j.id List.mem_cons_self
  | _ => exact h.inOrder

open JobState in
theorem outside_step (h : InPass q s) (hcrash : NoCrash a) (hstep : JobStep (fun _ => q) s a s')
    (hout : (s'.phase ()).looping = false) : passStarts s'.log = [] := by
  cases hstep with
  | tick n => exact h.outside hout
  | push job payload delay => exact h.outside hout
  | enter arg hw => exact h.outside (by rw [hw]; rfl)
  | finish hw => rfl
  | throwsOther hw => exact hcrash.elim
  | crash w => exact hcrash.elim
  -- The other steps stay in the loop.
  | _ => simp [Phase.looping] at hout

open JobState in
theorem inPass_step (h : InPass q s) (hc : Copied s) (hcrash : NoCrash a)
    (hstep : JobStep (fun _ => q) s a s') : InPass q s' := by
  refine ⟨outside_step h hcrash hstep, ?_, runsInOrder_step h hstep⟩
  -- The copy is taken in ascending order, and a later step goes along it.
  by_cases ha : a = .snapshot ()
  · subst ha
    cases hstep with
    | snapshot hw =>
      have hnone := h.outside (by rw [hw]; rfl)
      rw [progress, phase_goto_unit]
      show ((passStarts s.log).reverse ++ startsOf q _ s.jobs).Pairwise (· < ·)
      rw [hnone]
      exact hc.ascending.sublist (List.filter_sublist.map Job.id)
  · cases hloop : (s'.phase ()).looping with
    | true =>
      rw [(progress_step hc hcrash ha hstep hloop).2]
      exact h.ascending
    | false =>
      have hnone := outside_step h hcrash hstep hloop
      rw [progress, hnone]
      cases hphase : s'.phase () with
      | idle => exact .nil
      | entered now => exact .nil
      | scanning p =>
        rw [hphase] at hloop
        cases hloop
      | holding p j pt =>
        rw [hphase] at hloop
        cases hloop

end

end CppLaravel.Queue
