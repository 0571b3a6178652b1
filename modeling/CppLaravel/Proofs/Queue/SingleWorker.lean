import CppLaravel.Proofs.Queue.Books

/-!
# `CppLaravel.Proofs.Queue.SingleWorker`: a queue with one worker is lawful

`Ordered` collects the invariants of a run whose passes are called at times that do not go back,
and says when a job is stored and when it is in `failed_jobs`. `single_worker_lawful` reads the laws
off the rows.
-/

set_option autoImplicit false

namespace CppLaravel.Queue

open CppLaravel.Lib
open CppLaravel.Database

variable {q : DbQueue} {clock : Int} {as : List (Action Unit)} {s : JobState Unit}

/-! ### Runs -/

variable (q clock) in
/-- The invariants of a run with one worker. -/
structure Ordered (as : List (Action Unit)) (s : JobState Unit) : Prop where
  sound : Sound q s
  books : Books q clock as s
  kept : Kept q clock as s
  balanced : Balanced clock as s

theorem Forward.of_append {bs : List (Action Unit)} (h : Forward (as ++ bs)) : Forward as := by
  obtain ⟨hpos, hsorted⟩ := h
  rw [passes_append] at hpos hsorted
  exact ⟨fun now hnow => hpos now (List.mem_append_left _ hnow),
    (List.pairwise_append.mp hsorted).1⟩

theorem ordered_run (hmax : 1 ≤ q.maxAttempts)
    (h : Trace (Guarded (fun _ a => NoCrash a) (JobStep fun _ => q)) (JobState.init clock) as s)
    (hforward : Forward as) : Ordered q clock as s := by
  refine h.history (P := fun as s => Forward as → Ordered q clock as s) ?_ [] ?_ hforward
  · rintro as s a s' hs ⟨hcrash, hstep⟩ hforward
    obtain ⟨hsound, hbooks, hkept, hbalanced⟩ := hs hforward.of_append
    exact ⟨sound_step hmax hsound hcrash hstep, hbooks.step hsound hforward hstep,
      hkept.step hbooks hsound hstep, hbalanced.step hbooks hsound hcrash hstep⟩
  · exact fun _ => ⟨Sound.init hmax clock, Books.init, Kept.init, Balanced.init⟩

/-- A job that has ended is completed, dropped or buried. -/
theorem ended_cases {id : Int} {log : List (Event Unit)} (h : endings id log ≠ 0) :
    id ∈ log.filterMap Event.completed? ∨ id ∈ log.filterMap Event.dropped? ∨
      id ∈ log.filterMap Event.buried? := by
  obtain ⟨e, he, hends⟩ := List.countP_pos_iff.mp (Nat.pos_of_ne_zero h)
  have hends : e.ends? = some id := of_decide_eq_true hends
  cases e with
  | completed w id' => exact .inl (List.mem_filterMap.mpr ⟨_, he, hends⟩)
  | dropped w id' => exact .inr (.inl (List.mem_filterMap.mpr ⟨_, he, hends⟩))
  | buried w id' => exact .inr (.inr (List.mem_filterMap.mpr ⟨_, he, hends⟩))
  | _ => cases hends

theorem count_buried_le (id : Int) (log : List (Event Unit)) :
    (log.filterMap Event.buried?).count id ≤ endings id log := by
  induction log with
  | nil => exact Nat.le_refl 0
  | cons e log ih =>
    rw [endings_cons]
    cases e with
    | buried w id' =>
      show (id' :: log.filterMap Event.buried?).count id ≤ _
      by_cases hid : id' = id
      · subst hid
        rw [List.count_cons_self, Event.ends?, if_pos rfl]
        omega
      · rw [List.count_cons_of_ne hid]
        omega
    | _ => exact Nat.le_add_right_of_le ih

namespace Ordered

/-- A job that is stored, and whose handler run is not being recorded, has not ended and has an
attempt left. -/
theorem of_stored (h : Ordered q clock as s) (hsettled : (s.phase ()).settling = false) {id : Int}
    (hid : (s.jobAt id).isSome) :
    endings id s.log = 0 ∧ ((failures id s.log).length : Int) < q.maxAttempts := by
  have hdisciplined := h.sound.retry.disciplined
  constructor
  · by_contra hne
    have hone := h.sound.accounted.atMostOne id
    obtain ⟨w, p, j, hw, -⟩ := h.sound.accounted.gone id hid (by omega)
    rw [hw] at hsettled
    cases hsettled
  · obtain ⟨j, hj⟩ := Option.isSome_iff_exists.mp hid
    by_cases hun : Unheld s id
    · have hwait := hdisciplined.waiting id j hj hun
      have hfailed := hwait.failed
      have hbelow := hwait.below
      omega
    · simp only [Unheld, not_forall, ne_eq, not_not] at hun
      obtain ⟨w, p, j', pt, hw, rfl⟩ := hun
      have hheld := hdisciplined.held w p j' pt hw
      have hbelow := hheld.below
      have hfailed := hheld.failed
      have hlost : pt.lost = 0 := by
        rw [hw] at hsettled
        cases pt with
        | claimed => rfl
        | running => rfl
        | _ => cases hsettled
      omega

/-- A job that is not stored any more has ended. -/
theorem ended_of_not_stored (h : Ordered q clock as s) {id : Int} {e : Entry}
    (he : entryAt clock as id = some e) (hid : ¬ (s.jobAt id).isSome) : endings id s.log ≠ 0 := by
  intro hopen
  have hbounds : 1 ≤ id ∧ id ≤ s.nextId := by
    unfold entryAt at he
    split at he
    · obtain ⟨hlt, -⟩ := List.getElem?_eq_some_iff.mp he
      rw [h.books.count]
      omega
    · cases he
  exact hid (h.sound.accounted.present id (h.books.pushed id hbounds.1 hbounds.2) hopen)

/-- When a job with a handler leaves the table. -/
theorem stored_iff (h : Ordered q clock as s) (hsettled : (s.phase ()).settling = false) {id : Int}
    {e : Entry} (he : entryAt clock as id = some e) (hh : q.handlers e.job = true) :
    (s.jobAt id).isSome ↔ id ∉ s.log.filterMap Event.completed? ∧
      ((failures id s.log).length : Int) < q.maxAttempts := by
  constructor
  · intro hid
    obtain ⟨hopen, hlt⟩ := h.of_stored hsettled hid
    refine ⟨fun hdone => ?_, hlt⟩
    have hpos := endings_pos_of_mem ends?_of_completed? hdone
    omega
  · rintro ⟨hdone, hlt⟩
    by_contra hid
    rcases ended_cases (h.ended_of_not_stored he hid) with hc | hd | hb
    · exact hdone hc
    · obtain ⟨e', he', hno⟩ := h.kept.dropped id hd
      obtain rfl : e = e' := Option.some.inj (he.symm.trans he')
      rw [hh] at hno
      cases hno
    · obtain ⟨-, heq⟩ := h.kept.buried id hb
      omega

/-- The jobs that are written to `failed_jobs` are those with as many failures as are allowed. -/
theorem mem_buried_iff (h : Ordered q clock as s) (hmax : 1 ≤ q.maxAttempts)
    (hsettled : (s.phase ()).settling = false) (id : Int) :
    id ∈ s.log.filterMap Event.buried? ↔
      ((failures id s.log).length : Int) = q.maxAttempts := by
  constructor
  · exact fun hid => (h.kept.buried id hid).2
  · intro heq
    cases hfailures : failures id s.log with
    | nil =>
      rw [hfailures, List.length_nil] at heq
      omega
    | cons f fs =>
      have hf : f ∈ failures id s.log := by
        rw [hfailures]
        exact List.mem_cons_self
      obtain ⟨-, e, he, hh, -⟩ := h.books.failed id f hf
      have hid : ¬ (s.jobAt id).isSome := fun hid => by
        have hlt := (h.of_stored hsettled hid).2
        omega
      rcases ended_cases (h.ended_of_not_stored he hid) with hc | hd | hb
      · have hlt := (h.kept.completed id hc).2
        omega
      · obtain ⟨e', he', hno⟩ := h.kept.dropped id hd
        obtain rfl : e = e' := Option.some.inj (he.symm.trans he')
        rw [hh] at hno
        cases hno
      · exact hb

end Ordered

/-! ### The rows -/

theorem settling_map {ρ ρ' : Type} (f : ρ → ρ') (ph : Phase ρ) :
    (ph.map f).settling = ph.settling := by
  cases ph with
  | holding p row pt => cases pt <;> rfl
  | _ => rfl

theorem tables_failedJobs (s : JobState Unit) :
    s.toState.conn.all (bytes "failed_jobs") = s.failedJobs.map FailedJob.toRow := by
  have hne : bytes "failed_jobs" ≠ bytes "jobs" := by decide
  simp only [MemoryConnection.all, JobState.toState, if_neg hne, if_true]

theorem failed_toRow {f : FailedJob} {e : Entry} (hjob : f.job = e.job)
    (hpayload : f.payload = e.payload) : e.Failed f.toRow := by
  have hid : bytes "job" ≠ bytes "id" ∧ bytes "job" ≠ bytes "error" ∧
      bytes "job" ≠ bytes "payload" ∧ bytes "payload" ≠ bytes "id" ∧
      bytes "payload" ≠ bytes "error" := by decide
  constructor
  · rw [FailedJob.toRow, failedRow, Row.getString, Row.get?_set, if_neg hid.1, Row.get?_set,
      if_neg hid.2.1, Row.get?_set, if_neg hid.2.2.1, Row.get?_set, if_pos rfl, hjob]
    rfl
  · rw [FailedJob.toRow, failedRow, Row.getString, Row.get?_set, if_neg hid.2.2.2.1, Row.get?_set,
      if_neg hid.2.2.2.2, Row.get?_set, if_pos rfl, hpayload]
    rfl

theorem runnable_toRow (now : Int) (j : Job) :
    runnable q now j.toRow = Job.runnable q now j := by
  unfold runnable Job.runnable
  rw [Job.columnOrZero_availableAt, Job.getString_job, Option.any_some]

theorem Ordered.lawful (h : Ordered q clock as s) (hmax : 1 ≤ q.maxAttempts) :
    Lawful q clock as s.toState where
  onTime := h.kept.onTime
  leaves hsettled id e he hh := by
    rw [JobState.toState_phase, settling_map] at hsettled
    rw [storedRow, JobState.find_toState, Option.isSome_map]
    exact h.stored_iff hsettled he hh
  endsOnce := h.sound.accounted.atMostOne
  failedRows hsettled := by
    rw [JobState.toState_phase, settling_map] at hsettled
    refine ⟨(s.log.filterMap Event.buried?).reverse, ?_, fun id => ?_, fun id hid hdone => ?_, ?_⟩
    · rw [List.nodup_reverse, List.nodup_iff_count_le_one]
      exact fun id => (count_buried_le id s.log).trans (h.sound.accounted.atMostOne id)
    · rw [List.mem_reverse]
      exact h.mem_buried_iff hmax hsettled id
    · have heq := (h.kept.buried id (List.mem_reverse.mp hid)).2
      have hlt := (h.kept.completed id hdone).2
      omega
    · rw [tables_failedJobs, List.forall₂_map_left_iff]
      refine h.balanced.rows.imp fun f id hf => ?_
      obtain ⟨e, he, hjob, hpayload⟩ := hf
      exact ⟨e, he, failed_toRow hjob hpayload⟩
  inOrder := h.sound.inPass.inOrder
  conserved hburied := by
    -- No failed job is half written, so none is counted in both tables.
    have hnone : (s.phase ()).burying = 0 := by
      cases hw : s.phase () with
      | holding p j pt =>
        cases pt with
        | buried =>
          refine absurd ?_ (hburied ⟨p.now, p.processed, p.rest.map Job.toRow⟩ j.toRow)
          rw [JobState.toState_phase, hw]
          rfl
        | _ => rfl
      | _ => rfl
    have htotal := h.balanced.total
    rw [hnone, Nat.add_zero] at htotal
    rw [tables_failedJobs, MemoryConnection.all, JobState.tables_jobs, List.length_map,
      List.length_map]
    exact htotal

/-- **A queue with one worker is lawful.** The passes are called with positive times that do not go
back; handlers return, throw a `std::exception`, or push further jobs. A pass that has come to the
end of its copy has started the handlers of the jobs that were due, in the order of the table. -/
theorem single_worker_lawful (hmax : 1 ≤ q.maxAttempts) {s : State Unit}
    (h : Trace (Guarded (fun _ a => NoCrash a) (Steps (step fun _ => q))) (init clock) as s)
    (hforward : Forward as) :
    Lawful q clock as s ∧
      ∀ now bs s' end' n, s.phase () = .entered now →
        Trace (Guarded (fun _ a => NoCrash a) (Steps (step fun _ => q))) s
          (.snapshot () :: bs) s' → .snapshot () ∉ bs → s'.phase () = .scanning ⟨end', n, []⟩ →
          (passStarts s'.log).reverse.map some =
            ((s.conn.all (bytes "jobs")).filter (runnable q now)).map (·.getInt (bytes "id")) := by
  obtain ⟨t, ht, rfl⟩ := trace_init_toState h
  have hordered := ordered_run hmax ht hforward
  refine ⟨hordered.lawful hmax, ?_⟩
  intro now bs s' end' n hentered hpass hbs hend
  obtain ⟨t', ht', rfl⟩ := trace_toState hpass
  cases ht' with
  | cons hfirst hrest =>
    obtain ⟨hcalm, hfirst⟩ := hfirst
    have hcopied := hordered.sound.copied
    cases hfirst with
    | @snapshot _ now' hw =>
      have hnow : now' = now := by
        rw [JobState.toState_phase, hw] at hentered
        exact Phase.entered.inj hentered
      obtain ⟨p, hp, hpast⟩ : ∃ p, t'.phase () = .scanning p ∧ p.rest = [] := by
        rw [JobState.toState_phase] at hend
        cases hw' : t'.phase () with
        | scanning p =>
          rw [hw'] at hend
          exact ⟨p, rfl, List.map_eq_nil_iff.mp (congrArg Pass.rest (Phase.scanning.inj hend))⟩
        | _ =>
          rw [hw'] at hend
          cases hend
      obtain ⟨-, hprogress⟩ := progress_run
        (copied_step (q := q) hcopied hcalm (.snapshot hw)) hrest hbs (by rw [hp]; rfl)
      have hnone : passStarts t.log = [] := hordered.sound.inPass.outside (by rw [hw]; rfl)
      rw [progress, progress, hp, JobState.phase_goto_unit] at hprogress
      simp only [toStart, hpast, hnow] at hprogress
      have hstarts : (passStarts t'.log).reverse = startsOf q now t.jobs := by
        have hprogress : _ ++ startsOf q p.now [] = (passStarts t.log).reverse ++ _ := hprogress
        rwa [hnone, show startsOf q p.now [] = [] from rfl, List.append_nil] at hprogress
      show (passStarts t'.log).reverse.map some = _
      rw [hstarts, MemoryConnection.all, JobState.tables_jobs, List.filter_map, List.map_map,
        startsOf, List.map_map]
      have hsame : runnable q now ∘ Job.toRow = Job.runnable q now := funext (runnable_toRow now)
      rw [hsame]
      exact List.map_congr_left fun j _ => (Job.getInt_id j).symm

/-- One attempt, and a handler for each job but one: of three jobs one succeeds, one fails and one
is dropped. -/
theorem single_worker_lawful_applies :
    let q : DbQueue := { maxAttempts := 1, handlers := fun job => job ≠ bytes "c" }
    let as : List (Action Unit) := [.push (bytes "a") [] 0, .push (bytes "b") [] 0,
      .push (bytes "c") [] 0, .enter () 50]
    let bs : List (Action Unit) := [.look (), .dispatch (), .returns (), .settle (),
      .look (), .dispatch (), .throws () [], .settle (), .settle (), .look (), .dispatch (),
      .settle ()]
    ∃ s s', Trace (Guarded (fun _ a => NoCrash a) (Steps (step fun _ => q))) (init 10) as s ∧
      Trace (Guarded (fun _ a => NoCrash a) (Steps (step fun _ => q))) s
        (.snapshot () :: bs) s' ∧
      Lawful q 10 as s ∧ (passStarts s'.log).reverse.map some =
        ((s.conn.all (bytes "jobs")).filter (runnable q 50)).map (·.getInt (bytes "id")) := by
  intro q as bs
  let go := run (guard (fun _ a => NoCrash a) (step fun _ : Unit => q))
  have h : (go (init 10) as).any (fun s => s.phase () = .entered 50 ∧
      (go s (.snapshot () :: bs)).any fun s' => s'.phase () = .scanning ⟨50, 3, []⟩) = true := by
    decide
  obtain ⟨s, hs, hp⟩ := Option.any_eq_true _ _ |>.mp h
  obtain ⟨hentered, h'⟩ := of_decide_eq_true hp
  obtain ⟨s', hs', hp'⟩ := Option.any_eq_true _ _ |>.mp h'
  have hrun := trace_of_run_guard hs
  have hpass := trace_of_run_guard hs'
  obtain ⟨hlawful, hstarts⟩ := single_worker_lawful (Int.le_refl 1) hrun
    ⟨by decide, List.pairwise_singleton _ _⟩
  exact ⟨s, s', hrun, hpass, hlawful,
    hstarts 50 bs s' 50 3 hentered hpass (by decide) (of_decide_eq_true hp')⟩

end CppLaravel.Queue
