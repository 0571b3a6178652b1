import CppLaravel.Proofs.Queue.Copies

/-!
# `CppLaravel.Proofs.Queue.Books`: the books of a queue with one worker

The invariants about claims, endings and attempts (`Exclusive`, `Accounted`, `Disciplined`) hold
here without a condition on the claims, since the copy of a single worker stays true (`Sound`).
`Books` ties the tables to what the actions have pushed, `Kept` says when handlers run and how jobs
end, and `Balanced` counts them. Each is proved from what a step does: the event that it notes
(`log_step`), the job that is held after it (`held_step`), and what is stored (`stored_step`).
-/

set_option autoImplicit false

namespace CppLaravel.Queue

open CppLaravel.Lib
open CppLaravel.Database

/-! ### What the actions push -/

section Entries
variable {W : Type}

theorem clockAfter_append (clock : Int) (as bs : List (Action W)) :
    clockAfter clock (as ++ bs) = clockAfter (clockAfter clock as) bs := by
  induction as generalizing clock with
  | nil => rfl
  | cons a as ih =>
    cases a with
    | tick seconds => exact ih _
    | _ => exact ih _

theorem entries_append (clock : Int) (as bs : List (Action W)) :
    entries clock (as ++ bs) = entries clock as ++ entries (clockAfter clock as) bs := by
  induction as generalizing clock with
  | nil => rfl
  | cons a as ih =>
    cases a with
    | tick seconds => exact ih _
    | push job payload delay => exact congrArg _ (ih clock)
    | _ => exact ih _

/-- A job that was pushed stays known. -/
theorem entryAt_append {clock : Int} {as : List (Action W)} {id : Int} {e : Entry}
    (h : entryAt clock as id = some e) (bs : List (Action W)) :
    entryAt clock (as ++ bs) id = some e := by
  unfold entryAt at h ⊢
  split at h
  · rename_i hid
    obtain ⟨hlt, -⟩ := List.getElem?_eq_some_iff.mp h
    rw [if_pos hid, entries_append, List.getElem?_append_left hlt, h]
  · cases h

theorem passes_append (as bs : List (Action W)) : passes (as ++ bs) = passes as ++ passes bs :=
  List.filterMap_append

end Entries

variable {q : DbQueue} {clock : Int} {as : List (Action Unit)} {s s' : JobState Unit}
  {a : Action Unit}

/-! ### What a step does -/

/-- The event that a step notes, and what the worker was doing before it. -/
inductive Occurs (q : DbQueue) (s : JobState Unit) : Action Unit → Event Unit → Prop
  | pushed (job payload : Bytes) (delay : Int) :
      Occurs q s (.push job payload delay) (.pushed (s.nextId + 1))
  | returned {now : Int} {n : Nat} (hw : s.phase () = .scanning ⟨now, n, []⟩) :
      Occurs q s (.look ()) (.returned () n)
  | started {p : Pass Job} {j : Job} (hw : s.phase () = .holding p j .claimed)
      (hh : q.handlers j.job = true) :
      Occurs q s (.dispatch ()) (.started () j.id p.now s.clock)
  | failed {p : Pass Job} {j : Job} (what : Bytes) (hw : s.phase () = .holding p j .running) :
      Occurs q s (.throws () what) (.failed () j.id p.now)
  | completed {p : Pass Job} {j : Job} (hw : s.phase () = .holding p j .succeeded) :
      Occurs q s (.settle ()) (.completed () j.id)
  | dropped {p : Pass Job} {j : Job} (hw : s.phase () = .holding p j .dropping) :
      Occurs q s (.settle ()) (.dropped () j.id)
  | buried {p : Pass Job} {j : Job} {what : Bytes} (hw : s.phase () = .holding p j (.failed what))
      (hmax : q.maxAttempts ≤ j.attempts + 1) :
      Occurs q s (.settle ()) (.buried () j.id)

/-- A step notes one event or none. -/
theorem log_step (hstep : JobStep (fun _ => q) s a s') :
    s'.log = s.log ∨ ∃ e, Occurs q s a e ∧ s'.log = e :: s.log := by
  cases hstep with
  | push job payload delay => exact .inr ⟨_, .pushed job payload delay, rfl⟩
  | finish hw => exact .inr ⟨_, .returned hw, rfl⟩
  | start hw hh => exact .inr ⟨_, .started hw hh, rfl⟩
  | throws what hw => exact .inr ⟨_, .failed what hw, rfl⟩
  | complete hw => exact .inr ⟨_, .completed hw, rfl⟩
  | drop hw => exact .inr ⟨_, .dropped hw, rfl⟩
  | bury hw hmax => exact .inr ⟨_, .buried hw hmax, rfl⟩
  | _ => exact .inl rfl

/-- What is known of the handler of a job at a point of the loop body. -/
def Point.handled : Point → Option Bool
  | .claimed => none
  | .dropping => some false
  | _ => some true

/-- A job that is held was held before, or is claimed now. -/
theorem held_step (hstep : JobStep (fun _ => q) s a s') {p : Pass Job} {j : Job} {pt : Point}
    (hw' : s'.phase () = .holding p j pt) :
    (∃ pt₀, s.phase () = .holding p j pt₀ ∧
      ((∀ b ∈ pt₀.handled, q.handlers j.job = b) → ∀ b ∈ pt.handled, q.handlers j.job = b)) ∨
      s.phase () = .scanning ⟨p.now, p.processed, j :: p.rest⟩ ∧ pt = .claimed ∧
        due q p.now j.availableAt j.reservedAt := by
  cases hstep with
  | tick n => exact .inl ⟨pt, hw', fun h => h⟩
  | push job payload delay => exact .inl ⟨pt, hw', fun h => h⟩
  | claim hw hdue hstored hguard =>
    rw [JobState.phase_goto_unit] at hw'
    cases hw'
    exact .inr ⟨hw, rfl, hdue⟩
  | start hw hh =>
    rw [JobState.phase_note, JobState.phase_goto_unit] at hw'
    cases hw'
    refine .inl ⟨_, hw, fun _ b hb => ?_⟩
    cases hb
    exact hh
  | unknown hw hh =>
    rw [JobState.phase_goto_unit] at hw'
    cases hw'
    refine .inl ⟨_, hw, fun _ b hb => ?_⟩
    cases hb
    exact hh
  | returns hw =>
    rw [JobState.phase_goto_unit] at hw'
    cases hw'
    exact .inl ⟨_, hw, fun h => h⟩
  | throws what hw =>
    rw [JobState.phase_note, JobState.phase_goto_unit] at hw'
    cases hw'
    exact .inl ⟨_, hw, fun h => h⟩
  | bury hw hmax =>
    rw [JobState.phase_note, JobState.phase_goto_unit] at hw'
    cases hw'
    exact .inl ⟨_, hw, fun h => h⟩
  -- The other steps lead to a phase in which no job is held.
  | _ =>
    simp at hw'

/-- A job that is stored was stored before, with the same handler and payload, or is pushed now. -/
theorem stored_step (hc : Copied s) (hex : Exclusive s) (hstep : JobStep (fun _ => q) s a s')
    {id : Int} {j : Job} (hj : s'.jobAt id = some j) :
    (∃ job payload delay, a = .push job payload delay ∧ id = s.nextId + 1 ∧
      j = Job.pushed (s.nextId + 1) job payload delay s.clock) ∨
    ∃ j₀, s.jobAt id = some j₀ ∧ j.job = j₀.job ∧ j.payload = j₀.payload ∧
      (j.availableAt = j₀.availableAt ∨
        ∃ p row what, s.phase () = .holding p row (.failed what) ∧ row.id = id) := by
  have herase : ∀ k, getKey Job.id id (eraseKey Job.id k s.jobs) = some j →
      s.jobAt id = some j := by
    intro k hj
    by_cases hk : id = k
    · rw [hk, getKey_eraseKey_self] at hj
      cases hj
    · rwa [getKey_eraseKey_ne hk] at hj
  have hset : ∀ {k : Int} {b : Job}, b.id = k →
      getKey Job.id id (setKey Job.id k b s.jobs) = some j →
        id = k ∧ j = b ∨ s.jobAt id = some j := by
    intro k b hb hj
    by_cases hk : id = k
    · rw [hk, getKey_setKey_self hb, Option.map_eq_some_iff] at hj
      obtain ⟨-, -, rfl⟩ := hj
      exact .inl ⟨hk, rfl⟩
    · rw [getKey_setKey_ne hb hk] at hj
      exact .inr hj
  -- Only a push, a claim and a requeue write a row; the endings take one away.
  cases hstep with
  | push job payload delay =>
    have hj : (s.addJob job payload delay).jobAt id = some j := hj
    rw [jobAt_addJob hc.known] at hj
    split at hj
    · rename_i hid
      exact .inl ⟨job, payload, delay, rfl, hid, (Option.some.inj hj).symm⟩
    · exact .inr ⟨j, hj, rfl, rfl, .inl rfl⟩
  | @claim w now n j₁ stored rest hw hdue hstored hguard =>
    obtain ⟨rfl, -⟩ := hc.fresh (q := q) (.look ()) () ⟨now, n, j₁ :: rest⟩ j₁ stored rfl
      (by rw [hw]; rfl) hdue hstored hguard
    have hid : (stored.claimedAt now).id = stored.id := rfl
    rcases hset hid hj with ⟨rfl, rfl⟩ | hj
    · exact .inr ⟨stored, hstored, rfl, rfl, .inl rfl⟩
    · exact .inr ⟨j, hj, rfl, rfl, .inl rfl⟩
  | @requeue w p j₁ what hw hmax =>
    have hid : (j₁.requeuedAt q p.now).id = j₁.id := rfl
    rcases hset hid hj with ⟨rfl, rfl⟩ | hj
    · exact .inr ⟨j₁.claimedAt p.now, hex.stored w p j₁ _ hw, rfl, rfl, .inr ⟨p, j₁, what, hw, rfl⟩⟩
    · exact .inr ⟨j, hj, rfl, rfl, .inl rfl⟩
  | complete hw => exact .inr ⟨j, herase _ hj, rfl, rfl, .inl rfl⟩
  | drop hw => exact .inr ⟨j, herase _ hj, rfl, rfl, .inl rfl⟩
  | clear hw => exact .inr ⟨j, herase _ hj, rfl, rfl, .inl rfl⟩
  | _ => exact .inr ⟨j, hj, rfl, rfl, .inl rfl⟩

/-! ### The invariants of one worker -/

variable (q) in
/-- What holds of the claims, the attempts, the endings and the pass. -/
structure Sound (s : JobState Unit) : Prop where
  copied : Copied s
  retry : RetryInv q.maxAttempts q.retryBackoff s
  accounted : Accounted s
  inPass : InPass q s

theorem Sound.init (hmax : 1 ≤ q.maxAttempts) (clock : Int) : Sound q (JobState.init clock) where
  copied := Copied.init clock
  retry := ⟨Exclusive.init clock, Known.init clock, Disciplined.init (by omega) clock⟩
  accounted := Accounted.init clock
  inPass := InPass.init clock

theorem sound_step (hmax : 1 ≤ q.maxAttempts) (h : Sound q s) (hcrash : NoCrash a)
    (hstep : JobStep (fun _ => q) s a s') : Sound q s' where
  copied := copied_step h.copied hcrash hstep
  retry := retryInv_step (fun _ => rfl) (fun _ => rfl) hmax h.retry hcrash (h.copied.fresh a) hstep
  accounted := accounted_step h.accounted h.retry.exclusive h.retry.known hcrash hstep
  inPass := inPass_step h.inPass h.copied hcrash hstep

/-- The job at hand is stored as it was claimed. -/
theorem Sound.stored (h : Sound q s) {p : Pass Job} {j : Job} {pt : Point}
    (hw : s.phase () = .holding p j pt) : s.jobAt j.id = some (j.claimedAt p.now) :=
  h.retry.exclusive.stored () p j pt hw

/-- The job at hand has not ended, unless it is buried. -/
theorem Sound.unended (h : Sound q s) {p : Pass Job} {j : Job} {pt : Point}
    (hw : s.phase () = .holding p j pt) (hpt : pt ≠ .buried) : endings j.id s.log = 0 :=
  h.accounted.open_of_holding h.retry.exclusive hw hpt

/-! ### The books -/

/-- The failures of a job before an event, and the one that the event is. -/
theorem mem_failures_cons {id : Int} {e : Event Unit} {log : List (Event Unit)} {f : Int × Nat}
    (hf : f ∈ failures id (e :: log)) :
    f ∈ failures id log ∨ ∃ t, e = .failed () id t ∧ f.1 = t := by
  cases e with
  | failed w id' t =>
    rw [failures] at hf
    split at hf
    · rename_i hid
      rcases List.mem_cons.mp hf with rfl | hf
      · exact .inr ⟨t, by rw [hid], rfl⟩
      · exact .inl hf
    · exact .inl hf
  | _ => exact .inl hf

theorem failures_of_cons_eq_nil {id : Int} {e : Event Unit} {log : List (Event Unit)}
    (h : failures id (e :: log) = []) : failures id log = [] := by
  cases e with
  | failed w id' t =>
    rw [failures] at h
    split at h
    · cases h
    · exact h
  | _ => exact h

variable (q clock) in
/-- The tables, the job at hand and the failures agree with what the actions have pushed. -/
structure Books (as : List (Action Unit)) (s : JobState Unit) : Prop where
  time : s.clock = clockAfter clock as
  count : s.nextId = (entries clock as).length
  pushed : ∀ id, 1 ≤ id → id ≤ s.nextId → .pushed id ∈ s.log
  stored : ∀ id j, s.jobAt id = some j → ∃ e, entryAt clock as id = some e ∧ j.job = e.job ∧
    j.payload = e.payload ∧ (failures id s.log = [] → j.availableAt = e.availableAt)
  held : ∀ p j pt, s.phase () = .holding p j pt → 0 ≤ j.attempts ∧
    (∀ b ∈ pt.handled, q.handlers j.job = b) ∧ ∃ e, entryAt clock as j.id = some e ∧
      j.job = e.job ∧ j.payload = e.payload ∧ e.availableAt ≤ p.now
  now : ∀ now, (s.phase ()).now? = some now → now ∈ passes as ∧ ∀ t ∈ passes as, t ≤ now
  failed : ∀ id, ∀ f ∈ failures id s.log, f.1 ∈ passes as ∧
    ∃ e, entryAt clock as id = some e ∧ q.handlers e.job = true ∧ e.availableAt ≤ f.1

namespace Books

theorem init : Books q clock [] (JobState.init clock) where
  time := rfl
  count := rfl
  pushed id hid hle := by
    have hle : id ≤ 0 := hle
    omega
  stored id j hj := by simp [JobState.init, JobState.jobAt] at hj
  held p j pt hw := by simp [JobState.init] at hw
  now now hnow := by simp [JobState.init, Phase.now?] at hnow
  failed id f hf := by simp [JobState.init, failures] at hf

/-- The clock, and the number of the jobs. -/
theorem count_step (h : Books q clock as s) (hstep : JobStep (fun _ => q) s a s') :
    s'.clock = clockAfter clock (as ++ [a]) ∧ s'.nextId = (entries clock (as ++ [a])).length := by
  rw [clockAfter_append, entries_append, List.length_append, ← h.time, Int.natCast_add, ← h.count]
  cases hstep with
  | push job payload delay => exact ⟨rfl, rfl⟩
  | _ => exact ⟨rfl, (Int.add_zero _).symm⟩

theorem pushed_step (h : Books q clock as s) (hstep : JobStep (fun _ => q) s a s') {id : Int}
    (hid : 1 ≤ id) (hle : id ≤ s'.nextId) : .pushed id ∈ s'.log := by
  cases hstep with
  | push job payload delay =>
    have hle : id ≤ s.nextId + 1 := hle
    by_cases hnew : id = s.nextId + 1
    · rw [hnew]
      exact List.mem_cons_self
    · exact List.mem_cons_of_mem _ (h.pushed id hid (by omega))
  -- The other steps note an event or none, and push no job.
  | finish hw => exact List.mem_cons_of_mem _ (h.pushed id hid hle)
  | start hw hh => exact List.mem_cons_of_mem _ (h.pushed id hid hle)
  | throws what hw => exact List.mem_cons_of_mem _ (h.pushed id hid hle)
  | complete hw => exact List.mem_cons_of_mem _ (h.pushed id hid hle)
  | drop hw => exact List.mem_cons_of_mem _ (h.pushed id hid hle)
  | bury hw hmax => exact List.mem_cons_of_mem _ (h.pushed id hid hle)
  | _ => exact h.pushed id hid hle

theorem stored_step (h : Books q clock as s) (hs : Sound q s)
    (hstep : JobStep (fun _ => q) s a s') {id : Int} {j : Job} (hj : s'.jobAt id = some j) :
    ∃ e, entryAt clock (as ++ [a]) id = some e ∧ j.job = e.job ∧ j.payload = e.payload ∧
      (failures id s'.log = [] → j.availableAt = e.availableAt) := by
  rcases Queue.stored_step hs.copied hs.retry.exclusive hstep hj with
    ⟨job, payload, delay, rfl, rfl, rfl⟩ | ⟨j₀, hj₀, hjob, hpayload, havailable⟩
  · -- A new job has the next place among those that are pushed.
    refine ⟨⟨job, payload, if 0 < delay then s.clock + delay else 0⟩, ?_, rfl, rfl, fun _ => rfl⟩
    have hnext := hs.copied.nextId
    have hindex : (s.nextId + 1 - 1).toNat = (entries clock as).length := by
      rw [h.count]
      omega
    rw [entryAt, if_pos (by omega), entries_append, hindex, List.getElem?_append_right
      (Nat.le_refl _), Nat.sub_self, ← h.time]
    rfl
  · obtain ⟨e, he, hjob', hpayload', hfirst⟩ := h.stored id j₀ hj₀
    refine ⟨e, entryAt_append he _, hjob.trans hjob', hpayload.trans hpayload', fun hnone => ?_⟩
    have hnone : failures id s.log = [] := by
      rcases log_step hstep with hlog | ⟨ev, -, hlog⟩
      · rwa [hlog] at hnone
      · rw [hlog] at hnone
        exact failures_of_cons_eq_nil hnone
    rcases havailable with hsame | ⟨p, row, what, hw, rfl⟩
    · exact hsame.trans (hfirst hnone)
    · -- A job that is requeued has failed.
      obtain ⟨hpos, -⟩ := h.held p row _ hw
      have hfailed := (hs.retry.disciplined.held () p row _ hw).failed
      rw [hnone] at hfailed
      simp only [List.length_nil, Point.lost] at hfailed
      omega

theorem held_step (h : Books q clock as s) (hs : Sound q s)
    (hstep : JobStep (fun _ => q) s a s') {p : Pass Job} {j : Job} {pt : Point}
    (hw' : s'.phase () = .holding p j pt) : 0 ≤ j.attempts ∧
      (∀ b ∈ pt.handled, q.handlers j.job = b) ∧ ∃ e, entryAt clock (as ++ [a]) j.id = some e ∧
        j.job = e.job ∧ j.payload = e.payload ∧ e.availableAt ≤ p.now := by
  rcases Queue.held_step hstep hw' with ⟨pt₀, hw, hhandled⟩ | ⟨hw, rfl, hdue⟩
  · obtain ⟨hpos, hpt, e, he, hjob, hpayload, havailable⟩ := h.held p j pt₀ hw
    exact ⟨hpos, hhandled hpt, e, entryAt_append he _, hjob, hpayload, havailable⟩
  · -- The job is claimed as it is stored.
    have hmem : j ∈ (s.phase ()).ahead := by
      rw [hw]
      exact List.mem_cons_self
    have hj := hs.copied.ahead j hmem
    have hun : Unheld s j.id := unheld_of_claim? (by rw [hw]; rfl) j.id
    have hcount := (hs.retry.disciplined.waiting j.id j hj hun).failed
    obtain ⟨e, he, hjob, hpayload, hfirst⟩ := h.stored j.id j hj
    refine ⟨by omega, fun b hb => (nomatch hb), e, entryAt_append he _, hjob, hpayload, ?_⟩
    cases hfailures : failures j.id s.log with
    | nil => exact (hfirst hfailures).symm.trans_le hdue.1
    | cons f fs =>
      -- It was available when it failed, and no pass is earlier than that.
      have hf : f ∈ failures j.id s.log := by
        rw [hfailures]
        exact List.mem_cons_self
      obtain ⟨hpass, e', he', -, hle⟩ := h.failed j.id f hf
      obtain rfl : e = e' := Option.some.inj (he.symm.trans he')
      exact hle.trans ((h.now p.now (by rw [hw]; rfl)).2 f.1 hpass)

theorem now_step (h : Books q clock as s) (hforward : Forward (as ++ [a]))
    (hstep : JobStep (fun _ => q) s a s') {now : Int} (hnow : (s'.phase ()).now? = some now) :
    now ∈ passes (as ++ [a]) ∧ ∀ t ∈ passes (as ++ [a]), t ≤ now := by
  obtain ⟨hpos, hsorted⟩ := hforward
  rw [passes_append] at hpos hsorted ⊢
  rcases now?_step hstep hnow with hold | ⟨arg, rfl, hnow⟩
  · -- Within a pass no other begins.
    have hnone : passes [a] = [] := by
      cases hstep with
      | enter arg hw =>
        rw [hw] at hold
        cases hold
      | _ => rfl
    rw [hnone, List.append_nil]
    exact h.now now hold
  · have harg : 0 < arg := hpos arg (List.mem_append_right _ List.mem_cons_self)
    obtain rfl : now = arg := hnow.trans (if_neg (by omega))
    refine ⟨List.mem_append_right _ List.mem_cons_self, fun t ht => ?_⟩
    rcases List.mem_append.mp ht with ht | ht
    · exact (List.pairwise_append.mp hsorted).2.2 t ht now List.mem_cons_self
    · exact Int.le_of_eq (List.mem_singleton.mp ht)

theorem failed_step (h : Books q clock as s) (hstep : JobStep (fun _ => q) s a s') {id : Int}
    {f : Int × Nat} (hf : f ∈ failures id s'.log) : f.1 ∈ passes (as ++ [a]) ∧
      ∃ e, entryAt clock (as ++ [a]) id = some e ∧ q.handlers e.job = true ∧
        e.availableAt ≤ f.1 := by
  have hold : f ∈ failures id s.log → f.1 ∈ passes (as ++ [a]) ∧
      ∃ e, entryAt clock (as ++ [a]) id = some e ∧ q.handlers e.job = true ∧
        e.availableAt ≤ f.1 := by
    intro hf
    obtain ⟨hpass, e, he, hh, hle⟩ := h.failed id f hf
    rw [passes_append]
    exact ⟨List.mem_append_left _ hpass, e, entryAt_append he _, hh, hle⟩
  rcases log_step hstep with hlog | ⟨ev, hev, hlog⟩
  · rw [hlog] at hf
    exact hold hf
  · rw [hlog] at hf
    rcases mem_failures_cons hf with hf | ⟨t, rfl, ht⟩
    · exact hold hf
    · -- The job at hand has failed in the present pass.
      cases hev with
      | @failed p j what hw =>
        obtain ⟨-, hhandled, e, he, hjob, -, hle⟩ := h.held p j _ hw
        rw [passes_append, ht]
        refine ⟨List.mem_append_left _ (h.now p.now (by rw [hw]; rfl)).1, e,
          entryAt_append he _, ?_, hle⟩
        rw [← hjob]
        exact hhandled true rfl

theorem step (h : Books q clock as s) (hs : Sound q s) (hforward : Forward (as ++ [a]))
    (hstep : JobStep (fun _ => q) s a s') : Books q clock (as ++ [a]) s' where
  time := (h.count_step hstep).1
  count := (h.count_step hstep).2
  pushed _ hid hle := h.pushed_step hstep hid hle
  stored _ _ hj := h.stored_step hs hstep hj
  held _ _ _ hw := h.held_step hs hstep hw
  now _ hnow := h.now_step hforward hstep hnow
  failed _ _ hf := h.failed_step hstep hf

end Books

/-! ### When handlers run, and how jobs end -/

variable (q clock) in
/-- Handlers run for jobs that are due, and the endings of the jobs are as they should be. -/
structure Kept (as : List (Action Unit)) (s : JobState Unit) : Prop where
  onTime : ∀ after id now c before, s.log = after ++ .started () id now c :: before →
    endings id before = 0 ∧
      (∃ e, entryAt clock as id = some e ∧ q.handlers e.job = true ∧ e.availableAt ≤ now) ∧
      ∀ f ∈ failures id before, f.1 + q.retryBackoff * f.2 ≤ now
  completed : ∀ id ∈ s.log.filterMap Event.completed?,
    (∃ e, entryAt clock as id = some e ∧ q.handlers e.job = true) ∧
      ((failures id s.log).length : Int) < q.maxAttempts
  dropped : ∀ id ∈ s.log.filterMap Event.dropped?,
    ∃ e, entryAt clock as id = some e ∧ q.handlers e.job = false
  buried : ∀ id ∈ s.log.filterMap Event.buried?,
    (∃ e, entryAt clock as id = some e ∧ q.handlers e.job = true) ∧
      ((failures id s.log).length : Int) = q.maxAttempts

/-- A job that has ended fails no more. -/
theorem failures_of_ended {e : Event Unit} (hs : Sound q s) (he : Occurs q s a e) {id : Int}
    (hid : 0 < endings id s.log) : failures id (e :: s.log) = failures id s.log := by
  cases he with
  | @failed p j what hw =>
    have hne : ¬ j.id = id := by
      rintro rfl
      have hopen := hs.unended hw (by simp)
      omega
    exact if_neg hne
  | _ => rfl

theorem endings_pos_of_mem {f : Event Unit → Option Int}
    (hf : ∀ e id, f e = some id → e.ends? = some id) {id : Int} {log : List (Event Unit)}
    (hid : id ∈ log.filterMap f) : 0 < endings id log := by
  obtain ⟨e, he, hfe⟩ := List.mem_filterMap.mp hid
  exact List.countP_pos_iff.mpr ⟨e, he, decide_eq_true (hf e id hfe)⟩

theorem ends?_of_completed? (e : Event Unit) (id : Int) (h : e.completed? = some id) :
    e.ends? = some id := by
  cases e <;> first | exact h | cases h

theorem ends?_of_buried? (e : Event Unit) (id : Int) (h : e.buried? = some id) :
    e.ends? = some id := by
  cases e <;> first | exact h | cases h

namespace Kept

theorem init : Kept q clock [] (JobState.init clock) where
  onTime after id now c before h := by simp [JobState.init] at h
  completed id hid := by simp [JobState.init] at hid
  dropped id hid := by simp [JobState.init] at hid
  buried id hid := by simp [JobState.init] at hid

theorem onTime_step (h : Kept q clock as s) (hb : Books q clock as s) (hs : Sound q s)
    (hstep : JobStep (fun _ => q) s a s') {after before : List (Event Unit)} {id now c : Int}
    (hlog : s'.log = after ++ .started () id now c :: before) :
    endings id before = 0 ∧
      (∃ e, entryAt clock (as ++ [a]) id = some e ∧ q.handlers e.job = true ∧
        e.availableAt ≤ now) ∧
      ∀ f ∈ failures id before, f.1 + q.retryBackoff * f.2 ≤ now := by
  have hold : ∀ after, s.log = after ++ .started () id now c :: before →
      endings id before = 0 ∧
        (∃ e, entryAt clock (as ++ [a]) id = some e ∧ q.handlers e.job = true ∧
          e.availableAt ≤ now) ∧
        ∀ f ∈ failures id before, f.1 + q.retryBackoff * f.2 ≤ now := by
    intro after hlog
    obtain ⟨hopen, ⟨e, he, hh, hle⟩, hspaced⟩ := h.onTime after id now c before hlog
    exact ⟨hopen, ⟨e, entryAt_append he _, hh, hle⟩, hspaced⟩
  -- The new event is at the front; the law is about one behind it, or about itself.
  rcases log_step hstep with hsame | ⟨ev, hev, hcons⟩
  · exact hold after (hsame ▸ hlog)
  · rw [hcons] at hlog
    cases after with
    | cons ev' after =>
      rw [List.cons_append, List.cons.injEq] at hlog
      exact hold after hlog.2
    | nil =>
      rw [List.nil_append, List.cons.injEq] at hlog
      obtain ⟨rfl, rfl⟩ := hlog
      cases hev with
      | @started p j hw hh =>
        obtain ⟨-, -, e, he, hjob, -, hle⟩ := hb.held p j _ hw
        refine ⟨hs.unended hw (by simp), ⟨e, entryAt_append he _, hjob ▸ hh, hle⟩, ?_⟩
        intro f hf
        by_cases hpos : 0 < q.retryBackoff
        · rcases (hs.retry.disciplined.held () p j _ hw).spaced f hf hpos with hle | ⟨hlost, -⟩
          · exact hle
          · cases hlost
        · -- Without a backoff, no earlier than the failure.
          have hpass := (hb.failed j.id f hf).1
          have hle := (hb.now p.now (by rw [hw]; rfl)).2 f.1 hpass
          have hneg : q.retryBackoff * (f.2 : Int) ≤ 0 :=
            Int.mul_nonpos_of_nonpos_of_nonneg (by omega) (Int.natCast_nonneg f.2)
          omega

/-- What was known of the jobs that had ended is known of them after a step. -/
theorem ended_step (hs : Sound q s) (hstep : JobStep (fun _ => q) s a s') {id : Int}
    (hid : 0 < endings id s.log) : failures id s'.log = failures id s.log := by
  rcases log_step hstep with hsame | ⟨ev, hev, hcons⟩
  · rw [hsame]
  · rw [hcons]
    exact failures_of_ended hs hev hid

theorem completed_step (h : Kept q clock as s) (hb : Books q clock as s) (hs : Sound q s)
    (hstep : JobStep (fun _ => q) s a s') {id : Int}
    (hid : id ∈ s'.log.filterMap Event.completed?) :
    (∃ e, entryAt clock (as ++ [a]) id = some e ∧ q.handlers e.job = true) ∧
      ((failures id s'.log).length : Int) < q.maxAttempts := by
  by_cases hold : id ∈ s.log.filterMap Event.completed?
  · obtain ⟨⟨e, he, hh⟩, hlt⟩ := h.completed id hold
    rw [ended_step hs hstep (endings_pos_of_mem ends?_of_completed? hold)]
    exact ⟨⟨e, entryAt_append he _, hh⟩, hlt⟩
  · rcases log_step hstep with hsame | ⟨ev, hev, hcons⟩
    · exact absurd (hsame ▸ hid) hold
    · rw [hcons] at hid ⊢
      cases hev with
      | @completed p j hw =>
        obtain rfl : id = j.id := (List.mem_cons.mp hid).resolve_right hold
        obtain ⟨-, hhandled, e, he, hjob, -, -⟩ := hb.held p j _ hw
        have hheld := hs.retry.disciplined.held () p j _ hw
        have hfailed := hheld.failed
        have hbelow := hheld.below
        simp only [Point.lost] at hfailed
        refine ⟨⟨e, entryAt_append he _, hjob ▸ hhandled true rfl⟩, ?_⟩
        show ((failures j.id s.log).length : Int) < q.maxAttempts
        omega
      | _ => exact absurd hid hold

theorem dropped_step (h : Kept q clock as s) (hb : Books q clock as s)
    (hstep : JobStep (fun _ => q) s a s') {id : Int}
    (hid : id ∈ s'.log.filterMap Event.dropped?) :
    ∃ e, entryAt clock (as ++ [a]) id = some e ∧ q.handlers e.job = false := by
  by_cases hold : id ∈ s.log.filterMap Event.dropped?
  · obtain ⟨e, he, hh⟩ := h.dropped id hold
    exact ⟨e, entryAt_append he _, hh⟩
  · rcases log_step hstep with hsame | ⟨ev, hev, hcons⟩
    · exact absurd (hsame ▸ hid) hold
    · rw [hcons] at hid
      cases hev with
      | @dropped p j hw =>
        obtain rfl : id = j.id := (List.mem_cons.mp hid).resolve_right hold
        obtain ⟨-, hhandled, e, he, hjob, -, -⟩ := hb.held p j _ hw
        exact ⟨e, entryAt_append he _, hjob ▸ hhandled false rfl⟩
      | _ => exact absurd hid hold

theorem buried_step (h : Kept q clock as s) (hb : Books q clock as s) (hs : Sound q s)
    (hstep : JobStep (fun _ => q) s a s') {id : Int}
    (hid : id ∈ s'.log.filterMap Event.buried?) :
    (∃ e, entryAt clock (as ++ [a]) id = some e ∧ q.handlers e.job = true) ∧
      ((failures id s'.log).length : Int) = q.maxAttempts := by
  by_cases hold : id ∈ s.log.filterMap Event.buried?
  · obtain ⟨⟨e, he, hh⟩, heq⟩ := h.buried id hold
    rw [ended_step hs hstep (endings_pos_of_mem ends?_of_buried? hold)]
    exact ⟨⟨e, entryAt_append he _, hh⟩, heq⟩
  · rcases log_step hstep with hsame | ⟨ev, hev, hcons⟩
    · exact absurd (hsame ▸ hid) hold
    · rw [hcons] at hid ⊢
      cases hev with
      | @buried p j what hw hmax =>
        obtain rfl : id = j.id := (List.mem_cons.mp hid).resolve_right hold
        obtain ⟨-, hhandled, e, he, hjob, -, -⟩ := hb.held p j _ hw
        have hheld := hs.retry.disciplined.held () p j _ hw
        have hfailed := hheld.failed
        have hbelow := hheld.below
        simp only [Point.lost] at hfailed
        refine ⟨⟨e, entryAt_append he _, hjob ▸ hhandled true rfl⟩, ?_⟩
        show ((failures j.id s.log).length : Int) = q.maxAttempts
        omega
      | _ => exact absurd hid hold

theorem step (h : Kept q clock as s) (hb : Books q clock as s) (hs : Sound q s)
    (hstep : JobStep (fun _ => q) s a s') : Kept q clock (as ++ [a]) s' where
  onTime _ _ _ _ _ hlog := h.onTime_step hb hs hstep hlog
  completed _ hid := h.completed_step hb hs hstep hid
  dropped _ hid := h.dropped_step hb hstep hid
  buried _ hid := h.buried_step hb hs hstep hid

end Kept

/-! ### The two tables -/

/-- The worker has written a job to `failed_jobs`, and has yet to remove it. -/
def Phase.burying {ρ : Type} : Phase ρ → Nat
  | .holding _ _ .buried => 1
  | _ => 0

variable (clock) in
/-- The rows of `failed_jobs` are those of the buried jobs, and every job is accounted for. -/
structure Balanced (as : List (Action Unit)) (s : JobState Unit) : Prop where
  rows : List.Forall₂ (fun f id => ∃ e, entryAt clock as id = some e ∧ f.job = e.job ∧
    f.payload = e.payload) s.failedJobs (s.log.filterMap Event.buried?).reverse
  total : s.jobs.length + (s.log.filterMap Event.completed?).length + s.failedJobs.length +
    (s.log.filterMap Event.dropped?).length = (entries clock as).length + (s.phase ()).burying

namespace Balanced

theorem init : Balanced clock [] (JobState.init clock) := ⟨.nil, rfl⟩

theorem rows_step (h : Balanced clock as s) (hb : Books q clock as s)
    (hstep : JobStep (fun _ => q) s a s') :
    List.Forall₂ (fun f id => ∃ e, entryAt clock (as ++ [a]) id = some e ∧ f.job = e.job ∧
      f.payload = e.payload) s'.failedJobs (s'.log.filterMap Event.buried?).reverse := by
  have hold : List.Forall₂ (fun f id => ∃ e, entryAt clock (as ++ [a]) id = some e ∧
      f.job = e.job ∧ f.payload = e.payload) s.failedJobs
        (s.log.filterMap Event.buried?).reverse := by
    refine h.rows.imp fun f id ⟨e, he, hrow⟩ => ⟨e, entryAt_append he _, hrow⟩
  cases hstep with
  | @bury w p j what hw hmax =>
    obtain ⟨-, -, e, he, hjob, hpayload, -⟩ := hb.held p j _ hw
    show List.Forall₂ _ (s.failedJobs ++ [_]) (j.id :: s.log.filterMap Event.buried?).reverse
    rw [List.reverse_cons]
    exact List.rel_append hold (.cons ⟨e, entryAt_append he _, hjob, hpayload⟩ .nil)
  | _ => exact hold

/-- Where no row comes or goes and no job ends, the sum stays. -/
theorem total_of_same {ph ph' : Phase Job} {n : Nat} (hw : s.phase () = ph)
    (hw' : s'.phase () = ph') (hburying : ph'.burying = ph.burying)
    (hsame : s'.jobs.length + (s'.log.filterMap Event.completed?).length + s'.failedJobs.length +
      (s'.log.filterMap Event.dropped?).length =
        s.jobs.length + (s.log.filterMap Event.completed?).length + s.failedJobs.length +
          (s.log.filterMap Event.dropped?).length)
    (h : s.jobs.length + (s.log.filterMap Event.completed?).length + s.failedJobs.length +
      (s.log.filterMap Event.dropped?).length = n + (s.phase ()).burying) :
    s'.jobs.length + (s'.log.filterMap Event.completed?).length + s'.failedJobs.length +
      (s'.log.filterMap Event.dropped?).length = n + (s'.phase ()).burying := by
  rw [hsame, h, hw, hw', hburying]

open JobState in
theorem total_step (h : Balanced clock as s) (hs : Sound q s) (hcrash : NoCrash a)
    (hstep : JobStep (fun _ => q) s a s') :
    s'.jobs.length + (s'.log.filterMap Event.completed?).length + s'.failedJobs.length +
      (s'.log.filterMap Event.dropped?).length =
        (entries clock (as ++ [a])).length + (s'.phase ()).burying := by
  have htotal := h.total
  have herase : ∀ {p : Pass Job} {j : Job} {pt : Point}, s.phase () = .holding p j pt →
      (eraseKey Job.id j.id s.jobs).length + 1 = s.jobs.length := fun hw =>
    length_eraseKey hs.copied.nodup (hs.stored hw)
  rw [entries_append, List.length_append]
  cases hstep with
  | tick n => exact htotal
  | push job payload delay =>
    show (s.jobs ++ [_]).length + _ + _ + _ = (entries clock as).length + 1 + (s.phase ()).burying
    rw [List.length_append, List.length_singleton]
    show s.jobs.length + 1 + (s.log.filterMap Event.completed?).length + s.failedJobs.length +
      (s.log.filterMap Event.dropped?).length = _
    omega
  -- The worker moves on, and the tables stay.
  | enter arg hw => exact total_of_same hw (phase_goto_unit _ _ _) rfl rfl htotal
  | snapshot hw => exact total_of_same hw (phase_goto_unit _ _ _) rfl rfl htotal
  | finish hw => exact total_of_same hw (phase_note_goto_unit _ _ _ _) rfl rfl htotal
  | skip hw hno => exact total_of_same hw (phase_goto_unit _ _ _) rfl rfl htotal
  | start hw hh => exact total_of_same hw (phase_note_goto_unit _ _ _ _) rfl rfl htotal
  | unknown hw hh => exact total_of_same hw (phase_goto_unit _ _ _) rfl rfl htotal
  | returns hw => exact total_of_same hw (phase_goto_unit _ _ _) rfl rfl htotal
  | throws what hw => exact total_of_same hw (phase_note_goto_unit _ _ _ _) rfl rfl htotal
  -- A claim and a requeue rewrite a row.
  | @claim w now n j stored rest hw hdue hstored hguard =>
    have hid : (j.claimedAt now).id = j.id := rfl
    refine total_of_same hw (phase_goto_unit _ _ _) rfl ?_ htotal
    show (setKey Job.id j.id (j.claimedAt now) s.jobs).length + _ + _ + _ = _
    rw [length_setKey hid s.jobs]
    rfl
  | @requeue w p j what hw hmax =>
    have hid : (j.requeuedAt q p.now).id = j.id := rfl
    refine total_of_same hw (phase_goto_unit _ _ _) rfl ?_ htotal
    show (setKey Job.id j.id (j.requeuedAt q p.now) s.jobs).length + _ + _ + _ = _
    rw [length_setKey hid s.jobs]
    rfl
  -- The endings.
  | @complete w p j hw =>
    have hlength := herase hw
    rw [hw] at htotal
    rw [phase_note, phase_goto_unit]
    show (eraseKey Job.id j.id s.jobs).length + ((s.log.filterMap Event.completed?).length + 1) +
      s.failedJobs.length + (s.log.filterMap Event.dropped?).length = (entries clock as).length + 0
    have htotal : _ = (entries clock as).length + 0 := htotal
    omega
  | @drop w p j hw =>
    have hlength := herase hw
    rw [hw] at htotal
    rw [phase_note, phase_goto_unit]
    show (eraseKey Job.id j.id s.jobs).length + (s.log.filterMap Event.completed?).length +
      s.failedJobs.length + ((s.log.filterMap Event.dropped?).length + 1) =
        (entries clock as).length + 0
    have htotal : _ = (entries clock as).length + 0 := htotal
    omega
  | @bury w p j what hw hmax =>
    rw [hw] at htotal
    rw [phase_note, phase_goto_unit]
    show s.jobs.length + (s.log.filterMap Event.completed?).length +
      (s.failedJobs ++ [_]).length + (s.log.filterMap Event.dropped?).length =
        (entries clock as).length + 1
    have htotal : _ = (entries clock as).length + 0 := htotal
    rw [List.length_append, List.length_singleton]
    omega
  | @clear w p j hw =>
    have hlength := herase hw
    rw [hw] at htotal
    rw [phase_goto_unit]
    show (eraseKey Job.id j.id s.jobs).length + (s.log.filterMap Event.completed?).length +
      s.failedJobs.length + (s.log.filterMap Event.dropped?).length = (entries clock as).length + 0
    have htotal : _ = (entries clock as).length + 1 := htotal
    omega
  | throwsOther hw => exact hcrash.elim
  | crash w => exact hcrash.elim

theorem step (h : Balanced clock as s) (hb : Books q clock as s) (hs : Sound q s)
    (hcrash : NoCrash a) (hstep : JobStep (fun _ => q) s a s') :
    Balanced clock (as ++ [a]) s' where
  rows := h.rows_step hb hstep
  total := h.total_step hs hcrash hstep

end Balanced

end CppLaravel.Queue
