import CppLaravel.Queue.ArrayQueue

/-!
# `CppLaravel.Proofs.Queue.ArrayQueue`: each job once, and none lost

What the queue is for: the jobs are started one after the other in the order in which they were
pushed. In this order some are started and the others wait (`Inv.order`), so none is started twice
and none is lost.

`lawful_of_careful` keeps this over every run whose steps are `careful`. `careless_unlawful` is the
converse: behind a step that is not, the law is broken at once or when the next job is started.
-/

set_option autoImplicit false

namespace CppLaravel.ArrayQueue

open CppLaravel.Lib

namespace State

/-- There is room for the next job, or `work()` is not in the vector. -/
def roomy (s : State) : Bool := s.loop.isNone || !s.jobs.full

/-- A step after which each job still has its one place. A push inside `work()` finds room; `work()`
is not called again once an exception has left it; and it is not left behind the last job while the
vector holds more than when it began. -/
def careful {E : Type} (s : State) : Event E → Bool
  | .push => s.roomy
  | .call =>
    match s.calls with
    | (.queued :: _) :: _ => s.roomy
    | _ => true
  | .work => s.stopped.isNone
  | .leave =>
    match s.loop with
    | some l => l.last = s.jobs.items.length
    | none => true
  | _ => true

/-- How many jobs of the vector are started. -/
def position (s : State) : Nat :=
  match s.loop with
  | some l => if l.busy then l.next + 1 else l.next
  | none => s.stopped.getD 0

/-- The jobs of the vector that are not started. -/
def waiting (s : State) : List Nat := s.jobs.items.drop s.position

end State

/-- The invariant of a careful run. -/
structure Inv (s : State) : Prop where
  defined : s.undefined = false
  /-- The jobs in the order of their pushes: some are started, the others wait. -/
  order : s.started ++ s.waiting = List.range s.pushed
  within : s.position ≤ s.jobs.items.length
  /-- The vector begins with jobs that are started. -/
  behind : ∀ j ∈ s.jobs.items.take s.position, j ∈ s.started
  inside_lt : ∀ j ∈ s.inside, j < s.pushed
  stopped_pos : ∀ k, s.stopped = some k → 0 < k
  looping : ∀ l, s.loop = some l →
    s.stopped = none ∧ s.position ≤ l.last ∧ l.last ≤ s.jobs.items.length
  /-- What the loop will not come to was pushed inside it. -/
  late : ∀ l, s.loop = some l → ∀ j ∈ s.jobs.items.drop l.last, j ∈ s.inside

theorem inv_initial : Inv .initial where
  defined := rfl
  order := rfl
  within := Nat.le_refl 0
  behind _ h := nomatch h
  inside_lt _ h := nomatch h
  stopped_pos _ h := nomatch h
  looping _ h := nomatch h
  late _ h := nomatch h

/-- The law follows from the order. -/
theorem Inv.lawful {s : State} (h : Inv s) : Lawful s where
  defined := h.defined
  once := by
    have hnodup : (s.started ++ s.waiting).Nodup := by
      rw [h.order]
      exact List.nodup_range
    exact (List.nodup_append.mp hnodup).1
  kept := by
    intro _ j hj
    have hmem : j ∈ s.started ++ s.waiting := by
      rw [h.order, List.mem_range]
      exact h.inside_lt j hj
    exact (List.mem_append.mp hmem).imp_right List.mem_of_mem_drop

/-- The calls under way do not matter to the queue. -/
theorem Inv.with_calls {s : State} (h : Inv s) (calls : List (List Listener)) :
    Inv { s with calls := calls } where
  defined := h.defined
  order := h.order
  within := h.within
  behind := h.behind
  inside_lt := h.inside_lt
  stopped_pos := h.stopped_pos
  looping := h.looping
  late := h.late

section
variable {E : Type} {grow : Nat → Nat} {listeners : E → List Listener}

/-- A push, where there is room or `work()` is not running. -/
theorem Inv.push {s : State} (h : Inv s) (hroomy : s.roomy = true) : Inv (s.push grow) where
  defined := by
    simp only [State.roomy, Bool.or_eq_true, Bool.not_eq_true', Option.isNone_iff_eq_none] at hroomy
    show (s.loop.isSome && s.jobs.full) = false
    cases hroomy with
    | inl hnone => rw [hnone]; rfl
    | inr hroom => rw [hroom, Bool.and_false]
  order := by
    show s.started ++ (s.jobs.items ++ [s.pushed]).drop s.position = List.range (s.pushed + 1)
    rw [List.drop_append_of_le_length h.within, ← List.append_assoc, List.range_succ, ← h.order]
    rfl
  within := by
    show s.position ≤ (s.jobs.items ++ [s.pushed]).length
    rw [List.length_append]
    exact Nat.le_add_right_of_le h.within
  behind := by
    intro j hj
    have hj : j ∈ (s.jobs.items ++ [s.pushed]).take s.position := hj
    rw [List.take_append_of_le_length h.within] at hj
    exact h.behind j hj
  stopped_pos := h.stopped_pos
  inside_lt := by
    intro j hj
    show j < s.pushed + 1
    -- A job pushed during `work()` is one of those inside.
    have hj : j ∈ if s.loop.isSome then s.inside ++ [s.pushed] else s.inside := hj
    split at hj
    · rcases List.mem_append.mp hj with hold | hnew
      · exact Nat.lt_succ_of_lt (h.inside_lt j hold)
      · rw [List.mem_singleton.mp hnew]
        exact Nat.lt_succ_self _
    · exact Nat.lt_succ_of_lt (h.inside_lt j hj)
  looping := by
    intro l hl
    obtain ⟨hstopped, hposition, hlast⟩ := h.looping l hl
    refine ⟨hstopped, hposition, ?_⟩
    show l.last ≤ (s.jobs.items ++ [s.pushed]).length
    rw [List.length_append]
    exact Nat.le_add_right_of_le hlast
  late := by
    intro l hl j hj
    -- Behind the end iterator there are only jobs that came during `work()`.
    have hloop : s.loop.isSome = true := by
      have hl : s.loop = some l := hl
      rw [hl]
      rfl
    have hj : j ∈ (s.jobs.items ++ [s.pushed]).drop l.last := hj
    rw [List.drop_append_of_le_length (h.looping l hl).2.2] at hj
    show j ∈ if s.loop.isSome then s.inside ++ [s.pushed] else s.inside
    rw [if_pos hloop, List.mem_append]
    exact (List.mem_append.mp hj).imp_left (h.late l hl j)

end

/-- `work()` begins with the first job that waits. -/
theorem Inv.enter {s : State} (h : Inv s) (hloop : s.loop = none) (hstopped : s.stopped = none) :
    Inv { s with loop := some ⟨0, s.jobs.items.length, false, s.calls.length⟩ } where
  defined := h.defined
  order := by
    have hposition : s.position = 0 := by
      rw [State.position, hloop, hstopped]
      rfl
    have horder := h.order
    rw [State.waiting, hposition] at horder
    exact horder
  within := Nat.zero_le _
  behind _ hj := nomatch hj
  inside_lt := h.inside_lt
  stopped_pos := h.stopped_pos
  looping := by
    intro l hl
    obtain rfl := Option.some.inj hl
    exact ⟨hstopped, Nat.zero_le _, Nat.le_refl _⟩
  late := by
    intro l hl j hj
    obtain rfl := Option.some.inj hl
    have hj : j ∈ s.jobs.items.drop s.jobs.items.length := hj
    rw [List.drop_length] at hj
    cases hj

section
variable {s : State} {next last depth : Nat}

/-- The next job is the first that waits. -/
theorem Inv.start (h : Inv s) (hloop : s.loop = some ⟨next, last, false, depth⟩)
    (hlt : next < last) {j : Nat} (hj : s.jobs.items[next]? = some j) :
    Inv { s with loop := some ⟨next, last, true, depth⟩, started := s.started ++ [j] } := by
  have hposition : s.position = next := by
    rw [State.position, hloop]
    rfl
  obtain ⟨hbound, hget⟩ := List.getElem?_eq_some_iff.mp hj
  have horder := h.order
  have hbehind := h.behind
  -- The first waiting job moves over to those that were started.
  rw [State.waiting, hposition, List.drop_eq_getElem_cons hbound, hget, List.append_cons] at horder
  rw [hposition] at hbehind
  exact
    { defined := h.defined
      order := horder
      within := hbound
      behind := by
        intro i hi
        have hi : i ∈ s.jobs.items.take (next + 1) := hi
        rw [List.take_succ_eq_append_getElem hbound, hget] at hi
        exact List.mem_append.mpr ((List.mem_append.mp hi).imp_left (hbehind i))
      inside_lt := h.inside_lt
      stopped_pos := h.stopped_pos
      looping := by
        intro l hl
        obtain rfl := Option.some.inj hl
        obtain ⟨hstopped, -, hlast⟩ := h.looping _ hloop
        exact ⟨hstopped, hlt, hlast⟩
      late := by
        intro l hl
        obtain rfl := Option.some.inj hl
        exact h.late ⟨next, last, false, depth⟩ hloop }

/-- A job that returns stays started. -/
theorem Inv.finish (h : Inv s) (hloop : s.loop = some ⟨next, last, true, depth⟩) :
    Inv { s with loop := some ⟨next + 1, last, false, depth⟩ } := by
  have hposition : s.position = next + 1 := by
    rw [State.position, hloop]
    rfl
  have horder := h.order
  have hwithin := h.within
  have hbehind := h.behind
  have hlooping := h.looping _ hloop
  rw [State.waiting, hposition] at horder
  rw [hposition] at hwithin hbehind hlooping
  refine ⟨h.defined, horder, hwithin, hbehind, h.inside_lt, h.stopped_pos, ?_, ?_⟩
  · intro l hl
    obtain rfl := Option.some.inj hl
    exact hlooping
  · intro l hl
    obtain rfl := Option.some.inj hl
    exact h.late ⟨next, last, true, depth⟩ hloop

/-- A job that throws is started too, and stays in the vector. -/
theorem Inv.throw (h : Inv s) (hloop : s.loop = some ⟨next, last, true, depth⟩)
    (calls : List (List Listener)) :
    Inv { s with loop := none, calls := calls, stopped := some (next + 1) } := by
  have hposition : s.position = next + 1 := by
    rw [State.position, hloop]
    rfl
  have horder := h.order
  have hwithin := h.within
  have hbehind := h.behind
  rw [State.waiting, hposition] at horder
  rw [hposition] at hwithin hbehind
  refine ⟨h.defined, horder, hwithin, hbehind, h.inside_lt, ?_, nofun, nofun⟩
  intro k hk
  obtain rfl := Option.some.inj hk
  exact Nat.succ_pos next

/-- Behind the last job nothing waits, if nothing was pushed. -/
theorem Inv.leave (h : Inv s) (hloop : s.loop = some ⟨next, last, false, depth⟩)
    (hdone : ¬ next < last) (hsame : last = s.jobs.items.length) :
    Inv { s with loop := none, jobs := s.jobs.clear, stopped := none } where
  defined := h.defined
  order := by
    have hposition : s.position = next := by
      rw [State.position, hloop]
      rfl
    have horder := h.order
    have hwaiting : s.waiting = [] := by
      rw [State.waiting, hposition]
      exact List.drop_eq_nil_of_le (by omega)
    rw [hwaiting] at horder
    exact horder
  within := Nat.le_refl 0
  behind _ hj := nomatch hj
  inside_lt := h.inside_lt
  stopped_pos _ hk := nomatch hk
  looping _ hl := nomatch hl
  late _ hl := nomatch hl

end

section
variable {E : Type} {grow : Nat → Nat} {listeners : E → List Listener}

/-- A careful step keeps the order. -/
theorem inv_step {s s' : State} {a : Event E} (hcareful : s.careful a = true)
    (hstep : step grow listeners s a = some s') (h : Inv s) : Inv s' := by
  have hdefined : ¬ s.undefined = true := by
    rw [h.defined]
    exact Bool.false_ne_true
  unfold step at hstep
  rw [if_neg hdefined] at hstep
  cases a with
  | push =>
    simp only [Option.ite_none_right_eq_some, Option.some.injEq] at hstep
    obtain ⟨-, rfl⟩ := hstep
    exact h.push hcareful
  | dispatch e =>
    simp only [Option.ite_none_right_eq_some, Option.some.injEq] at hstep
    obtain ⟨-, rfl⟩ := hstep
    exact h.with_calls _
  | call =>
    simp only at hstep
    split at hstep
    · rename_i ls calls hcalls
      simp only [Option.ite_none_right_eq_some, Option.some.injEq] at hstep
      obtain ⟨-, rfl⟩ := hstep
      simp only [State.careful, hcalls] at hcareful
      -- A queued listener: the call ends, and its job is pushed.
      exact (h.with_calls _).push hcareful
    · simp only [Option.ite_none_right_eq_some, Option.some.injEq] at hstep
      obtain ⟨-, rfl⟩ := hstep
      exact h.with_calls _
    · cases hstep
  | endDispatch =>
    simp only at hstep
    split at hstep
    · simp only [Option.ite_none_right_eq_some, Option.some.injEq] at hstep
      obtain ⟨-, rfl⟩ := hstep
      exact h.with_calls _
    · cases hstep
  | work =>
    simp only at hstep
    split at hstep
    · rename_i hloop
      obtain rfl := Option.some.inj hstep
      exact h.enter hloop (Option.isNone_iff_eq_none.mp hcareful)
    · cases hstep
  | start =>
    simp only at hstep
    split at hstep
    · rename_i next last depth hloop
      simp only [Option.ite_none_right_eq_some, Option.map_eq_some_iff] at hstep
      obtain ⟨hlt, j, hj, rfl⟩ := hstep
      exact h.start hloop hlt hj
    · cases hstep
  | finish =>
    simp only at hstep
    split at hstep
    · rename_i next last depth hloop
      simp only [Option.ite_none_right_eq_some, Option.some.injEq] at hstep
      obtain ⟨-, rfl⟩ := hstep
      exact h.finish hloop
    · cases hstep
  | throw =>
    simp only at hstep
    split at hstep
    · rename_i next last depth hloop
      obtain rfl := Option.some.inj hstep
      exact h.throw hloop _
    · cases hstep
  | leave =>
    simp only at hstep
    split at hstep
    · rename_i next last depth hloop
      simp only [Option.ite_none_left_eq_some, Option.some.injEq] at hstep
      -- Behind the last job the vector is cleared.
      obtain ⟨hdone, rfl⟩ := hstep
      simp only [State.careful, hloop, decide_eq_true_eq] at hcareful
      exact h.leave hloop hdone hcareful
    · cases hstep

/-- The steps of a queue. -/
abbrev QueueStep (grow : Nat → Nat) (listeners : E → List Listener) :
    State → Event E → State → Prop := Steps (step grow listeners)

/-- The careful ones. -/
abbrev CarefulStep (grow : Nat → Nat) (listeners : E → List Listener) :
    State → Event E → State → Prop :=
  Guarded (fun s a => s.careful a = true) (QueueStep grow listeners)

/-- The order is kept over a careful run. -/
theorem inv_of_careful {s : State} {as : List (Event E)}
    (h : Trace (CarefulStep grow listeners) .initial as s) : Inv s :=
  h.invariant (fun _ _ _ hinv hstep => inv_step hstep.1 hstep.2 hinv) inv_initial

/-- **Each job once and none lost, in a careful run.** For every sequence of pushes, dispatches and
calls of `work()`, whatever the jobs push, dispatch or throw: if no push finds the vector full while
`work()` is running, no `work()` returns after a job was pushed in it, and `work()` is not called
again after an exception left it, then no job is started twice, and a job that was pushed while
`work()` was running is started or waits in the queue. -/
theorem lawful_of_careful (grow : Nat → Nat) (listeners : E → List Listener)
    (as : List (Event E)) (s : State)
    (h : Trace (CarefulStep grow listeners) .initial as s) : Lawful s :=
  (inv_of_careful h).lawful

/-- Two jobs wait. The first throws, and what is pushed behind it waits too. -/
theorem lawful_of_careful_applies :
    ∃ s, Trace (CarefulStep (2 * ·) fun _ : Unit => [.queued]) .initial
        [.push, .push, .work, .start, .throw, .dispatch (), .call, .endDispatch] s ∧
      s.stopped = some 1 ∧ Lawful s := by
  have h : (run (guard (fun s a => s.careful a = true)
      (step (2 * ·) fun _ : Unit => [.queued])) .initial
      [.push, .push, .work, .start, .throw, .dispatch (), .call, .endDispatch]).any
      (fun s => s.stopped = some 1) = true := by
    decide
  obtain ⟨s, hs, hstopped⟩ := Option.any_eq_true _ _ |>.mp h
  have hcareful := trace_of_run_guard hs
  exact ⟨s, hcareful, of_decide_eq_true hstopped, lawful_of_careful _ _ _ _ hcareful⟩

/-- A push into a full vector takes the storage from the loop. -/
theorem undefined_of_push {s : State} (h : s.roomy = false) : ¬ Lawful (s.push grow) := by
  intro hlawful
  have hundefined : (s.loop.isSome && s.jobs.full) = false := hlawful.defined
  rw [State.roomy, Bool.or_eq_false_iff, Bool.not_eq_false'] at h
  cases hloop : s.loop with
  | none =>
    rw [hloop] at h
    cases h.1
  | some l =>
    rw [hloop, h.2] at hundefined
    cases hundefined

/-- `work()` begins again with a job that an earlier `work()` started. -/
theorem start_again {s s' : State} (h : Inv s)
    (hcareless : s.careful (Event.work : Event E) = false)
    (hstep : step grow listeners s .work = some s') :
    ∃ s'', step grow listeners s' .start = some s'' ∧ ¬ Lawful s'' := by
  have hstopped : ∃ k, s.stopped = some k := by
    cases hstopped : s.stopped with
    | none =>
      have hcareless : s.stopped.isNone = false := hcareless
      rw [hstopped] at hcareless
      cases hcareless
    | some k => exact ⟨k, rfl⟩
  obtain ⟨k, hstopped⟩ := hstopped
  simp only [step, h.defined, Bool.false_eq_true, if_false] at hstep
  split at hstep
  · rename_i hloop
    obtain rfl := Option.some.inj hstep
    have hposition : s.position = k := by
      rw [State.position, hloop, hstopped]
      rfl
    have hpos := h.stopped_pos k hstopped
    have hwithin := h.within
    have hbehind := h.behind
    rw [hposition] at hwithin hbehind
    -- The vector still begins with a job that was started.
    cases hitems : s.jobs.items with
    | nil =>
      rw [hitems, List.length_nil] at hwithin
      omega
    | cons j items =>
      have hstarted : j ∈ s.started := by
        refine hbehind j ?_
        rw [hitems]
        exact List.mem_take_iff_getElem.mpr ⟨0, by simp; omega, rfl⟩
      refine ⟨{ s with
          loop := some ⟨0, s.jobs.items.length, true, s.calls.length⟩
          undefined := false
          started := s.started ++ [j] }, ?_, ?_⟩
      · simp only [step, Bool.false_eq_true, if_false, hitems, List.length_cons, Nat.zero_lt_succ,
          if_true, List.getElem?_cons_zero, Option.map_some]
      · intro hlawful
        have hnodup : (s.started ++ [j]).Nodup := hlawful.once
        exact (List.nodup_append.mp hnodup).2.2 j hstarted j (List.mem_singleton.mpr rfl) rfl
  · cases hstep

/-- What was pushed in `work()` is cleared with the rest. -/
theorem lost_of_leave {s s' : State} (h : Inv s)
    (hcareless : s.careful (Event.leave : Event E) = false)
    (hstep : step grow listeners s .leave = some s') : ¬ Lawful s' := by
  simp only [step, h.defined, Bool.false_eq_true, if_false] at hstep
  split at hstep
  · rename_i next last depth hloop
    simp only [Option.ite_none_left_eq_some, Option.some.injEq] at hstep
    obtain ⟨hdone, rfl⟩ := hstep
    simp only [State.careful, hloop, decide_eq_false_iff_not] at hcareless
    have hposition : s.position = next := by
      rw [State.position, hloop]
      rfl
    obtain ⟨-, hle, hlast⟩ := h.looping _ hloop
    rw [hposition] at hle
    have hle : next ≤ last := hle
    have hlast : last ≤ s.jobs.items.length := hlast
    have hbound : last < s.jobs.items.length := by omega
    have hnext : next = last := by omega
    -- The first job that the loop did not come to.
    intro hlawful
    have hlate : s.jobs.items[last] ∈ s.jobs.items.drop last := by
      rw [List.drop_eq_getElem_cons hbound]
      exact List.mem_cons_self
    have hinside := h.late _ hloop _ hlate
    cases hlawful.kept rfl _ hinside with
    | inl hstarted =>
      have hnodup : (s.started ++ s.waiting).Nodup := by
        rw [h.order]
        exact List.nodup_range
      rw [State.waiting, hposition, hnext] at hnodup
      exact (List.nodup_append.mp hnodup).2.2 _ hstarted _ hlate rfl
    | inr hitem => cases hitem
  · cases hstep

/-- **A step that is not careful breaks the law**, at once or when the next job is started. -/
theorem careless_unlawful {s s' : State} {a : Event E} (h : Inv s)
    (hcareless : s.careful a = false) (hstep : step grow listeners s a = some s') :
    ¬ Lawful s' ∨ ∃ s'', step grow listeners s' .start = some s'' ∧ ¬ Lawful s'' := by
  cases a with
  | push =>
    simp only [step, h.defined, Bool.false_eq_true, if_false, Option.ite_none_right_eq_some,
      Option.some.injEq] at hstep
    obtain ⟨-, rfl⟩ := hstep
    exact .inl (undefined_of_push hcareless)
  | call =>
    simp only [State.careful] at hcareless
    split at hcareless
    · rename_i ls calls hcalls
      have hroomy : ({ s with calls := ls :: calls } : State).roomy = false := hcareless
      unfold step at hstep
      simp only [h.defined, Bool.false_eq_true, if_false, hcalls, Option.ite_none_right_eq_some,
        Option.some.injEq] at hstep
      obtain ⟨-, rfl⟩ := hstep
      exact .inl (undefined_of_push hroomy)
    · cases hcareless
  | work => exact .inr (start_again h hcareless hstep)
  | leave => exact .inl (lost_of_leave h hcareless hstep)
  | _ => cases hcareless

end

/-- A job of three dispatches an event with a queued listener, and `work()` discards what this
pushed. A job throws, and the next `work()` starts it again. -/
theorem discarded_and_restarted :
    (∃ s, Trace (QueueStep (2 * ·) fun _ : Unit => [.queued]) .initial
        [.push, .push, .push, .work, .start, .dispatch (), .call, .endDispatch, .finish, .start,
          .finish, .start, .finish, .leave] s ∧
      s.undefined = false ∧ s.loop = none ∧ 3 ∈ s.inside ∧ 3 ∉ s.started ∧ 3 ∉ s.jobs.items ∧
      ¬ Lawful s) ∧
    ∃ s, Trace (QueueStep (2 * ·) fun _ : Unit => [.queued]) .initial
        [.push, .work, .start, .throw, .work, .start] s ∧
      s.undefined = false ∧ s.started = [0, 0] ∧ ¬ Lawful s := by
  constructor
  · have h : (run (step (2 * ·) fun _ : Unit => [.queued]) .initial
        [.push, .push, .push, .work, .start, .dispatch (), .call, .endDispatch, .finish, .start,
          .finish, .start, .finish, .leave]).any
        (fun s => s.undefined = false ∧ s.loop.isNone ∧ 3 ∈ s.inside ∧ 3 ∉ s.started ∧
          3 ∉ s.jobs.items) = true := by
      decide
    obtain ⟨s, hs, hlost⟩ := Option.any_eq_true _ _ |>.mp h
    obtain ⟨hdefined, hloop, hinside, hstarted, hitems⟩ := of_decide_eq_true hlost
    have hloop : s.loop = none := Option.isNone_iff_eq_none.mp hloop
    refine ⟨s, trace_iff_run.mpr hs, hdefined, hloop, hinside, hstarted, hitems, ?_⟩
    intro hlawful
    cases hlawful.kept hloop 3 hinside with
    | inl h => exact hstarted h
    | inr h => exact hitems h
  · have h : (run (step (2 * ·) fun _ : Unit => [.queued]) .initial
        [.push, .work, .start, .throw, .work, .start]).any
        (fun s => s.undefined = false ∧ s.started = [0, 0]) = true := by
      decide
    obtain ⟨s, hs, hstarted⟩ := Option.any_eq_true _ _ |>.mp h
    obtain ⟨hdefined, hstarted⟩ := of_decide_eq_true hstarted
    refine ⟨s, trace_iff_run.mpr hs, hdefined, hstarted, ?_⟩
    intro hlawful
    have honce := hlawful.once
    rw [hstarted] at honce
    cases honce with
    | cons hne _ => exact hne 0 (List.mem_singleton.mpr rfl) rfl

end CppLaravel.ArrayQueue
