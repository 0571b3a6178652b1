import CppLaravel.Proofs.Queue.Terminal

/-!
# `CppLaravel.Proofs.Queue.Retry`: attempts and backoff under stale snapshots

A worker claims a job with the row it copied at the start of its pass. `update_if` compares
`reserved_at` only, and a requeued job is unclaimed again, so a claim can succeed although
the job has failed since the copy was made: the stale row then overwrites the attempts
counter and the backoff. A claim is *fresh* (`FreshClaim`) when the stored row is still the
copied one and nobody holds the job.

* `retries_of_fresh_claims`: in every run whose claims are fresh, a job's handler is started
  at most `max_attempts` times, the stored counter never decreases, and a job whose `k`-th
  run failed at the time `t` is not started again before `t + retry_backoff * k`.
* `stale_claim_resets_attempts`: two workers and one stale claim break all three.

Times are those `work()` is given: a start and a failure happen at the `now` of their pass.
Without a backoff there is no time to wait for, and the failed job is due at once.

`Disciplined` is the invariant behind the first result. For a job that nobody holds it ties
the stored counter to the history (`Waiting`), for a held job the counter that its holder
read (`Held`).
-/

set_option autoImplicit false

namespace CppLaravel.Queue

open CppLaravel.Lib
open CppLaravel.Database

variable {W : Type}

/-! ### The history of a job -/

/-- The job whose handler an event starts. -/
def Event.starts? : Event W → Option Int
  | .started _ id _ _ => some id
  | _ => none

/-- How often the handler of the job `id` was started. -/
def starts (id : Int) (log : List (Event W)) : Nat := log.countP fun e => e.starts? = some id

/-- The failed runs of the job `id`: the time of the pass and the number of the failure, the
last one first. -/
def failures (id : Int) : List (Event W) → List (Int × Nat)
  | [] => []
  | .failed _ id' t :: log =>
    if id' = id then (t, (failures id log).length + 1) :: failures id log else failures id log
  | _ :: log => failures id log

/-- Every start comes `backoff * k` seconds after the `k`-th failure of its job, for every
earlier failure, when there is a backoff. -/
def Spaced (backoff : Int) : List (Event W) → Prop
  | [] => True
  | .started _ id now _ :: log =>
    (∀ f ∈ failures id log, 0 < backoff → f.1 + backoff * f.2 ≤ now) ∧ Spaced backoff log
  | _ :: log => Spaced backoff log

instance (backoff : Int) : (log : List (Event W)) → Decidable (Spaced backoff log)
  | [] => isTrue trivial
  | .started _ id _ _ :: log =>
    have := instDecidableSpaced backoff log
    inferInstanceAs (Decidable ((∀ f ∈ failures id log, _) ∧ Spaced backoff log))
  | .pushed _ :: log | .failed _ _ _ :: log | .completed _ _ :: log | .dropped _ _ :: log
  | .buried _ _ :: log | .returned _ _ :: log => instDecidableSpaced backoff log

instance (s : State W) (w : W) (id : Int) : Decidable (HoldsClaim s w id) :=
  inferInstanceAs (Decidable (∃ c ∈ (s.phase w).claim?, _))

/-- A claim that succeeds finds the row exactly as it was copied, and nobody holding the
job. -/
def FreshClaim (q : W → DbQueue) (s : State W) (a : Action W) : Prop :=
  ∀ w ∈ a.look?, ∀ n ∈ (s.phase w).next?, ∀ id ∈ n.2.getInt (bytes "id"),
    ∀ stored ∈ storedRow s id,
      due (q w) n.1.now (columnOrZero n.2 (bytes "available_at"))
        (columnOrZero n.2 (bytes "reserved_at")) →
      stored.get? (bytes "reserved_at")
        = some (.int (columnOrZero n.2 (bytes "reserved_at"))) →
      stored = n.2 ∧ ∀ w', ¬ HoldsClaim s w' id

instance [Fintype W] (q : W → DbQueue) (s : State W) (a : Action W) :
    Decidable (FreshClaim q s a) :=
  inferInstanceAs (Decidable (∀ w ∈ a.look?, ∀ n ∈ (s.phase w).next?,
    ∀ id ∈ n.2.getInt (bytes "id"), ∀ stored ∈ storedRow s id, _))

theorem starts_cons (id : Int) (e : Event W) (log : List (Event W)) :
    starts id (e :: log) = starts id log + if e.starts? = some id then 1 else 0 := by
  simp [starts, List.countP_cons]

/-! ### The invariant -/

/-- The handler of the claimed row was started. -/
def Point.ran : Point → Int
  | .claimed => 0
  | .dropping => 0
  | _ => 1

/-- The handler of the claimed row failed. -/
def Point.lost : Point → Int
  | .failed _ => 1
  | .buried => 1
  | _ => 0

/-- A job that nobody holds: its counter is the number of its failures, it has an attempt
left, and `available_at` keeps the backoff of each failure. -/
structure Waiting (M B : Int) (s : JobState W) (id : Int) (j : Job) : Prop where
  below : j.attempts + 1 ≤ M
  started : (starts id s.log : Int) ≤ j.attempts
  failed : ((failures id s.log).length : Int) = j.attempts
  spaced : ∀ f ∈ failures id s.log, 0 < B → f.1 + B * f.2 ≤ j.availableAt

/-- A held job: its counter is the number of failures before the present run, and each of
them lies its backoff behind the pass. -/
structure Held (M B : Int) (s : JobState W) (p : Pass Job) (j : Job) (pt : Point) : Prop where
  below : j.attempts + 1 ≤ M
  started : (starts j.id s.log : Int) ≤ j.attempts + pt.ran
  failed : ((failures j.id s.log).length : Int) = j.attempts + pt.lost
  spaced : ∀ f ∈ failures j.id s.log, 0 < B → f.1 + B * f.2 ≤ p.now ∨
    (pt.lost = 1 ∧ f.1 = p.now ∧ (f.2 : Int) = j.attempts + 1)

/-- Nobody holds the job `id`. -/
def Unheld (s : JobState W) (id : Int) : Prop :=
  ∀ w p j pt, s.phase w = .holding p j pt → j.id ≠ id

/-- The retry invariant, for `max_attempts = M` and `retry_backoff = B`. -/
structure Disciplined (M B : Int) (s : JobState W) : Prop where
  bound : ∀ id, (starts id s.log : Int) ≤ M
  waiting : ∀ id j, s.jobAt id = some j → Unheld s id → Waiting M B s id j
  held : ∀ w p j pt, s.phase w = .holding p j pt → Held M B s p j pt
  unseen : ∀ id, s.nextId < id → starts id s.log = 0 ∧ failures id s.log = []
  spaced : Spaced B s.log

/-- A job whose history and row are as before waits as before. -/
theorem Waiting.congr {M B : Int} {s s' : JobState W} {id : Int} {j : Job}
    (h : Waiting M B s id j) (hstarts : starts id s'.log = starts id s.log)
    (hfails : failures id s'.log = failures id s.log) : Waiting M B s' id j where
  below := h.below
  started := by rw [hstarts]; exact h.started
  failed := by rw [hfails]; exact h.failed
  spaced := by rw [hfails]; exact h.spaced

/-- A held job whose history is as before is held as before, also at another point of the
loop body that says the same of the present run. -/
theorem Held.congr {M B : Int} {s s' : JobState W} {p : Pass Job} {j : Job} {pt pt' : Point}
    (h : Held M B s p j pt) (hran : pt'.ran = pt.ran) (hlost : pt'.lost = pt.lost)
    (hstarts : starts j.id s'.log = starts j.id s.log)
    (hfails : failures j.id s'.log = failures j.id s.log) : Held M B s' p j pt' where
  below := h.below
  started := by rw [hstarts, hran]; exact h.started
  failed := by rw [hfails, hlost]; exact h.failed
  spaced := by rw [hfails, hlost]; exact h.spaced

namespace Disciplined

variable {M B : Int}

theorem init (hM : 0 ≤ M) (clock : Int) : Disciplined M B (JobState.init clock : JobState W) where
  bound id := by simpa [JobState.init, starts] using hM
  waiting id j h := by simp [JobState.init, JobState.jobAt] at h
  held w p j pt h := by simp [JobState.init] at h
  unseen id _ := ⟨rfl, rfl⟩
  spaced := trivial

/-- A step that touches no job and no claim keeps the invariant. -/
theorem frame {s s' : JobState W} (h : Disciplined M B s) (hjobs : s'.jobs = s.jobs)
    (hstarts : ∀ id, starts id s'.log = starts id s.log)
    (hfails : ∀ id, failures id s'.log = failures id s.log)
    (hnext : s'.nextId = s.nextId)
    (hspaced : Spaced B s.log → Spaced B s'.log)
    (hphase : ∀ w p j pt, s'.phase w = .holding p j pt ↔ s.phase w = .holding p j pt) :
    Disciplined M B s' where
  bound id := by rw [hstarts]; exact h.bound id
  waiting id j hj hfree := by
    have hj : s.jobAt id = some j := by rw [← hj, JobState.jobAt, JobState.jobAt, hjobs]
    refine (h.waiting id j hj fun w p j' pt hw => ?_).congr (hstarts id) (hfails id)
    exact hfree w p j' pt ((hphase w p j' pt).mpr hw)
  held w p j pt hw :=
    (h.held w p j pt ((hphase w p j pt).mp hw)).congr rfl rfl (hstarts _) (hfails _)
  unseen id hid := by
    rw [hstarts, hfails]
    exact h.unseen id (hnext ▸ hid)
  spaced := hspaced h.spaced

/-- A worker goes on with the job it holds: only the history of that job may grow. -/
theorem advance {s s' : JobState W} {w : W} {p : Pass Job} {j : Job} {pt pt' : Point}
    (h : Disciplined M B s) (hex : Exclusive s) (hk : Known s)
    (hw : s.phase w = .holding p j pt) (hw' : s'.phase w = .holding p j pt')
    (hphase : ∀ w', w' ≠ w → s'.phase w' = s.phase w')
    (hjobs : s'.jobs = s.jobs) (hnext : s'.nextId = s.nextId)
    (hstarts : ∀ id, id ≠ j.id → starts id s'.log = starts id s.log)
    (hfails : ∀ id, id ≠ j.id → failures id s'.log = failures id s.log)
    (hheld : Held M B s' p j pt') (hbound : (starts j.id s'.log : Int) ≤ M)
    (hspaced : Spaced B s'.log) : Disciplined M B s' where
  bound id := by
    by_cases hid : id = j.id
    · rw [hid]
      exact hbound
    · rw [hstarts id hid]
      exact h.bound id
  waiting id j' hj' hfree := by
    -- The job at hand is held, so the one that waits is another.
    have hid : id ≠ j.id := fun hid => hfree w p j pt' hw' hid.symm
    have hj' : s.jobAt id = some j' := by rw [← hj', JobState.jobAt, JobState.jobAt, hjobs]
    refine (h.waiting id j' hj' fun w₁ p₁ j₁ pt₁ h₁ => ?_).congr (hstarts id hid) (hfails id hid)
    by_cases hne : w₁ = w
    · subst hne
      rw [hw] at h₁
      cases h₁
      exact hid.symm
    · exact hfree w₁ p₁ j₁ pt₁ ((hphase w₁ hne).trans h₁)
  held w₁ p₁ j₁ pt₁ h₁ := by
    by_cases hne : w₁ = w
    · subst hne
      rw [hw'] at h₁
      cases h₁
      exact hheld
    · rw [hphase w₁ hne] at h₁
      have hid : j₁.id ≠ j.id := fun hid => hne (hex.unique w₁ w p₁ p j₁ j pt₁ pt h₁ hw hid)
      exact (h.held w₁ p₁ j₁ pt₁ h₁).congr rfl rfl (hstarts _ hid) (hfails _ hid)
  unseen id hid := by
    have hle := hk j.id (by rw [hex.stored w p j pt hw]; rfl)
    have hne : id ≠ j.id := by omega
    rw [hstarts id hne, hfails id hne]
    exact h.unseen id (hnext ▸ hid)
  spaced := hspaced

/-- A worker lets go of its job: the row is gone, or waits. -/
theorem letGo {s s' : JobState W} {w : W} {p : Pass Job} {j : Job} {pt : Point}
    (h : Disciplined M B s) (hw : s.phase w = .holding p j pt)
    (hfree : (s'.phase w).claim? = none)
    (hphase : ∀ w', w' ≠ w → s'.phase w' = s.phase w')
    (hother : ∀ id, id ≠ j.id → s'.jobAt id = s.jobAt id)
    (hself : ∀ j', s'.jobAt j.id = some j' → Waiting M B s' j.id j')
    (hnext : s'.nextId = s.nextId)
    (hstarts : ∀ id, starts id s'.log = starts id s.log)
    (hfails : ∀ id, failures id s'.log = failures id s.log)
    (hspaced : Spaced B s.log → Spaced B s'.log) : Disciplined M B s' where
  bound id := by rw [hstarts]; exact h.bound id
  waiting id j' hj' hun := by
    -- The job itself waits now; no worker took hold of any other.
    by_cases hid : id = j.id
    · subst hid
      exact hself j' hj'
    · rw [hother id hid] at hj'
      refine (h.waiting id j' hj' fun w₁ p₁ j₁ pt₁ h₁ => ?_).congr (hstarts id) (hfails id)
      by_cases hne : w₁ = w
      · subst hne
        rw [hw] at h₁
        cases h₁
        exact fun heq => hid heq.symm
      · exact hun w₁ p₁ j₁ pt₁ ((hphase w₁ hne).trans h₁)
  held w₁ p₁ j₁ pt₁ h₁ := by
    have hne : w₁ ≠ w := by
      rintro rfl
      rw [h₁] at hfree
      cases hfree
    rw [hphase w₁ hne] at h₁
    exact (h.held w₁ p₁ j₁ pt₁ h₁).congr rfl rfl (hstarts _) (hfails _)
  unseen id hid := by
    rw [hstarts, hfails]
    exact h.unseen id (hnext ▸ hid)
  spaced := hspaced h.spaced

end Disciplined

/-! ### Every step keeps it -/

/-- A claim that succeeds finds the record as it was copied, and nobody holding the job. -/
def JobFresh (q : W → DbQueue) (s : JobState W) (a : Action W) : Prop :=
  ∀ w p j stored, a = .look w → (s.phase w).next? = some (p, j) →
    due (q w) p.now j.availableAt j.reservedAt → s.jobAt j.id = some stored →
    stored.reservedAt = j.reservedAt → stored = j ∧ Unheld s j.id

theorem JobFresh.noSteal {q : W → DbQueue} {s : JobState W} {a : Action W}
    (h : JobFresh q s a) : NoSteal q s a :=
  fun w p j stored ha hnext hdue hstored hguard =>
    (h w p j stored ha hnext hdue hstored hguard).2

variable [DecidableEq W] {q : W → DbQueue} {M B : Int}

/-- A worker that holds no job before and after a step of its own leaves the set of holders
alone. -/
theorem holding_goto_iff {s : JobState W} {w : W} {ph : Phase Job}
    (hold : (s.phase w).claim? = none) (hnew : ph.claim? = none)
    (w' : W) (p : Pass Job) (j : Job) (pt : Point) :
    (s.goto w ph).phase w' = .holding p j pt ↔ s.phase w' = .holding p j pt := by
  rw [JobState.phase_goto]
  by_cases hw : w' = w
  · subst hw
    rw [if_pos rfl]
    constructor
    · rintro rfl
      cases hnew
    · intro h
      rw [h] at hold
      cases hold
  · rw [if_neg hw]

namespace Disciplined

open JobState

omit [DecidableEq W] in
/-- A push makes a job without history, which waits with its first attempt left. -/
theorem push {s : JobState W} (h : Disciplined M B s) (hk : Known s) (hM : 1 ≤ M)
    (job payload : Bytes) (delay : Int) :
    Disciplined M B ((s.addJob job payload delay).note (.pushed (s.nextId + 1))) := by
  have hstarts : ∀ id, starts id (.pushed (s.nextId + 1) :: s.log) = starts id s.log :=
    fun id => by simp [starts_cons, Event.starts?]
  constructor
  · exact fun id => by
      show (starts id (.pushed (s.nextId + 1) :: s.log) : Int) ≤ M
      rw [hstarts]
      exact h.bound id
  · intro id j hj hun
    have hj : (s.addJob job payload delay).jobAt id = some j := hj
    rw [jobAt_addJob hk] at hj
    split at hj
    · -- The new job: its id has no history.
      rename_i hid
      obtain ⟨hs, hf⟩ := h.unseen id (by omega)
      cases hj
      exact ⟨by simpa [Job.pushed] using hM,
        by simpa [Job.pushed, note, addJob, hstarts] using hs,
        by simpa [Job.pushed, note, addJob, failures] using hf,
        fun f hm => by simp [note, addJob, failures, hf] at hm⟩
    · exact (h.waiting id j hj hun).congr (hstarts id) rfl
  · exact fun w p j pt hw => (h.held w p j pt hw).congr rfl rfl (hstarts j.id) rfl
  · intro id hid
    have hid : s.nextId + 1 < id := hid
    obtain ⟨hs, hf⟩ := h.unseen id (by omega)
    exact ⟨(hstarts id).trans hs, hf⟩
  · exact h.spaced

/-- A fresh claim takes over a waiting job, which is due: its failures lie their backoff
behind the pass. -/
theorem claim {s : JobState W} (h : Disciplined M B s) {w : W}
    {now : Int} {n : Nat} {j : Job} {rest : List Job}
    (hw : s.phase w = .scanning ⟨now, n, j :: rest⟩)
    (hdue : due (q w) now j.availableAt j.reservedAt)
    (hstored : s.jobAt j.id = some j) (hun : Unheld s j.id) :
    Disciplined M B ((s.withJobs (setKey Job.id j.id (j.claimedAt now) s.jobs)).goto w
      (.holding ⟨now, n, rest⟩ j .claimed)) := by
  have hid : (j.claimedAt now).id = j.id := rfl
  have hwait := h.waiting j.id j hstored hun
  have hother : ∀ w', w' ≠ w → ((s.withJobs (setKey Job.id j.id (j.claimedAt now) s.jobs)).goto w
      (.holding ⟨now, n, rest⟩ j .claimed)).phase w' = s.phase w' := fun w' hne => by
    rw [phase_goto, if_neg hne]
    rfl
  constructor
  · exact h.bound
  · intro id j' hj' hun'
    have hne : id ≠ j.id := fun heq => hun' w _ j .claimed (phase_goto_self _ _ _) heq.symm
    have hj' : getKey Job.id id (setKey Job.id j.id (j.claimedAt now) s.jobs) = some j' := hj'
    rw [getKey_setKey_ne hid hne] at hj'
    refine (h.waiting id j' hj' fun w₁ p₁ j₁ pt₁ h₁ => ?_).congr rfl rfl
    have hw₁ : w₁ ≠ w := by
      rintro rfl
      rw [hw] at h₁
      cases h₁
    exact hun' w₁ p₁ j₁ pt₁ ((hother w₁ hw₁).trans h₁)
  · intro w₁ p₁ j₁ pt₁ h₁
    by_cases hw₁ : w₁ = w
    · subst hw₁
      rw [phase_goto_self] at h₁
      cases h₁
      -- What the waiting row kept passes on to the holder; being due gives the spacing.
      refine ⟨hwait.below, hwait.started.trans (Int.add_zero _).ge,
        hwait.failed.trans (Int.add_zero _).symm, fun f hf hpos => .inl ?_⟩
      exact (hwait.spaced f hf hpos).trans hdue.1
    · rw [hother w₁ hw₁] at h₁
      exact (h.held w₁ p₁ j₁ pt₁ h₁).congr rfl rfl rfl rfl
  · exact h.unseen
  · exact h.spaced

/-- The handler of a claimed job starts: one of its attempts is used. -/
theorem start {s : JobState W} (h : Disciplined M B s) (hex : Exclusive s) (hk : Known s)
    {w : W} {p : Pass Job} {j : Job} (hw : s.phase w = .holding p j .claimed) :
    Disciplined M B ((s.goto w (.holding p j .running)).note (.started w j.id p.now s.clock)) := by
  have hheld := h.held w p j .claimed hw
  have hstarts : ∀ id, starts id (.started w j.id p.now s.clock :: s.log)
      = starts id s.log + if j.id = id then 1 else 0 := fun id => by
    simp [starts_cons, Event.starts?]
  have hself : starts j.id (.started w j.id p.now s.clock :: s.log) = starts j.id s.log + 1 := by
    rw [hstarts, if_pos rfl]
  have hbelow := hheld.below
  have hran := hheld.started
  simp only [Point.ran] at hran
  -- Before this run fails, every failure lies its backoff behind the pass.
  have hspaced : ∀ f ∈ failures j.id s.log, 0 < B → f.1 + B * f.2 ≤ p.now := fun f hf hpos => by
    rcases hheld.spaced f hf hpos with hle | ⟨hlost, -⟩
    · exact hle
    · cases hlost
  have hheld' : Held M B ((s.goto w (.holding p j .running)).note
      (.started w j.id p.now s.clock)) p j .running := by
    refine ⟨hbelow, ?_, hheld.failed, fun f hf hpos => .inl (hspaced f hf hpos)⟩
    show (starts j.id (.started w j.id p.now s.clock :: s.log) : Int) ≤ j.attempts + 1
    omega
  refine h.advance hex hk hw (by exact phase_goto_self s w _)
    (fun w' hne => (phase_goto s w w' _).trans (if_neg hne)) rfl rfl (fun id hid => ?_)
    (fun _ _ => rfl) hheld' ?_ ⟨hspaced, h.spaced⟩
  · exact (hstarts id).trans (by rw [if_neg (Ne.symm hid), Nat.add_zero])
  · show (starts j.id (.started w j.id p.now s.clock :: s.log) : Int) ≤ M
    omega

/-- The handler of a job fails: this failure is the last one, numbered by the attempt. -/
theorem throws {s : JobState W} (h : Disciplined M B s) (hex : Exclusive s) (hk : Known s)
    {w : W} {p : Pass Job} {j : Job} (what : Bytes) (hw : s.phase w = .holding p j .running) :
    Disciplined M B ((s.goto w (.holding p j (.failed what))).note (.failed w j.id p.now)) := by
  have hheld := h.held w p j .running hw
  have hfailed := hheld.failed
  simp only [Point.lost, Int.add_zero] at hfailed
  have hself : failures j.id (.failed w j.id p.now :: s.log)
      = (p.now, (failures j.id s.log).length + 1) :: failures j.id s.log := if_pos rfl
  have hstarts : ∀ id, starts id (.failed w j.id p.now :: s.log) = starts id s.log := fun id => by
    simp [starts_cons, Event.starts?]
  have hlen : ((failures j.id (.failed w j.id p.now :: s.log)).length : Int)
      = j.attempts + 1 := by
    rw [hself, List.length_cons]
    omega
  have hheld' : Held M B ((s.goto w (.holding p j (.failed what))).note
      (.failed w j.id p.now)) p j (.failed what) := by
    refine ⟨hheld.below, ?_, hlen, fun f hf hpos => ?_⟩
    · exact (congrArg Nat.cast (hstarts j.id)).trans_le hheld.started
    · have hf : f ∈ failures j.id (.failed w j.id p.now :: s.log) := hf
      -- The failure of this run, or an earlier one.
      rw [hself, List.mem_cons] at hf
      rcases hf with rfl | hf
      · exact .inr ⟨rfl, rfl, by push_cast; omega⟩
      · rcases hheld.spaced f hf hpos with hle | ⟨hlost, -⟩
        · exact .inl hle
        · cases hlost
  exact h.advance hex hk hw (by exact phase_goto_self s w _)
    (fun w' hne => (phase_goto s w w' _).trans (if_neg hne)) rfl rfl
    (fun id _ => hstarts id) (fun id hid => if_neg (Ne.symm hid)) hheld'
    ((congrArg Nat.cast (hstarts j.id)).trans_le (h.bound j.id)) h.spaced

/-- A requeued job waits: the new `available_at` keeps the backoff of the last failure, and
lies behind that of the earlier ones. -/
theorem requeue {s : JobState W} {w : W} (h : Disciplined M B s)
    (hM : (q w).maxAttempts = M) (hB : (q w).retryBackoff = B) {p : Pass Job} {j : Job}
    {what : Bytes} (hw : s.phase w = .holding p j (.failed what))
    (hmax : j.attempts + 1 < (q w).maxAttempts) :
    Disciplined M B ((s.withJobs (setKey Job.id j.id (j.requeuedAt (q w) p.now) s.jobs)).goto w
      (.scanning p.next)) := by
  have hid : (j.requeuedAt (q w) p.now).id = j.id := rfl
  have hheld := h.held w p j (.failed what) hw
  have hfailed := hheld.failed
  have hattempts : 0 ≤ j.attempts + 1 := by
    simp only [Point.lost] at hfailed
    omega
  have hwait : Waiting M B s j.id (j.requeuedAt (q w) p.now) := by
    refine ⟨?_, hheld.started, hfailed, fun f hf hpos => ?_⟩
    · show j.attempts + 1 + 1 ≤ M
      omega
    · show _ ≤ if 0 < (q w).retryBackoff then _ else _
      rw [hB, if_pos hpos]
      -- An earlier failure lies its backoff behind the pass, the last one happened in it.
      rcases hheld.spaced f hf hpos with hle | ⟨-, ht, hk⟩
      · have hwaits : 0 ≤ B * (j.attempts + 1) := Int.mul_nonneg hpos.le hattempts
        omega
      · rw [ht, hk]
  refine h.letGo hw (by exact congrArg Phase.claim? (phase_goto_self _ w _))
    (fun w' hne => (phase_goto _ w w' _).trans (if_neg hne))
    (fun id hne => getKey_setKey_ne hid hne s.jobs) (fun j' hj' => ?_) rfl (fun _ => rfl)
    (fun _ => rfl) fun h => h
  have hj' : getKey Job.id j.id (setKey Job.id j.id (j.requeuedAt (q w) p.now) s.jobs)
      = some j' := hj'
  rw [getKey_setKey_self hid, Option.map_eq_some_iff] at hj'
  obtain ⟨-, -, rfl⟩ := hj'
  exact hwait.congr rfl rfl

omit [DecidableEq W] in
/-- A removed row waits for nothing. -/
theorem remove {s s' : JobState W} {w : W} (h : Disciplined M B s) {p : Pass Job} {j : Job}
    {pt : Point} (hw : s.phase w = .holding p j pt)
    (hjobs : s'.jobs = eraseKey Job.id j.id s.jobs)
    (hfree : (s'.phase w).claim? = none)
    (hphase : ∀ w', w' ≠ w → s'.phase w' = s.phase w')
    (hnext : s'.nextId = s.nextId)
    (hstarts : ∀ id, starts id s'.log = starts id s.log)
    (hfails : ∀ id, failures id s'.log = failures id s.log)
    (hspaced : Spaced B s.log → Spaced B s'.log) : Disciplined M B s' := by
  refine h.letGo hw hfree hphase (fun id hne => ?_) (fun j' hj' => ?_) hnext hstarts
    hfails hspaced
  · rw [jobAt, hjobs, getKey_eraseKey_ne hne]
    rfl
  · rw [jobAt, hjobs, getKey_eraseKey_self] at hj'
    cases hj'

end Disciplined

open JobState in
/-- Every step but a crash keeps the retry invariant, when claims are fresh. -/
theorem disciplined_step {s s' : JobState W} {a : Action W} (hM : ∀ w, (q w).maxAttempts = M)
    (hB : ∀ w, (q w).retryBackoff = B) (hM1 : 1 ≤ M) (h : Disciplined M B s)
    (hex : Exclusive s) (hk : Known s) (hcrash : NoCrash a)
    (hfresh : JobFresh q s a) (hstep : JobStep q s a s') : Disciplined M B s' := by
  have hother : ∀ {s : JobState W} {w : W} {ph : Phase Job}, ∀ w', w' ≠ w →
      (s.goto w ph).phase w' = s.phase w' := fun w' hne => by rw [phase_goto, if_neg hne]
  cases hstep with
  | tick n =>
    exact h.frame rfl (fun _ => rfl) (fun _ => rfl) rfl (fun h => h) fun _ _ _ _ => Iff.rfl
  | push job payload delay => exact h.push hk hM1 job payload delay
  | enter arg hw =>
    exact h.frame rfl (fun _ => rfl) (fun _ => rfl) rfl (fun h => h)
      (holding_goto_iff (by rw [hw]; rfl) rfl)
  | snapshot hw =>
    exact h.frame rfl (fun _ => rfl) (fun _ => rfl) rfl (fun h => h)
      (holding_goto_iff (by rw [hw]; rfl) rfl)
  | finish hw =>
    -- The event neither starts nor fails a run.
    exact h.frame rfl (fun id => by simp [note, goto, starts_cons, Event.starts?])
      (fun _ => rfl) rfl (fun h => h)
      (holding_goto_iff (s := s) (by rw [hw]; rfl) rfl)
  | skip hw hno =>
    exact h.frame rfl (fun _ => rfl) (fun _ => rfl) rfl (fun h => h)
      (holding_goto_iff (by rw [hw]; rfl) rfl)
  | @claim w now n j stored rest hw hdue hstored hguard =>
    -- The only place where the freshness of the claim enters.
    obtain ⟨rfl, hun⟩ := hfresh w ⟨now, n, j :: rest⟩ j stored rfl (by rw [hw]; rfl) hdue
      hstored hguard
    exact h.claim hw hdue hstored hun
  | start hw hh => exact h.start hex hk hw
  | @unknown w p j hw hh =>
    have hheld' : Held M B (s.goto w (.holding p j .dropping)) p j .dropping :=
      (h.held w p j .claimed hw).congr rfl rfl rfl rfl
    exact h.advance hex hk hw (phase_goto_self s _ _) hother rfl rfl
      (fun _ _ => rfl) (fun _ _ => rfl) hheld' (h.bound _) h.spaced
  | @returns w p j hw =>
    have hheld' : Held M B (s.goto w (.holding p j .succeeded)) p j .succeeded :=
      (h.held w p j .running hw).congr rfl rfl rfl rfl
    exact h.advance hex hk hw (phase_goto_self s _ _) hother rfl rfl
      (fun _ _ => rfl) (fun _ _ => rfl) hheld' (h.bound _) h.spaced
  | throws what hw => exact h.throws hex hk what hw
  | throwsOther hw => exact hcrash.elim
  | complete hw =>
    exact h.remove hw rfl (by exact congrArg Phase.claim? (phase_goto_self _ _ _)) hother rfl
      (fun id => by simp [note, goto, withJobs, starts_cons, Event.starts?]) (fun _ => rfl)
      fun h => h
  | drop hw =>
    exact h.remove hw rfl (by exact congrArg Phase.claim? (phase_goto_self _ _ _)) hother rfl
      (fun id => by simp [note, goto, withJobs, starts_cons, Event.starts?]) (fun _ => rfl)
      fun h => h
  | @bury w p j what hw hmax =>
    have hstarts : ∀ id, starts id (.buried w j.id :: s.log) = starts id s.log := fun id => by
      simp [starts_cons, Event.starts?]
    have hheld' : Held M B (((s.addFailed j what).goto w (.holding p j .buried)).note
        (.buried w j.id)) p j .buried :=
      (h.held w p j (.failed what) hw).congr rfl rfl (hstarts j.id) rfl
    exact h.advance hex hk hw (by exact phase_goto_self (s.addFailed j what) _ _) hother
      rfl rfl (fun id _ => hstarts id) (fun _ _ => rfl) hheld'
      ((congrArg Nat.cast (hstarts j.id)).trans_le (h.bound j.id)) h.spaced
  | clear hw =>
    exact h.remove hw rfl (by exact congrArg Phase.claim? (phase_goto_self _ _ _)) hother rfl
      (fun _ => rfl) (fun _ => rfl) fun h => h
  | @requeue w p j what hw hmax => exact h.requeue (hM w) (hB w) hw hmax
  | crash w => exact hcrash.elim

/-! ### The stored counter -/

/-- The rows of `s'` that `s` could know were rows of `s`, with no larger counter. -/
def CounterGrows (s s' : JobState W) : Prop :=
  s.nextId ≤ s'.nextId ∧
    ∀ id, id ≤ s.nextId → ∀ j', s'.jobAt id = some j' →
      ∃ j, s.jobAt id = some j ∧ j.attempts ≤ j'.attempts

open JobState in
/-- A fresh claim and a requeue write no smaller counter, the other steps write none. -/
theorem counterGrows_step {s s' : JobState W} {a : Action W} (hex : Exclusive s) (hk : Known s)
    (hfresh : JobFresh q s a) (hstep : JobStep q s a s') : CounterGrows s s' := by
  have hset : ∀ {k : Int} {b stored : Job}, b.id = k → s.jobAt k = some stored →
      stored.attempts ≤ b.attempts → ∀ id j',
        getKey Job.id id (setKey Job.id k b s.jobs) = some j' →
      ∃ j, s.jobAt id = some j ∧ j.attempts ≤ j'.attempts := by
    intro k b stored hb hstored hle id j' hj'
    by_cases hid : id = k
    · subst hid
      rw [getKey_setKey_self hb, Option.map_eq_some_iff] at hj'
      obtain ⟨-, -, rfl⟩ := hj'
      exact ⟨stored, hstored, hle⟩
    · rw [getKey_setKey_ne hb hid] at hj'
      exact ⟨j', hj', le_rfl⟩
  have herase : ∀ (k id : Int) (j' : Job), getKey Job.id id (eraseKey Job.id k s.jobs) = some j' →
      ∃ j, s.jobAt id = some j ∧ j.attempts ≤ j'.attempts := by
    intro k id j' hj'
    by_cases hid : id = k
    · subst hid
      rw [getKey_eraseKey_self] at hj'
      cases hj'
    · rw [getKey_eraseKey_ne hid] at hj'
      exact ⟨j', hj', le_rfl⟩
  cases hstep with
  | push job payload delay =>
    refine ⟨by show s.nextId ≤ s.nextId + 1; omega, fun id hid j' hj' => ?_⟩
    have hj' : (s.addJob job payload delay).jobAt id = some j' := hj'
    rw [jobAt_addJob hk, if_neg (by omega)] at hj'
    exact ⟨j', hj', le_rfl⟩
  -- The copy of a fresh claim counts what the row counts.
  | @claim w now n j stored rest hw hdue hstored hguard =>
    obtain ⟨rfl, -⟩ := hfresh w ⟨now, n, j :: rest⟩ j stored rfl (by rw [hw]; rfl) hdue
      hstored hguard
    have hid : (stored.claimedAt now).id = stored.id := rfl
    exact ⟨le_rfl, fun id _ j' hj' => hset hid hstored le_rfl id j' hj'⟩
  | @requeue w p j what hw hmax =>
    have hstored := hex.stored w p j (.failed what) hw
    have hid : (j.requeuedAt (q w) p.now).id = j.id := rfl
    have hle : (j.claimedAt p.now).attempts ≤ (j.requeuedAt (q w) p.now).attempts := by
      show j.attempts ≤ j.attempts + 1
      omega
    exact ⟨le_rfl, fun id _ j' hj' => hset hid hstored hle id j' hj'⟩
  -- The other endings take rows away, and the other steps leave them alone.
  | complete hw => exact ⟨le_rfl, fun id _ j' hj' => herase _ id j' hj'⟩
  | drop hw => exact ⟨le_rfl, fun id _ j' hj' => herase _ id j' hj'⟩
  | clear hw => exact ⟨le_rfl, fun id _ j' hj' => herase _ id j' hj'⟩
  | _ => exact ⟨le_rfl, fun id _ j' hj' => ⟨j', hj', le_rfl⟩⟩

/-! ### Runs -/

omit [DecidableEq W] in
/-- The cells of a job determine it. -/
theorem Job.toRow_injective {j j' : Job} (h : j.toRow = j'.toRow) : j = j' := by
  have hcell : ∀ key, j.toRow.get? key = j'.toRow.get? key := fun key => by rw [h]
  have hid := hcell (bytes "id")
  have hreserved := hcell (bytes "reserved_at")
  have havailable := hcell (bytes "available_at")
  have hattempts := hcell (bytes "attempts")
  have hpayload := hcell (bytes "payload")
  have hjob := hcell (bytes "job")
  rw [Job.get?_toRow, Job.get?_toRow] at hid hreserved havailable hattempts hpayload hjob
  cases j
  cases j'
  cases hid
  cases hreserved
  cases havailable
  cases hattempts
  cases hpayload
  cases hjob
  rfl

omit [DecidableEq W] in
/-- A fresh claim of a row is a fresh claim of its job. -/
theorem jobFresh_of_freshClaim {s : JobState W} {a : Action W} (h : FreshClaim q s.toState a) :
    JobFresh q s a := by
  intro w p j stored ha hnext hdue hstored hguard
  subst ha
  have hrow := h w rfl (⟨p.now, p.processed, p.rest.map Job.toRow⟩, j.toRow)
    (by rw [JobState.toState_phase, next?_map, hnext]; rfl) j.id (Job.getInt_id j)
    stored.toRow (by rw [storedRow, JobState.find_toState, hstored]; rfl)
  simp only [Job.columnOrZero_availableAt, Job.columnOrZero_reservedAt,
    Job.get?_reservedAt] at hrow
  obtain ⟨hsame, hfree⟩ := hrow hdue (by rw [hguard])
  refine ⟨Job.toRow_injective hsame, fun w' p' j' pt' hw' hid => hfree w' ?_⟩
  -- The holder of the job holds its row.
  refine ⟨(⟨p'.now, p'.processed, p'.rest.map Job.toRow⟩, j'.toRow), ?_, ?_⟩
  · rw [JobState.toState_phase, claim?_map, hw']
    rfl
  · rw [← hid]
    exact Job.getInt_id j'

omit [DecidableEq W] in
theorem CounterGrows.refl (s : JobState W) : CounterGrows s s :=
  ⟨le_rfl, fun _ _ j hj => ⟨j, hj, le_rfl⟩⟩

omit [DecidableEq W] in
theorem CounterGrows.trans {s₁ s₂ s₃ : JobState W} (h : CounterGrows s₁ s₂)
    (h' : CounterGrows s₂ s₃) : CounterGrows s₁ s₃ := by
  refine ⟨h.1.trans h'.1, fun id hid j₃ hj₃ => ?_⟩
  obtain ⟨j₂, hj₂, hle₂⟩ := h'.2 id (hid.trans h.1) j₃ hj₃
  obtain ⟨j₁, hj₁, hle₁⟩ := h.2 id hid j₂ hj₂
  exact ⟨j₁, hj₁, hle₁.trans hle₂⟩

/-- The invariants of a run with fresh claims. -/
structure RetryInv (M B : Int) (s : JobState W) : Prop where
  exclusive : Exclusive s
  known : Known s
  disciplined : Disciplined M B s

theorem retryInv_step {s s' : JobState W} {a : Action W} (hM : ∀ w, (q w).maxAttempts = M)
    (hB : ∀ w, (q w).retryBackoff = B) (hM1 : 1 ≤ M) (h : RetryInv M B s) (hcrash : NoCrash a)
    (hfresh : JobFresh q s a) (hstep : JobStep q s a s') : RetryInv M B s' where
  exclusive := exclusive_step h.exclusive hfresh.noSteal hstep
  known := known_step h.known hstep
  disciplined :=
    disciplined_step hM hB hM1 h.disciplined h.exclusive h.known hcrash hfresh hstep

/-- Two attempts per job, 10 seconds of backoff, two workers. -/
def retrying : Bool → DbQueue :=
  fun _ => { maxAttempts := 2, retryBackoff := 10, handlers := fun _ => true }

/-- Both workers copy the table. The second runs the job first: it fails and is requeued with
one attempt used, due at 1010. -/
def failsOnce : List (Action Bool) :=
  [.push (bytes "job") [] 0, .enter true 0, .snapshot true, .enter false 0, .snapshot false,
    .look false, .dispatch false, .throws false [], .settle false]

/-- The first worker runs the job it claimed, at 1000; after one more failure and the backoff
it starts the job a third time. -/
def startsAgain : List (Action Bool) :=
  [.dispatch true, .throws true [], .settle true, .look true, .tick 10,
    .enter true 0, .snapshot true, .look true, .dispatch true]

end CppLaravel.Queue
