import CppLaravel.Proofs.Session.Author

/-!
# `CppLaravel.Proofs.Session.LastWriter`: between the write and the rename

While no session expires, the history decides what a login finds when it comes to rename its
session. If a login wrote `auth_id` there and no rename followed (`lastWriter`), the session
holds that login's user. If the last of these steps was a rename, the session holds no
`auth_id`: whoever renamed it took the `auth_id` along.

`Written` states both, `written_step` is its step lemma and `written_run` carries it to every
run without expiry.
-/

set_option autoImplicit false

namespace CppLaravel.Session

open CppLaravel.Lib

variable {L : Type}

/-- The session that an action touches, and when. -/
def Action.access? (call : L → Call) : Action L → Option (Bytes × Int)
  | .begin _ => none
  | .write l now => some ((call l).presented, now)
  | .regenerate l now _ => some ((call l).presented, now)
  | .check opts req now => some (sessionOf req opts, now)
  | .read sid _ now => some (sid, now)
  | .keep sid _ _ now => some (sid, now)

/-- The session that the action touches has not expired. -/
def Unexpired (call : L → Call) (s : State L) (a : Action L) : Prop :=
  ∀ x ∈ a.access? call, ¬ s.store.Expired x.2 x.1

instance (call : L → Call) (s : State L) (a : Action L) : Decidable (Unexpired call s a) :=
  inferInstanceAs (Decidable (∀ x ∈ a.access? call, _))

/-- What the history says about the `auth_id` of the sessions that logins write to. -/
structure Written (call : L → Call) (s : State L) : Prop where
  stored : ∀ l p, lastWriter s.log p = some l →
    ∃ user, (call l).attempt = some user ∧ s.store.value p authId = some user.text
  gone : ∀ l user, s.phase l = .written user → lastWriter s.log (call l).presented = none →
    s.store.value (call l).presented authId = none

variable {call : L → Call} {s s' : State L} {a : Action L}

theorem Written.init (ttl : Int) : Written call (State.init ttl) := by
  constructor
  · intro l p h
    cases h
  · intro l user h
    cases h

/-- Steps that write and rename nothing keep the invariant when they keep `auth_id`. -/
theorem Written.of_frame (h : Written call s)
    (hphase : ∀ l user, s'.phase l = .written user → s.phase l = .written user)
    (hlog : ∀ p, lastWriter s'.log p = lastWriter s.log p)
    (hvalue : ∀ p, s'.store.value p authId = s.store.value p authId) : Written call s' := by
  constructor
  · intro l p hl
    rw [hlog] at hl
    rw [hvalue]
    exact h.stored l p hl
  · intro l user hl hnone
    rw [hlog] at hnone
    rw [hvalue]
    exact h.gone l user (hphase l user hl) hnone

variable [DecidableEq L]

/-- A login that moves on without a write has not written. -/
theorem written_of_goto {l l' : L} {ph : Phase} {user : AuthUser}
    (hph : ∀ user, ph ≠ .written user) (h : (s.goto l ph).phase l' = .written user) :
    s.phase l' = .written user ∧ l' ≠ l := by
  rw [phase_goto] at h
  split at h
  · exact absurd h (hph user)
  · rename_i hne
    exact ⟨h, hne⟩

section
open ArraySessionStore

/-- The session that a login writes to holds its user, and the others stay. -/
theorem value_written {l : L} {user : AuthUser} {now : Int}
    (hlive : ¬ s.store.Expired now (call l).presented) (p : Bytes) :
    (s.written (call l) l now user).store.value p authId =
      if p = (call l).presented then some user.text else s.store.value p authId := by
  show (s.store.put now (call l).presented authId user.text).value p authId = _
  rw [value_put, dropIfExpired_of_not_expired hlive]
  simp only [and_true]

/-- The renamed session is gone, and a session with another known id stays as it is. -/
theorem value_regenerated {l : L} {now : Int} {fresh : Bytes}
    (hlive : ¬ s.store.Expired now (call l).presented) (hfresh : fresh ∉ s.ids) {p : Bytes}
    (hp : p ∈ s.ids) :
    (s.regenerated (call l) l now fresh).store.value p authId =
      if p = (call l).presented then none else s.store.value p authId := by
  have hdrop := dropIfExpired_of_not_expired hlive
  show (s.store.rename now (call l).presented fresh).2.value p authId = _
  cases hok : (s.store.rename now (call l).presented fresh).1 with
  | true =>
    rw [value_rename_of_true hok, hdrop]
    by_cases hsrc : p = (call l).presented
    · rw [if_pos hsrc, if_pos hsrc]
    · have hdst : p ≠ fresh := fun heq => hfresh (heq ▸ hp)
      rw [if_neg hsrc, if_neg hsrc, if_neg hdst]
  | false =>
    obtain ⟨hstore, hempty⟩ := value_rename_of_false hok
    rw [hdrop] at hstore hempty
    rw [hstore]
    by_cases hsrc : p = (call l).presented
    · rw [if_pos hsrc, hsrc]
      exact hempty authId
    · rw [if_neg hsrc]

/-- After a write the session written to has a new last writer, and holds its user. -/
theorem Written.written (h : Written call s) {l : L} {user : AuthUser} {now : Int}
    (huser : (call l).attempt = some user)
    (hlive : ¬ s.store.Expired now (call l).presented) :
    Written call (s.written (call l) l now user) where
  stored l' p hl' := by
    change (if p = (call l).presented then some l else lastWriter s.log p) = some l' at hl'
    rw [value_written hlive]
    split at hl'
    · rename_i hp
      cases hl'
      rw [if_pos hp]
      exact ⟨user, huser, rfl⟩
    · rename_i hp
      rw [if_neg hp]
      exact h.stored l' p hl'
  gone l' user' hl' hnone := by
    -- Where the last was a rename, this write went elsewhere.
    change (if (call l').presented = (call l).presented then some l else _) = none at hnone
    rw [value_written hlive]
    split at hnone
    · cases hnone
    · rename_i hne
      rw [if_neg hne]
      rw [State.written, phase_goto] at hl'
      split at hl'
      · subst l'
        exact absurd rfl hne
      · exact h.gone l' user' hl' hnone

/-- After a rename another login that was presented with the id finds the session gone. -/
theorem Written.regenerated (h : Written call s) (hseen : Seen call s)
    (hsettled : Settled call s) {l : L} {now : Int} {fresh : Bytes} (hfresh : fresh ∉ s.ids)
    (hlive : ¬ s.store.Expired now (call l).presented) :
    Written call (s.regenerated (call l) l now fresh) where
  stored l' p hl' := by
    change (if p = (call l).presented then none else lastWriter s.log p) = some l' at hl'
    split at hl'
    · cases hl'
    · rename_i hsrc
      have hp : p ∈ s.ids := (hseen.authored l' p ((hsettled l' p).mp hl').1).2
      rw [value_regenerated hlive hfresh hp, if_neg hsrc]
      exact h.stored l' p hl'
  gone l' user' hl' hnone := by
    change (if (call l').presented = (call l).presented then none else _) = none at hnone
    obtain ⟨hl', -⟩ := written_of_goto (fun _ h => by cases h) hl'
    have hl'' : s.phase l' = .written user' := hl'
    have huser : (s.phase l').user? = some user' := by rw [hl'']; rfl
    rw [value_regenerated hlive hfresh (hseen.presented l' user' huser)]
    split at hnone
    · rename_i hsrc
      rw [if_pos hsrc]
    · rename_i hsrc
      rw [if_neg hsrc]
      exact h.gone l' user' hl'' hnone

/-- Every step that finds its session unexpired keeps the invariant. -/
theorem written_step (h : Written call s) (hseen : Seen call s) (hsettled : Settled call s)
    (hlive : Unexpired call s a) (hstep : LoginStep call s a s') : Written call s' := by
  cases hstep with
  | @refuse l hidle hno =>
    exact h.of_frame (fun l' user hl' => (written_of_goto (fun _ h => by cases h) hl').1)
      (fun _ => rfl) fun _ => rfl
  | @begin l user hidle huser =>
    exact h.of_frame (fun l' user hl' => (written_of_goto (fun _ h => by cases h) hl').1)
      (fun _ => rfl) fun _ => rfl
  | @write l user now hl =>
    exact h.written (hseen.user l user (by rw [hl]; rfl)) (hlive _ rfl)
  | @regenerate l user now fresh hl hfresh =>
    exact h.regenerated hseen hsettled hfresh (hlive _ rfl)
  | check opts req now =>
    have hdrop := dropIfExpired_of_not_expired (hlive _ rfl)
    refine h.of_frame (fun _ _ hl => hl) (fun p => by rw [log_checked]; rfl)
      fun p => ?_
    rw [store_checked, value_has, hdrop]
  | read sid key now =>
    have hdrop := dropIfExpired_of_not_expired (hlive _ rfl)
    refine h.of_frame (fun _ _ hl => hl) (fun _ => rfl) fun p => ?_
    show (s.store.get now sid key).2.value p authId = _
    rw [value_get, hdrop]
  | @keep sid key value now hkey =>
    have hdrop := dropIfExpired_of_not_expired (hlive _ rfl)
    refine h.of_frame (fun _ _ hl => hl) (fun _ => rfl) fun p => ?_
    show (s.store.put now sid key value).value p authId = _
    rw [value_put, hdrop, if_neg fun heq => hkey heq.2.symm]

end

/-- In every run without expiry, the history says what the sessions hold. -/
theorem written_run {ttl : Int} {as : List (Action L)}
    (h : Trace (Guarded (Unexpired call) (Steps (step call))) (State.init ttl) as s) :
    Seen call s ∧ Settled call s ∧ Written call s := by
  refine h.invariant (P := fun s => Seen call s ∧ Settled call s ∧ Written call s) ?_
    ⟨.init ttl, .init ttl, .init ttl⟩
  rintro s a s' ⟨hseen, hsettled, hwritten⟩ ⟨hlive, hstep⟩
  have hstep : LoginStep call s a s' := loginStep_of_step hstep
  exact ⟨seen_step hseen hstep, settled_step hsettled hseen hstep,
    written_step hwritten hseen hsettled hlive hstep⟩

end CppLaravel.Session
