import CppLaravel.Session.Login

/-!
# `CppLaravel.Proofs.Session.Author`: whose `auth_id` a session holds

`require_auth` asks only whether a session holds an `auth_id`. `author` reads off the history
which login wrote the one it holds: the login that wrote it there, or, where a login renamed
the session to a fresh id, the one that wrote it to the session's former id.

* `Held`: every `auth_id` in the store has an author, and is the id of the author's user. So
  a check that passes does so because of exactly one login.
* `Settled`: a login is the author of the session it was presented with exactly while its
  write there is the last and no rename has followed (`lastWriter`). This is where the
  freshness of the minted ids enters: a rename never leads to an id that a login was
  presented with.

`seen_step`, `held_step` and `settled_step` are the step lemmas.
-/

set_option autoImplicit false

namespace CppLaravel.Session

open CppLaravel.Lib
open CppLaravel.Http

variable {L : Type}

/-- The login whose `auth_id` a session holds, if it holds one. -/
def author : List (Event L) → Bytes → Option L
  | [], _ => none
  | .wrote l sid :: log, p => if p = sid then some l else author log p
  | .renamed _ src dst :: log, p =>
    if p = src then none else if p = dst then author log src else author log p
  | .checked _ _ :: log, p => author log p

/-- The login that wrote `auth_id` to a session last, if no login has renamed the session
since. -/
def lastWriter : List (Event L) → Bytes → Option L
  | [], _ => none
  | .wrote l sid :: log, p => if p = sid then some l else lastWriter log p
  | .renamed _ src _ :: log, p => if p = src then none else lastWriter log p
  | .checked _ _ :: log, p => lastWriter log p

/-- The user of a login that has not returned. -/
def Phase.user? : Phase → Option AuthUser
  | .authenticated user | .written user => some user
  | _ => none

/-- What a session holds under `auth_id` while the user is logged in. -/
def AuthUser.text (user : AuthUser) : Bytes := intToString user.id.toInt

/-- The ids that logins were presented with, and those of the sessions with an author, have
been seen. -/
structure Seen (call : L → Call) (s : State L) : Prop where
  user : ∀ l user, (s.phase l).user? = some user → (call l).attempt = some user
  presented : ∀ l user, (s.phase l).user? = some user → (call l).presented ∈ s.ids
  authored : ∀ l p, author s.log p = some l → (call l).presented ∈ s.ids ∧ p ∈ s.ids

/-- Every `auth_id` in the store is the id of its author's user. -/
def Held (call : L → Call) (s : State L) : Prop :=
  ∀ p v, s.store.value p authId = some v →
    ∃ l user, author s.log p = some l ∧ (call l).attempt = some user ∧ v = user.text

/-- The author of the session it was presented with is that session's last writer. -/
def Settled (call : L → Call) (s : State L) : Prop :=
  ∀ l p, lastWriter s.log p = some l ↔ author s.log p = some l ∧ (call l).presented = p

variable [DecidableEq L] {call : L → Call} {s s' : State L} {a : Action L}

/-! ### The fields of the states after a step -/

@[simp] theorem phase_goto (s : State L) (l l' : L) (ph : Phase) :
    (s.goto l ph).phase l' = if l' = l then ph else s.phase l' := by
  simp [State.goto, Function.update_apply]

omit [DecidableEq L] in
theorem log_checked (s : State L) (opts : CookieOptions) (req : Request) (now : Int) :
    (s.checked opts req now).log =
      .checked (sessionOf req opts) (s.store.has now (sessionOf req opts) authId).1 :: s.log := by
  simp only [State.checked, requireAuth]
  split <;> simp [*]

omit [DecidableEq L] in
theorem store_checked (s : State L) (opts : CookieOptions) (req : Request) (now : Int) :
    (s.checked opts req now).store = (s.store.has now (sessionOf req opts) authId).2 := by
  simp only [State.checked, requireAuth]
  split <;> rfl

/-! ### Ids -/

/-- A login that moves on sees no new session with an author, except its own. -/
theorem Seen.of_frame {l : L} {ph : Phase} (h : Seen call s)
    (hphase : ∀ l', s'.phase l' = if l' = l then ph else s.phase l')
    (hids : ∀ p ∈ s.ids, p ∈ s'.ids)
    (hself : ∀ user, ph.user? = some user →
      (call l).attempt = some user ∧ (call l).presented ∈ s'.ids)
    (hauthored : ∀ l p, author s'.log p = some l →
      (call l).presented ∈ s'.ids ∧ p ∈ s'.ids) : Seen call s' := by
  refine ⟨fun l' user hl' => ?_, fun l' user hl' => ?_, hauthored⟩
  · rw [hphase] at hl'
    split at hl'
    · subst l'
      exact (hself user hl').1
    · exact h.user l' user hl'
  · rw [hphase] at hl'
    split at hl'
    · subst l'
      exact (hself user hl').2
    · exact hids _ (h.presented l' user hl')

omit [DecidableEq L] in
theorem Seen.init (ttl : Int) : Seen call (State.init ttl) := by
  constructor
  · intro l user h
    cases h
  · intro l user h
    cases h
  · intro l p h
    cases h

omit [DecidableEq L] in
/-- The authors stay seen when more ids are. -/
theorem Seen.authored_of_subset (h : Seen call s) {ids : List Bytes}
    (hids : ∀ p ∈ s.ids, p ∈ ids) {l : L} {p : Bytes} (hl : author s.log p = some l) :
    (call l).presented ∈ ids ∧ p ∈ ids :=
  ⟨hids _ (h.authored l p hl).1, hids _ (h.authored l p hl).2⟩

/-- Every step sees the ids it presents or mints. -/
theorem seen_step (h : Seen call s) (hstep : LoginStep call s a s') : Seen call s' := by
  cases hstep with
  | @refuse l hidle hno =>
    have hids : ∀ p ∈ s.ids, p ∈ (call l).presented :: s.ids := fun p hp =>
      List.mem_cons_of_mem _ hp
    exact h.of_frame (fun l' => phase_goto _ l l' _) hids (fun user huser => by cases huser)
      fun l' p hl' => h.authored_of_subset hids hl'
  | @begin l user hidle huser =>
    have hids : ∀ p ∈ s.ids, p ∈ (call l).presented :: s.ids := fun p hp =>
      List.mem_cons_of_mem _ hp
    refine h.of_frame (fun l' => phase_goto _ l l' _) hids (fun user' huser' => ?_)
      fun l' p hl' => h.authored_of_subset hids hl'
    cases huser'
    exact ⟨huser, List.mem_cons_self⟩
  | @write l user now hl =>
    have huser : (s.phase l).user? = some user := by rw [hl]; rfl
    -- The one new author is the login itself, at the id it was presented with.
    refine h.of_frame (fun l' => phase_goto _ l l' _) (fun p hp => hp) (fun user' huser' => ?_)
      fun l' p hl' => ?_
    · cases huser'
      exact ⟨h.user l user huser, h.presented l user huser⟩
    · change (if p = (call l).presented then some l else author s.log p) = _
        at hl'
      split at hl'
      · cases hl'
        subst p
        exact ⟨h.presented l user huser, h.presented l user huser⟩
      · exact h.authored l' p hl'
  | @regenerate l user now fresh hl hfresh =>
    have hids : ∀ p ∈ s.ids, p ∈ fresh :: s.ids := fun p hp => List.mem_cons_of_mem _ hp
    refine h.of_frame (fun l' => phase_goto _ l l' _) hids (fun user' huser' => by cases huser')
      fun l' p hl' => ?_
    -- The fresh id takes over the author of the presented one.
    change (if p = (call l).presented then none else if p = fresh then
      author s.log (call l).presented else author s.log p) = _
      at hl'
    split at hl'
    · cases hl'
    · split at hl'
      · subst p
        exact ⟨List.mem_cons_of_mem _ (h.authored _ _ hl').1, List.mem_cons_self⟩
      · exact h.authored_of_subset hids hl'
  | check opts req now =>
    refine ⟨h.user, h.presented, fun l p hl => ?_⟩
    rw [log_checked] at hl
    exact h.authored l p hl
  | read sid key now => exact ⟨h.user, h.presented, h.authored⟩
  | keep sid value now hkey => exact ⟨h.user, h.presented, h.authored⟩

/-! ### What the store holds -/

omit [DecidableEq L] in
theorem Held.init (ttl : Int) : Held call (State.init ttl) := by
  intro p v hv
  rw [State.init, ArraySessionStore.value_new] at hv
  cases hv

omit [DecidableEq L] in
/-- Dropping expired sessions and storing other keys brings no `auth_id`. -/
theorem Held.of_value (h : Held call s) (hlog : ∀ p, author s'.log p = author s.log p)
    (hvalue : ∀ p v, s'.store.value p authId = some v → s.store.value p authId = some v) :
    Held call s' := by
  intro p v hv
  rw [hlog]
  exact h p v (hvalue p v hv)

open ArraySessionStore in
/-- Every step keeps the authors right. -/
theorem held_step (h : Held call s) (hseen : Seen call s) (hstep : LoginStep call s a s') :
    Held call s' := by
  cases hstep with
  | refuse hidle hno => exact h.of_value (fun _ => rfl) fun _ _ hv => hv
  | begin hidle huser => exact h.of_value (fun _ => rfl) fun _ _ hv => hv
  | @write l user now hl =>
    -- The session written to holds the login's user, every other one what it held.
    intro p v hv
    change (s.store.put now (call l).presented authId user.text).value p authId = some v at hv
    rw [value_put] at hv
    change ∃ l' user', (if p = (call l).presented then some l else author s.log p) = _ ∧ _
    split at hv
    · rename_i hp
      rw [if_pos hp.1]
      cases hv
      exact ⟨l, user, rfl, hseen.user l user (by rw [hl]; rfl), rfl⟩
    · rename_i hp
      rw [if_neg fun heq => hp ⟨heq, rfl⟩]
      exact h p v (value_of_value_dropIfExpired hv)
  | @regenerate l user now fresh hl hfresh =>
    intro p v hv
    change (s.store.rename now (call l).presented fresh).2.value p authId = some v at hv
    change ∃ l' user', (if p = (call l).presented then none else if p = fresh then
      author s.log (call l).presented else author s.log p) = some l' ∧ _
    cases hok : (s.store.rename now (call l).presented fresh).1 with
    | true =>
      -- The `auth_id` moves to the fresh id, and its author with it.
      rw [value_rename_of_true hok] at hv
      split at hv
      · cases hv
      · rename_i hsrc
        rw [if_neg hsrc]
        split at hv
        · rename_i hdst
          rw [if_pos hdst]
          exact h _ v (value_of_value_dropIfExpired hv)
        · rename_i hdst
          rw [if_neg hdst]
          exact h p v (value_of_value_dropIfExpired hv)
    | false =>
      -- There was no session to rename, and the fresh id holds nothing either.
      obtain ⟨hstore, hempty⟩ := value_rename_of_false hok
      rw [hstore] at hv
      have hsrc : p ≠ (call l).presented := by
        rintro rfl
        rw [hempty] at hv
        cases hv
      obtain ⟨l', user', hauthor, huser'⟩ := h p v (value_of_value_dropIfExpired hv)
      have hdst : p ≠ fresh := by
        rintro rfl
        exact hfresh (hseen.authored l' p hauthor).2
      rw [if_neg hsrc, if_neg hdst]
      exact ⟨l', user', hauthor, huser'⟩
  | check opts req now =>
    refine h.of_value (fun p => by rw [log_checked]; rfl) fun p v hv => ?_
    rw [store_checked, value_has] at hv
    exact value_of_value_dropIfExpired hv
  | read sid key now =>
    refine h.of_value (fun _ => rfl) fun p v hv => ?_
    change (s.store.get now sid key).2.value p authId = some v at hv
    rw [value_get] at hv
    exact value_of_value_dropIfExpired hv
  | @keep sid key value now hkey =>
    refine h.of_value (fun _ => rfl) fun p v hv => ?_
    change (s.store.put now sid key value).value p authId = some v at hv
    rw [value_put, if_neg fun heq => hkey heq.2.symm] at hv
    exact value_of_value_dropIfExpired hv

/-! ### The last writer -/

omit [DecidableEq L] in
theorem Settled.init (ttl : Int) : Settled call (State.init ttl) := by
  intro l p
  constructor
  · intro h
    cases h
  · rintro ⟨h, -⟩
    cases h

/-- Every step keeps the writers settled. -/
theorem settled_step (h : Settled call s) (hseen : Seen call s)
    (hstep : LoginStep call s a s') : Settled call s' := by
  cases hstep with
  | @write l user now hl =>
    intro l' p
    show (if p = (call l).presented then some l else lastWriter s.log p) = some l' ↔
      (if p = (call l).presented then some l else author s.log p) = some l' ∧ _
    by_cases hsid : p = (call l).presented
    · rw [if_pos hsid, if_pos hsid]
      refine ⟨fun heq => ⟨heq, ?_⟩, And.left⟩
      cases heq
      exact hsid.symm
    · rw [if_neg hsid, if_neg hsid]
      exact h l' p
  | @regenerate l user now fresh hl hfresh =>
    intro l' p
    show (if p = (call l).presented then none else lastWriter s.log p) = some l' ↔
      (if p = (call l).presented then none else if p = fresh then
        author s.log (call l).presented else author s.log p) = some l' ∧ _
    by_cases hsrc : p = (call l).presented
    · -- The presented id has lost both.
      rw [if_pos hsrc, if_pos hsrc]
      exact ⟨fun heq => (by cases heq), fun heq => (by cases heq.1)⟩
    · rw [if_neg hsrc, if_neg hsrc]
      by_cases hdst : p = fresh
      · -- Neither a writer nor an author was presented with the id that is minted now.
        rw [if_pos hdst]
        constructor
        · intro hlast
          exact absurd (hdst ▸ (hseen.authored l' p ((h l' p).mp hlast).1).2) hfresh
        · rintro ⟨hauthor, hp⟩
          exact absurd ((hp.trans hdst) ▸ (hseen.authored l' _ hauthor).1) hfresh
      · rw [if_neg hdst]
        exact h l' p
  | check opts req now =>
    intro l p
    rw [log_checked]
    exact h l p
  | _ => exact h

end CppLaravel.Session
