import CppLaravel.Proofs.Session.Fixation

/-!
# `CppLaravel.Proofs.Session.DoubleLogin`: the session a login returns with

A login that returns true has stamped a session id on the response. It should be a freshly
minted id, whose session holds the `auth_id` of the user that was authenticated.

* `login_returns_fresh_session_iff`: in every run without expiry, a login returns with such a
  session exactly when, at its rename, the last of the writes and renames that logins made
  to the presented id was a write, and one for the same user.
* `second_login_keeps_old_id`: a form that is submitted twice breaks this. The rename of the
  first login takes the session away; that of the second finds none, and the call returns
  true with the id it was presented with.
-/

set_option autoImplicit false

namespace CppLaravel.Session

open CppLaravel.Lib
open CppLaravel.Http

variable {L : Type}

/-- What the call of a login has returned. -/
def Phase.result? : Phase → Option (Bool × Request × Response)
  | .returned ok req res => some (ok, req, res)
  | _ => none

/-- Between `s` and `s'`, login `l` has returned true with a fresh id on its response, whose
session holds the `auth_id` of the user that was authenticated. -/
def ReturnsFreshSession (call : L → Call) (s s' : State L) (l : L) : Prop :=
  ∃ req res id user, (s'.phase l).result? = some (true, req, res) ∧
    res.headers.lookup (bytes "Set-Cookie") = some (cookieHeader id (call l).opts) ∧
    id ∉ s.ids ∧ id ≠ (call l).presented ∧ (call l).attempt = some user ∧
    s'.store.value id authId = some user.text

/-- The last write or rename that a login made to the id presented by `l` was a write, for
the user of `l`. -/
def OwnWriteStands (call : L → Call) (s : State L) (l : L) : Prop :=
  ∃ m user user', lastWriter s.log (call l).presented = some m ∧
    (call m).attempt = some user' ∧ (call l).attempt = some user ∧ user'.id = user.id

/-- The cookie tells the session ids apart. -/
theorem cookieHeader_injective (opts : CookieOptions) :
    Function.Injective fun id => cookieHeader id opts := by
  intro id id' h
  simpa only [cookieHeader, List.append_assoc, List.append_cancel_left_eq,
    List.append_cancel_right_eq] using h

/-- The text under `auth_id` tells the users apart. -/
theorem AuthUser.id_of_text {user user' : AuthUser} (h : user.text = user'.text) :
    user.id = user'.id := by
  have hid : some user.id = some user'.id := by
    rw [← stoll_intToString user.id, ← stoll_intToString user'.id]
    exact congrArg stoll h
  exact Option.some.inj hid

variable [DecidableEq L] {call : L → Call} {s s' : State L} {a : Action L}

/-- A login returns true with its rename and at no other step. -/
theorem returns_true_step {l : L} {req : Request} {res : Response}
    (hbefore : (s.phase l).result? = none)
    (hafter : (s'.phase l).result? = some (true, req, res)) (hstep : LoginStep call s a s') :
    ∃ user now fresh, a = .regenerate l now fresh ∧ s.phase l = .written user ∧
      fresh ∉ s.ids ∧ s' = s.regenerated (call l) l now fresh := by
  -- Neither a login that moves without returning true nor one that does not move.
  have hgoto : ∀ {t : State L} {l' : L} {ph : Phase}, t.phase = s.phase →
      ph.result? ≠ some (true, req, res) →
      ((t.goto l' ph).phase l).result? ≠ some (true, req, res) := by
    intro t l' ph ht hph
    rw [phase_goto, ht]
    split
    · exact hph
    · rw [hbefore]
      exact Option.some_ne_none _ ∘ Eq.symm
  cases hstep with
  | @refuse l' hidle hno => exact absurd hafter (hgoto rfl (by nofun))
  | @begin l' user hidle huser => exact absurd hafter (hgoto rfl (by nofun))
  | @write l' user now hl' => exact absurd hafter (hgoto rfl (by nofun))
  | @regenerate l' user now fresh hl' hfresh =>
    by_cases hl : l = l'
    · subst l'
      exact ⟨user, now, fresh, rfl, hl', hfresh, rfl⟩
    · rw [State.regenerated, phase_goto, if_neg hl, show (s.phase l).result? = none from hbefore]
        at hafter
      cases hafter
  | check opts req now =>
    rw [show ((s.checked opts req now).phase l) = s.phase l from rfl, hbefore] at hafter
    cases hafter
  | read sid key now =>
    rw [show (s.phase l).result? = none from hbefore] at hafter
    cases hafter
  | keep sid value now hkey =>
    rw [show (s.phase l).result? = none from hbefore] at hafter
    cases hafter

/-- A rename that succeeds stamps the fresh id, and one that fails the presented id. -/
theorem regenerated_phase (s : State L) (c : Call) (l : L) (now : Int) (fresh : Bytes) :
    ((s.regenerated c l now fresh).phase l).result? =
      some (true, c.stamp (if (s.store.rename now c.presented fresh).1 then fresh
        else c.presented)) := by
  rw [State.regenerated, phase_goto, if_pos rfl]
  rfl

/-- A login whose rename succeeds returns with a fresh session if the session it renames
holds its user. -/
theorem returnsFreshSession_regenerated_iff {l : L} {user : AuthUser} {now : Int} {fresh : Bytes}
    (huser : (call l).attempt = some user) (hpresented : (call l).presented ∈ s.ids)
    (hfresh : fresh ∉ s.ids) (hlive : ¬ s.store.Expired now (call l).presented) :
    ReturnsFreshSession call s (s.regenerated (call l) l now fresh) l ↔
      s.store.value (call l).presented authId = some user.text := by
  have hdrop := ArraySessionStore.dropIfExpired_of_not_expired hlive
  have hne : fresh ≠ (call l).presented := fun heq => hfresh (heq ▸ hpresented)
  constructor
  · -- The id on the response is one that the rename stamped.
    rintro ⟨req, res, id, user', hresult, hcookie, -, hid, huser', hvalue⟩
    rw [huser] at huser'
    cases huser'
    rw [regenerated_phase] at hresult
    obtain ⟨-, hres⟩ := Prod.ext_iff.mp (Prod.ext_iff.mp (Option.some.inj hresult)).2
    have hres : ((call l).stamp _).2 = res := hres
    rw [← hres, Call.stamp, Finmap.lookup_insert] at hcookie
    have hid' := cookieHeader_injective _ (Option.some.inj hcookie)
    cases hok : (s.store.rename now (call l).presented fresh).1 with
    | true =>
      rw [hok, if_pos rfl] at hid'
      change (s.store.rename now (call l).presented fresh).2.value id authId = _ at hvalue
      rw [ArraySessionStore.value_rename_of_true hok, if_neg hid, if_pos hid'.symm, hdrop]
        at hvalue
      exact hvalue
    | false =>
      -- The id on the response is the presented one.
      rw [hok, if_neg Bool.false_ne_true] at hid'
      exact absurd hid'.symm hid
  · -- A session that holds something can be renamed.
    intro hvalue
    have hvalue' : (s.store.dropIfExpired now (call l).presented).value (call l).presented authId
        = some user.text := by
      rw [hdrop]
      exact hvalue
    have hok : (s.store.rename now (call l).presented fresh).1 = true :=
      ArraySessionStore.rename_fst_of_value hvalue'
    refine ⟨_, _, fresh, user, regenerated_phase s (call l) l now fresh, ?_, hfresh, hne, huser, ?_⟩
    · rw [hok, if_pos rfl]
      exact Finmap.lookup_insert _
    · show (s.store.rename now (call l).presented fresh).2.value fresh authId = _
      rw [ArraySessionStore.value_rename_of_true hok, if_neg hne, if_pos rfl]
      exact hvalue'

/-- **A login returns with a fresh session of its user** exactly when the last write or
rename that a login made to the presented id, before this login's rename, was a write for
the same user. -/
theorem login_returns_fresh_session_iff (call : L → Call) {ttl : Int} {as : List (Action L)}
    (h : Trace (Guarded (Unexpired call) (Steps (step call))) (State.init ttl) as s)
    (hstep : Guarded (Unexpired call) (Steps (step call)) s a s') {l : L} {req : Request}
    {res : Response} (hbefore : (s.phase l).result? = none)
    (hafter : (s'.phase l).result? = some (true, req, res)) :
    ReturnsFreshSession call s s' l ↔ OwnWriteStands call s l := by
  obtain ⟨hseen, hsettled, hwritten⟩ := written_run h
  obtain ⟨hlive, hstep⟩ := hstep
  obtain ⟨user, now, fresh, rfl, hl, hfresh, rfl⟩ :=
    returns_true_step hbefore hafter (loginStep_of_step hstep)
  have huser? : (s.phase l).user? = some user := by rw [hl]; rfl
  have huser := hseen.user l user huser?
  rw [returnsFreshSession_regenerated_iff huser (hseen.presented l user huser?) hfresh
    (hlive _ rfl)]
  constructor
  · intro hvalue
    cases hlast : lastWriter s.log (call l).presented with
    | none =>
      -- A rename came last, and took the session away.
      rw [hwritten.gone l user hl hlast] at hvalue
      cases hvalue
    | some m =>
      obtain ⟨user', huser', hvalue'⟩ := hwritten.stored m _ hlast
      rw [hvalue] at hvalue'
      exact ⟨m, user, user', hlast, huser', huser,
        (AuthUser.id_of_text (Option.some.inj hvalue')).symm⟩
  · -- The last writer need not be this login: another one for the same user will do.
    rintro ⟨m, user₁, user', hlast, huser', huser₁, hid⟩
    rw [huser] at huser₁
    cases huser₁
    obtain ⟨user₂, huser₂, hvalue⟩ := hwritten.stored m _ hlast
    rw [huser'] at huser₂
    cases huser₂
    rw [hvalue, AuthUser.text, hid]
    rfl

/-- **The second of two logins keeps the planted id.** One form, submitted twice: both
logins write, the first renames, and the second returns true with the id it was presented
with on its response. -/
theorem second_login_keeps_old_id :
    ∃ s s' req res,
      Trace (Guarded (Unexpired fun _ : Bool => plantedLogin)
          (Steps (step fun _ : Bool => plantedLogin))) (State.init 0)
        [.begin true, .begin false, .write true 0, .write false 0,
          .regenerate true 0 (bytes "a")] s ∧
      Guarded (Unexpired fun _ : Bool => plantedLogin)
        (Steps (step fun _ : Bool => plantedLogin)) s (.regenerate false 0 (bytes "b")) s' ∧
      (s.phase false).result? = none ∧ (s'.phase false).result? = some (true, req, res) ∧
      ¬ ReturnsFreshSession (fun _ : Bool => plantedLogin) s s' false := by
  let stepOf := guard (Unexpired fun _ : Bool => plantedLogin) (step fun _ => plantedLogin)
  have h : (run stepOf (State.init 0) [.begin true, .begin false, .write true 0, .write false 0,
      .regenerate true 0 (bytes "a")]).any (fun s => (s.phase false).result?.isNone ∧
        (stepOf s (.regenerate false 0 (bytes "b"))).any (fun s' =>
          ((s'.phase false).result?.any fun r => r.1 ∧ r.2.2.headers.lookup (bytes "Set-Cookie") =
            some (cookieHeader (bytes "planted") {}))) = true) = true := by
    decide
  obtain ⟨s, hs, hp⟩ := Option.any_eq_true _ _ |>.mp h
  obtain ⟨hnone, hp⟩ := of_decide_eq_true hp
  obtain ⟨s', hs', hp'⟩ := Option.any_eq_true _ _ |>.mp hp
  obtain ⟨⟨ok, req, res⟩, hresult, hr⟩ := Option.any_eq_true _ _ |>.mp hp'
  obtain ⟨hok, hcookie⟩ := of_decide_eq_true hr
  obtain rfl : ok = true := hok
  refine ⟨s, s', req, res, trace_of_run_guard hs, guarded_of_guard hs',
    Option.isNone_iff_eq_none.mp hnone, hresult, ?_⟩
  rintro ⟨req', res', id, user, hresult', hcookie', -, hid, -⟩
  rw [hresult] at hresult'
  cases hresult'
  rw [hcookie] at hcookie'
  exact hid (cookieHeader_injective {} (Option.some.inj hcookie')).symm

/-- A login that no other disturbs returns with a fresh session. -/
theorem login_returns_fresh_session_applies :
    ∃ s s', Trace (Guarded (Unexpired fun _ : Unit => plantedLogin)
        (Steps (step fun _ : Unit => plantedLogin))) (State.init 0)
        [.begin (), .write () 0] s ∧
      OwnWriteStands (fun _ => plantedLogin) s () ∧
      ReturnsFreshSession (fun _ => plantedLogin) s s' () := by
  let stepOf := guard (Unexpired fun _ : Unit => plantedLogin) (step fun _ => plantedLogin)
  have h : (run stepOf (State.init 0) [.begin (), .write () 0]).any (fun s =>
      (s.phase ()).result?.isNone ∧
        s.log = [.wrote () (bytes "planted")] ∧
        (stepOf s (.regenerate () 0 (bytes "fresh"))).any (fun s' =>
          ((s'.phase ()).result?.any fun r => r.1)) = true) = true := by
    decide
  obtain ⟨s, hs, hp⟩ := Option.any_eq_true _ _ |>.mp h
  obtain ⟨hnone, hlog, hp⟩ := of_decide_eq_true hp
  obtain ⟨s', hs', hp'⟩ := Option.any_eq_true _ _ |>.mp hp
  obtain ⟨⟨ok, req, res⟩, hresult, hok⟩ := Option.any_eq_true _ _ |>.mp hp'
  obtain rfl : ok = true := hok
  have hown : OwnWriteStands (fun _ => plantedLogin) s () := by
    refine ⟨(), ⟨1, bytes "ada", bytes "secret"⟩, ⟨1, bytes "ada", bytes "secret"⟩, ?_, ?_, ?_, rfl⟩
    · rw [hlog]
      decide
    · rfl
    · rfl
  have hrun := trace_of_run_guard hs
  exact ⟨s, s', hrun, hown, (login_returns_fresh_session_iff (fun _ => plantedLogin) hrun
    (guarded_of_guard hs') (Option.isNone_iff_eq_none.mp hnone) hresult).mpr hown⟩

end CppLaravel.Session
