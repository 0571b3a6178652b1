import CppLaravel.Proofs.Session.LastWriter

/-!
# `CppLaravel.Proofs.Session.Fixation`: the id a login was presented with

A login renames its session so that an id planted before the login does not lead into the
account. `attempt_login` writes `auth_id` first and renames afterwards, and both are calls of
a store that other requests use meanwhile.

* `planted_id_admits_no_one`: every request that passes `require_auth` does so because of a
  login that was presented with another id, in every run in which no request is checked
  between a login's write under its id and the next rename of that id (`Unexposed`).
* `exposed_check_passes`: the condition is exact. A check made in between passes because of
  such a login, as long as the session does not expire.
* `check_passes_before_rename`: the property fails without the condition.
* `passed_because`: every check that passes does so because of some login.
-/

set_option autoImplicit false

namespace CppLaravel.Session

open CppLaravel.Lib
open CppLaravel.Http

variable {L : Type}

/-- The id that a checked request presents. -/
def Action.checked? : Action L → Option Bytes
  | .check opts req _ => some (sessionOf req opts)
  | _ => none

/-- A request presenting the id `p` has passed `require_auth` because of login `l`. -/
def PassedBecauseOf (log : List (Event L)) (p : Bytes) (l : L) : Prop :=
  ∃ earlier, .checked p true :: earlier <:+ log ∧ author earlier p = some l

/-- A request is only checked when no login has written `auth_id` to its session, or the
session has been renamed since. -/
def Unexposed (s : State L) (a : Action L) : Prop :=
  ∀ p ∈ a.checked?, lastWriter s.log p = none

instance [DecidableEq L] (s : State L) (a : Action L) : Decidable (Unexposed s a) :=
  inferInstanceAs (Decidable (∀ p ∈ a.checked?, _))

variable [DecidableEq L] {call : L → Call} {s s' : State L} {a : Action L}

/-- A step adds at most one event, and a check only where a request is checked. -/
theorem log_step (hstep : LoginStep call s a s') :
    s'.log = s.log ∨ ∃ e, s'.log = e :: s.log ∧
      ∀ p passed, e = .checked p passed →
        p ∈ a.checked? ∧ ∃ now, passed = (s.store.has now p authId).1 := by
  cases hstep with
  | refuse hidle hno => exact .inl rfl
  | begin hidle huser => exact .inl rfl
  | @write l user now hl => exact .inr ⟨_, rfl, fun p passed h => by cases h⟩
  | @regenerate l user now fresh hl hfresh => exact .inr ⟨_, rfl, fun p passed h => by cases h⟩
  | check opts req now =>
    refine .inr ⟨_, log_checked s opts req now, fun p passed h => ?_⟩
    cases h
    exact ⟨rfl, now, rfl⟩
  | read sid key now => exact .inl rfl
  | keep sid value now hkey => exact .inl rfl

/-- What holds of every check when it is made holds of every check in the history. Along the
run an invariant `I` is available, and the condition `G` on the steps taken. -/
theorem checked_run {I : State L → Prop} {G : State L → Action L → Prop}
    {P : List (Event L) → Bytes → Bool → Prop} {ttl : Int} {as : List (Action L)}
    (h : Trace (Guarded G (Steps (step call))) (State.init ttl) as s) (hinit : I (State.init ttl))
    (hkeep : ∀ s a s', I s → LoginStep call s a s' → I s')
    (hnew : ∀ s a, I s → G s a → ∀ p ∈ a.checked?, ∀ now,
      P s.log p (s.store.has now p authId).1) {p : Bytes} {passed : Bool}
    {earlier : List (Event L)} (hcheck : .checked p passed :: earlier <:+ s.log) :
    P earlier p passed := by
  have hinv : I s ∧ ∀ p passed earlier, .checked p passed :: earlier <:+ s.log →
      P earlier p passed := by
    refine h.invariant (P := fun s => I s ∧ ∀ p passed earlier,
      .checked p passed :: earlier <:+ s.log → P earlier p passed) ?_ ⟨hinit, ?_⟩
    · rintro s a s' ⟨hI, hold⟩ ⟨hG, hstep⟩
      have hstep : LoginStep call s a s' := loginStep_of_step hstep
      refine ⟨hkeep s a s' hI hstep, ?_⟩
      intro p passed earlier hsuffix
      obtain hlog | ⟨e, hlog, he⟩ := log_step hstep
      · rw [hlog] at hsuffix
        exact hold p passed earlier hsuffix
      · -- The check is the event of this step, or an earlier one.
        rw [hlog, List.suffix_cons_iff] at hsuffix
        obtain heq | hsuffix := hsuffix
        · obtain ⟨rfl, rfl⟩ := List.cons.inj heq
          obtain ⟨hp, now, rfl⟩ := he p passed rfl
          exact hnew s a hI hG p hp now
        · exact hold p passed earlier hsuffix
    · intro p passed earlier hnil
      exact absurd (List.suffix_nil.mp hnil) (List.cons_ne_nil _ _)
  exact hinv.2 p passed earlier hcheck

omit [DecidableEq L] in
/-- A session that passes the check holds an `auth_id`, and some login is its author. -/
theorem author_of_has (hheld : Held call s) {now : Int} {p : Bytes}
    (hpass : (s.store.has now p authId).1 = true) :
    ∃ l, author s.log p = some l := by
  rw [ArraySessionStore.has_fst, Option.isSome_iff_exists] at hpass
  obtain ⟨v, hv⟩ := hpass
  obtain ⟨l, user, hauthor, -⟩ := hheld p v (ArraySessionStore.value_of_value_dropIfExpired hv)
  exact ⟨l, hauthor⟩

/-- Every check that passes does so because of some login. -/
theorem passed_because {ttl : Int} {as : List (Action L)}
    (h : Trace (Steps (step call)) (State.init ttl) as s) {p : Bytes}
    {earlier : List (Event L)} (hpass : .checked p true :: earlier <:+ s.log) :
    ∃ l, author earlier p = some l := by
  have hall : Trace (Guarded (fun _ _ => True) (Steps (step call))) (State.init ttl) as s :=
    h.mono fun _ _ _ hstep => ⟨trivial, hstep⟩
  refine checked_run (I := fun s => Seen call s ∧ Held call s)
    (P := fun earlier p passed => passed = true → ∃ l, author earlier p = some l) hall
    ⟨.init ttl, .init ttl⟩ ?_ ?_ hpass rfl
  · rintro s a s' ⟨hseen, hheld⟩ hstep
    exact ⟨seen_step hseen hstep, held_step hheld hseen hstep⟩
  · rintro s a ⟨-, hheld⟩ - p - now hpass
    exact author_of_has hheld hpass

/-- No check has an author that was presented with the checked id. -/
theorem presented_ne_of_author {ttl : Int} {as : List (Action L)}
    (h : Trace (Guarded Unexposed (Steps (step call))) (State.init ttl) as s) {p : Bytes}
    {passed : Bool} {earlier : List (Event L)} (hcheck : .checked p passed :: earlier <:+ s.log)
    {l : L} (hauthor : author earlier p = some l) : (call l).presented ≠ p := by
  refine checked_run (I := fun s => Seen call s ∧ Settled call s)
    (P := fun earlier p _ => ∀ l, author earlier p = some l → (call l).presented ≠ p) h
    ⟨.init ttl, .init ttl⟩ ?_ ?_ hcheck l hauthor
  · rintro s a s' ⟨hseen, hsettled⟩ hstep
    exact ⟨seen_step hseen hstep, settled_step hsettled hseen hstep⟩
  · rintro s a ⟨-, hsettled⟩ hunexposed p hp now l hauthor hpresented
    -- The author would be the last writer, and there is none.
    have hlast := (hsettled l p).mpr ⟨hauthor, hpresented⟩
    rw [hunexposed p hp] at hlast
    cases hlast

/-- **The planted id admits no one.** When no request is checked between a login's write
under the request's id and the next rename of that id, every request that passes does so
because of a login, and that login was presented with another id. -/
theorem planted_id_admits_no_one (call : L → Call) {ttl : Int} {as : List (Action L)}
    (h : Trace (Guarded Unexposed (Steps (step call))) (State.init ttl) as s) (p : Bytes) :
    (∀ l, PassedBecauseOf s.log p l → (call l).presented ≠ p) ∧
      ∀ earlier, .checked p true :: earlier <:+ s.log → ∃ l, author earlier p = some l :=
  ⟨fun _ ⟨_, hcheck, hauthor⟩ => presented_ne_of_author h hcheck hauthor,
    fun _ hpass => passed_because h.of_guarded hpass⟩

/-- The condition is exact: in a run without expiry, a request checked while a login's write
under its id stands passes because of a login that was presented with that id. -/
theorem exposed_check_passes {ttl : Int} {as : List (Action L)}
    (h : Trace (Guarded (Unexpired call) (Steps (step call))) (State.init ttl) as s)
    {opts : CookieOptions} {req : Request} {now : Int} {l : L}
    (hlive : Unexpired call s (.check opts req now))
    (hlast : lastWriter s.log (sessionOf req opts) = some l) :
    (call l).presented = sessionOf req opts ∧
      PassedBecauseOf (s.checked opts req now).log (sessionOf req opts) l := by
  obtain ⟨hseen, hsettled, hwritten⟩ := written_run h
  obtain ⟨hauthor, hpresented⟩ := (hsettled l _).mp hlast
  obtain ⟨user, -, hvalue⟩ := hwritten.stored l _ hlast
  have hpass : (s.store.has now (sessionOf req opts) authId).1 = true := by
    rw [ArraySessionStore.has_fst,
      ArraySessionStore.dropIfExpired_of_not_expired (hlive _ rfl), hvalue]
    rfl
  refine ⟨hpresented, s.log, ?_, hauthor⟩
  rw [log_checked, hpass]

/-- A user, and how the credentials are checked. -/
def ada : UserProvider where
  retrieveByCredentials := fun username =>
    if username = bytes "ada" then some ⟨1, bytes "ada", bytes "secret"⟩ else none
  validate := fun user password => password = user.password

/-- A request with the session id in the default cookie. -/
def requestOf (id : Bytes) : Request where
  method := bytes "GET"
  path := bytes "/admin"
  headers := ∅
  body := []
  cookies := Finmap.singleton (bytes "lwsid") id

/-- A login with good credentials, presented with an id that someone has planted. -/
def plantedLogin : Call where
  req := requestOf (bytes "planted")
  res := {}
  users := ada
  username := bytes "ada"
  password := bytes "secret"

/-- **The planted id admits a request during the login.** Another worker checks a request
with the planted id between the login's write and its rename, and lets it pass. -/
theorem check_passes_before_rename :
    ∃ s, Trace (Steps (step fun _ : Unit => plantedLogin)) (State.init 0)
        [.begin (), .write () 0, .check {} (requestOf (bytes "planted")) 0] s ∧
      PassedBecauseOf s.log plantedLogin.presented () := by
  have h : (run (step fun _ : Unit => plantedLogin) (State.init 0)
      [.begin (), .write () 0, .check {} (requestOf (bytes "planted")) 0]).any (fun s =>
        s.log = [.checked (bytes "planted") true, .wrote () (bytes "planted")]) = true := by
    decide
  obtain ⟨s, hs, hlog⟩ := Option.any_eq_true _ _ |>.mp h
  refine ⟨s, trace_iff_run.mpr hs, [.wrote () (bytes "planted")], ?_, by decide⟩
  rw [of_decide_eq_true hlog]
  exact List.suffix_rfl

/-- After the login the fresh id passes and the planted one does not. -/
theorem planted_id_admits_no_one_applies :
    ∃ s, Trace (Guarded Unexposed (Steps (step fun _ : Unit => plantedLogin))) (State.init 0)
        [.begin (), .write () 0, .regenerate () 0 (bytes "fresh"),
          .check {} (requestOf (bytes "planted")) 0, .check {} (requestOf (bytes "fresh")) 0] s ∧
      PassedBecauseOf s.log (bytes "fresh") () ∧ plantedLogin.presented ≠ bytes "fresh" := by
  have h : (run (guard Unexposed (step fun _ : Unit => plantedLogin)) (State.init 0)
      [.begin (), .write () 0, .regenerate () 0 (bytes "fresh"),
        .check {} (requestOf (bytes "planted")) 0, .check {} (requestOf (bytes "fresh")) 0]).any
      (fun s => s.log = [.checked (bytes "fresh") true, .checked (bytes "planted") false,
        .renamed () (bytes "planted") (bytes "fresh"), .wrote () (bytes "planted")])
      = true := by
    decide
  obtain ⟨s, hs, hlog⟩ := Option.any_eq_true _ _ |>.mp h
  have hpass : PassedBecauseOf s.log (bytes "fresh") () := by
    rw [of_decide_eq_true hlog]
    exact ⟨_, List.suffix_rfl, by decide⟩
  have hrun := trace_of_run_guard hs
  exact ⟨s, hrun, hpass, (planted_id_admits_no_one (fun _ => plantedLogin) hrun _).1 () hpass⟩

end CppLaravel.Session
