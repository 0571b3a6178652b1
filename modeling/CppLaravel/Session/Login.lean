import CppLaravel.Lib.Transition
import CppLaravel.Session.Store

/-!
# `CppLaravel.Session.Login`: logins over a shared store (`include/http_auth.hpp`, `auth.hpp`)

`attemptLogin` is `httpauth::attempt_login` with its calls of the store in order: the
credentials are checked, `Guard::login` writes `auth_id` under the presented session id, and
`Session::regenerate_id` renames the session to a fresh id.

`step` runs any number of such calls in parallel. The store is atomic call by call, so a
login takes three steps: `begin` reads the request and checks the credentials, `write` is
the `put` of `auth_id`, and `regenerate` is the `rename`, after which the call returns. In
between, requests are checked by `require_auth` and handlers read and store other keys.
`new_session_id` is an input of `regenerate`; it never repeats an id that a login presented
or that was minted before. `attemptLogin_eq_run` says that a login whose steps run
undisturbed is `attemptLogin`.

The state keeps a history of the writes, renames and checks. No step reads it.
-/

set_option autoImplicit false

namespace CppLaravel.Session

open CppLaravel.Lib
open CppLaravel.Http

/-- `AuthUser`. -/
structure AuthUser where
  id : Int64
  username : Bytes
  password : Bytes

/-- What `Guard::attempt` asks of a `UserProvider`. -/
structure UserProvider where
  retrieveByCredentials : Bytes → Option AuthUser
  validate : AuthUser → Bytes → Bool

/-- `CookieOptions`. -/
structure CookieOptions where
  name : Bytes := bytes "lwsid"
  path : Bytes := bytes "/"
  httpOnly : Bool := true
  secure : Bool := false
  sameSite : Bytes := bytes "Lax"

/-- `cookie_header`. -/
def cookieHeader (value : Bytes) (o : CookieOptions) : Bytes :=
  o.name ++ bytes "=" ++ value ++ bytes "; Path=" ++ o.path
    ++ (if o.httpOnly then bytes "; HttpOnly" else [])
    ++ (if o.secure then bytes "; Secure" else [])
    ++ (if o.sameSite ≠ [] then bytes "; SameSite=" ++ o.sameSite else [])

/-- `session_of`: the id of the request's session, empty without the cookie. -/
def sessionOf (req : Request) (opts : CookieOptions) : Bytes :=
  (req.cookies.lookup opts.name).getD []

/-- The key under which the guard keeps the logged-in user. -/
def authId : Bytes := bytes "auth_id"

/-- `require_auth`: the refusal, or nothing when the next handler is called. -/
def requireAuth (store : ArraySessionStore) (now : Int) (req : Request) (opts : CookieOptions) :
    Option Response × ArraySessionStore :=
  let (ok, store) := store.has now (sessionOf req opts) authId
  if ok then (none, store)
  else (some (Response.json (bytes "\x7b\"error\":\"unauthenticated\"\x7d") 401), store)

/-- The arguments of one call of `attempt_login`, without the store. -/
structure Call where
  req : Request
  res : Response
  users : UserProvider
  username : Bytes
  password : Bytes
  opts : CookieOptions := {}

namespace Call

/-- The session id the login is presented with. -/
def presented (c : Call) : Bytes := sessionOf c.req c.opts

/-- The user that `Guard::attempt` logs in. -/
def attempt (c : Call) : Option AuthUser :=
  match c.users.retrieveByCredentials c.username with
  | none => none
  | some user => if c.users.validate user c.password then some user else none

/-- The request and the response after the id is stamped on both. -/
def stamp (c : Call) (id : Bytes) : Request × Response :=
  ({ c.req with cookies := c.req.cookies.insert c.opts.name id },
    { c.res with headers := c.res.headers.insert (bytes "Set-Cookie") (cookieHeader id c.opts) })

end Call

/-- `Guard::login`. -/
def login (store : ArraySessionStore) (now : Int) (sid : Bytes) (user : AuthUser) :
    ArraySessionStore :=
  store.put now sid authId (intToString user.id.toInt)

/-- `Session::regenerate_id`, with the id that `new_session_id` mints. -/
def regenerateId (store : ArraySessionStore) (now : Int) (id fresh : Bytes) :
    Bytes × ArraySessionStore :=
  let (ok, store) := store.rename now id fresh
  (if ok then fresh else id, store)

/-- `attempt_login`: the returned value, the request and the response, and the store. The
two times are those of the two calls of the store. -/
def attemptLogin (c : Call) (store : ArraySessionStore) (now now' : Int) (fresh : Bytes) :
    Bool × Request × Response × ArraySessionStore :=
  match c.attempt with
  | none => (false, c.req, c.res, store)
  | some user =>
    let store := login store now c.presented user
    let (id, store) := regenerateId store now' c.presented fresh
    let (req, res) := c.stamp id
    (true, req, res, store)

/-! ### Logins in parallel -/

/-- How far a login has come. -/
inductive Phase
  | idle
  | authenticated (user : AuthUser)
  | written (user : AuthUser)
  | returned (ok : Bool) (req : Request) (res : Response)

/-- What happened to the sessions' `auth_id`, and who asked for it. -/
inductive Event (L : Type)
  | wrote (l : L) (sid : Bytes)
  | renamed (l : L) (src dst : Bytes)
  | checked (sid : Bytes) (passed : Bool)
deriving DecidableEq

/-- The shared store, the logins, the session ids presented or minted so far, and the
history, latest event first. -/
structure State (L : Type) where
  store : ArraySessionStore
  phase : L → Phase
  ids : List Bytes
  log : List (Event L)

/-- The steps of the logins and of the other requests. -/
inductive Action (L : Type)
  | begin (l : L)
  | write (l : L) (now : Int)
  | regenerate (l : L) (now : Int) (fresh : Bytes)
  | check (opts : CookieOptions) (req : Request) (now : Int)
  | read (sid key : Bytes) (now : Int)
  | keep (sid key value : Bytes) (now : Int)

variable {L : Type}

/-- No session, no login. -/
def State.init (ttl : Int) : State L := ⟨.new ttl, fun _ => .idle, [], []⟩

variable [DecidableEq L]

namespace State

/-- Login `l` goes on to the phase `ph`. -/
def goto (s : State L) (l : L) (ph : Phase) : State L :=
  { s with phase := Function.update s.phase l ph }

/-- After login `l` has read its request. -/
def begun (s : State L) (c : Call) (l : L) (ph : Phase) : State L :=
  { s with ids := c.presented :: s.ids }.goto l ph

/-- After the `put` of login `l`. -/
def written (s : State L) (c : Call) (l : L) (now : Int) (user : AuthUser) : State L :=
  { s with
      store := login s.store now c.presented user
      log := .wrote l c.presented :: s.log }.goto l (.written user)

/-- After the `rename` of login `l`, which then returns. -/
def regenerated (s : State L) (c : Call) (l : L) (now : Int) (fresh : Bytes) : State L :=
  let (id, store) := regenerateId s.store now c.presented fresh
  let (req, res) := c.stamp id
  { s with
      store := store
      ids := fresh :: s.ids
      log := .renamed l c.presented fresh :: s.log }.goto l (.returned true req res)

/-- After `require_auth` has checked a request. -/
def checked (s : State L) (opts : CookieOptions) (req : Request) (now : Int) : State L :=
  let (refusal, store) := requireAuth s.store now req opts
  { s with store := store, log := .checked (sessionOf req opts) refusal.isNone :: s.log }

end State

/-- One step. A step that the code cannot take in the state is none. -/
def step (call : L → Call) (s : State L) : Action L → Option (State L)
  | .begin l =>
    match s.phase l with
    | .idle =>
      match (call l).attempt with
      | none => some (s.begun (call l) l (.returned false (call l).req (call l).res))
      | some user => some (s.begun (call l) l (.authenticated user))
    | _ => none
  | .write l now =>
    match s.phase l with
    | .authenticated user => some (s.written (call l) l now user)
    | _ => none
  | .regenerate l now fresh =>
    match s.phase l with
    | .written _ => if fresh ∈ s.ids then none else some (s.regenerated (call l) l now fresh)
    | _ => none
  | .check opts req now => some (s.checked opts req now)
  | .read sid key now => some { s with store := (s.store.get now sid key).2 }
  -- Only the guard writes `auth_id`.
  | .keep sid key value now =>
    if key = authId then none else some { s with store := s.store.put now sid key value }

/-- What one step can do. -/
inductive LoginStep (call : L → Call) (s : State L) : Action L → State L → Prop
  | refuse {l : L} : s.phase l = .idle → (call l).attempt = none →
      LoginStep call s (.begin l)
        (s.begun (call l) l (.returned false (call l).req (call l).res))
  | begin {l : L} {user : AuthUser} : s.phase l = .idle → (call l).attempt = some user →
      LoginStep call s (.begin l) (s.begun (call l) l (.authenticated user))
  | write {l : L} {user : AuthUser} (now : Int) : s.phase l = .authenticated user →
      LoginStep call s (.write l now) (s.written (call l) l now user)
  | regenerate {l : L} {user : AuthUser} (now : Int) {fresh : Bytes} :
      s.phase l = .written user → fresh ∉ s.ids →
      LoginStep call s (.regenerate l now fresh) (s.regenerated (call l) l now fresh)
  | check (opts : CookieOptions) (req : Request) (now : Int) :
      LoginStep call s (.check opts req now) (s.checked opts req now)
  | read (sid key : Bytes) (now : Int) :
      LoginStep call s (.read sid key now) { s with store := (s.store.get now sid key).2 }
  | keep (sid : Bytes) {key : Bytes} (value : Bytes) (now : Int) : key ≠ authId →
      LoginStep call s (.keep sid key value now)
        { s with store := s.store.put now sid key value }

/-- A step of the code is one of these. -/
theorem loginStep_of_step {call : L → Call} {s s' : State L} {a : Action L}
    (h : step call s a = some s') : LoginStep call s a s' := by
  cases a with
  | begin l =>
    simp only [step] at h
    split at h
    · rename_i hidle
      split at h <;> cases h
      · exact .refuse hidle ‹_›
      · exact .begin hidle ‹_›
    · cases h
  | write l now =>
    simp only [step] at h
    split at h <;> cases h
    exact .write now ‹_›
  | regenerate l now fresh =>
    simp only [step] at h
    split at h
    · rename_i hwritten
      split at h <;> cases h
      exact .regenerate now hwritten ‹_›
    · cases h
  | check opts req now =>
    cases h
    exact .check opts req now
  | read sid key now =>
    cases h
    exact .read sid key now
  | keep sid key value now =>
    simp only [step] at h
    split at h <;> cases h
    exact .keep sid value now ‹_›

/-- A login whose steps run undisturbed is `attempt_login`. -/
theorem attemptLogin_eq_run {call : L → Call} {s : State L} {l : L} {user : AuthUser}
    {now now' : Int} {fresh : Bytes} (hidle : s.phase l = .idle)
    (huser : (call l).attempt = some user) (hfresh : fresh ∉ (call l).presented :: s.ids) :
    ∃ s', run (step call) s [.begin l, .write l now, .regenerate l now' fresh] = some s' ∧
      ∃ req res, s'.phase l = .returned true req res ∧
        attemptLogin (call l) s.store now now' fresh = (true, req, res, s'.store) := by
  let s₁ := s.begun (call l) l (.authenticated user)
  let s₂ := s₁.written (call l) l now user
  let s₃ := s₂.regenerated (call l) l now' fresh
  have h₁ : step call s (.begin l) = some s₁ := by simp only [step, hidle, huser, s₁]
  have h₂ : step call s₁ (.write l now) = some s₂ := by
    simp only [step, s₁, s₂, State.begun, State.goto, Function.update_self]
  have h₃ : step call s₂ (.regenerate l now' fresh) = some s₃ := by
    simp only [step, s₁, s₂, s₃, State.written, State.begun, State.goto, Function.update_self]
    rw [if_neg hfresh]
  refine ⟨s₃, by simp only [run, h₁, h₂, h₃, Option.bind_some], _, _, Function.update_self .., ?_⟩
  simp only [attemptLogin, huser]
  rfl

end CppLaravel.Session
