import CppLaravel.Session.Middleware
import CppLaravel.Session.Operations

/-!
# `CppLaravel.Session.Requests`: requests one after the other over one store

A `Visit` is a request with what its handler does to the session: `Work` is a program that calls the
methods of `Session` and `attempt_login`, and goes on with what they return. `csrf_token`,
`verify_csrf`, `require_auth` and `logout` are such programs. The session of a call is that of the
request's cookie at the time, as `session_of` has it.
-/

set_option autoImplicit false

namespace CppLaravel.Session

open CppLaravel.Http

/-- A method of `Session`. -/
inductive SessionCall where
  | put (key value : Bytes)
  | get (key : Bytes)
  | has (key : Bytes)
  | forget (key : Bytes)
  | flush
deriving DecidableEq

/-- The call of the store that it makes. -/
def SessionCall.on (sid : Bytes) : SessionCall → Op
  | put key value => .put sid key value
  | get key => .get sid key
  | has key => .has sid key
  | forget key => .forget sid key
  | flush => .flush sid

/-- What a handler does. -/
inductive Work where
  | done
  | call (c : SessionCall) (next : Reply → Work)
  | login (users : UserProvider) (username password : Bytes) (next : Bool → Work)

/-- A request, whether `session_middleware` is registered for it, and its handler. `clock` is the
time that the calls of the store read, `mint` are the ids that `new_session_id` gives, call by
call. -/
structure Visit where
  req : Request
  opts : CookieOptions
  registered : Bool
  work : Request → Work
  clock : Nat → Int
  mint : Nat → Bytes

/-- The arguments of `attempt_login` within a visit. -/
def Visit.loginCall (v : Visit) (req : Request) (users : UserProvider)
    (username password : Bytes) : Call :=
  { req := req, res := {}, users := users, username := username, password := password
    opts := v.opts }

/-- What a handler does to the store, from the call `t` of the clock and the id `m` on, with the
replies that it gets. -/
def Work.run (v : Visit) : Work → Nat → Nat → Request → ArraySessionStore →
    List Reply × ArraySessionStore
  | done, _, _, _, s => ([], s)
  | call c next, t, m, req, s =>
    let (reply, s) := s.step (v.clock t) (c.on (sessionOf req v.opts))
    let (replies, s) := (next reply).run v (t + 1) m req s
    (reply :: replies, s)
  | login users username password next, t, m, req, s =>
    let (ok, req, _, s) := attemptLogin (v.loginCall req users username password) s (v.clock t)
      (v.clock (t + 1)) (v.mint m)
    (next ok).run v (t + 2) (m + 1) req s

/-- The request that the handler gets. -/
def Visit.started (v : Visit) : Request :=
  if v.registered then (startSession v.req v.opts (v.mint 0)).1 else v.req

/-- The session id of the request. -/
def Visit.id (v : Visit) : Bytes := sessionOf v.started v.opts

/-- One request. -/
def Visit.run (v : Visit) (s : ArraySessionStore) : List Reply × ArraySessionStore :=
  (v.work v.started).run v 0 1 v.started s

/-- The requests of clients one after the other, each with the replies that its handler got. -/
def serve {K : Type} : List (K × Visit) → ArraySessionStore →
    List (K × List Reply) × ArraySessionStore
  | [], s => ([], s)
  | (k, v) :: visits, s =>
    let (replies, s) := v.run s
    let (rest, s) := serve visits s
    ((k, replies) :: rest, s)

end CppLaravel.Session
