import CppLaravel.Lib.ConstantTime
import CppLaravel.Session.Login

/-!
# `CppLaravel.Session.Middleware`: the session cookie and the CSRF token (`include/http_auth.hpp`)

`session_middleware` is cut at its call of `next`: `startSession` is what it does to the request
before, `finishSession` what it does to the response after. `verifyCsrf` is the refusal of
`verify_csrf`, or nothing when it calls `next`.
-/

set_option autoImplicit false

namespace CppLaravel.Session

open CppLaravel.Http

/-- `parse_cookies`. -/
def parseCookies (header : Bytes) : StringMap := parsePairs header 59 false

/-- `parse_form`. -/
def parseForm (body : Bytes) : StringMap := parsePairs body 38 true

/-- `session_middleware` before `next`, with the id that `new_session_id` mints: the request with
its cookies, and whether the session is a fresh one. -/
def startSession (req : Request) (opts : CookieOptions) (minted : Bytes) : Request × Bool :=
  let cookies := parseCookies ((req.headers.lookup (bytes "Cookie")).getD [])
  let fresh := (cookies.lookup opts.name).isNone
  ({ req with cookies := if fresh then cookies.insert opts.name minted else cookies }, fresh)

/-- `session_middleware` after `next`, on the request as the layers within leave it. It throws
when a fresh session has lost its cookie. -/
def finishSession (req : Request) (opts : CookieOptions) (fresh : Bool) (res : Response) :
    Option Response :=
  if fresh ∧ (res.headers.lookup (bytes "Set-Cookie")).isNone then
    (req.cookies.lookup opts.name).map fun id =>
      { res with headers := res.headers.insert (bytes "Set-Cookie") (cookieHeader id opts) }
  else some res

/-- The key under which a session keeps its token. -/
def csrf : Bytes := bytes "_csrf"

/-- `constant_time_equal`. -/
def constantTimeEqual (a b : Bytes) : Bool :=
  if a.length ≠ b.length then false
  else (a.zip b).foldl (fun diff x => diff ||| (x.1 ^^^ x.2)) 0 = 0

/-- The token that a request provides: the field `_token` of its form, or its header. -/
def provided (req : Request) : Bytes :=
  match (parseForm req.body).lookup (bytes "_token") with
  | some token => token
  | none => (req.headers.lookup (bytes "X-CSRF-Token")).getD []

/-- `verify_csrf`. -/
def verifyCsrf (store : ArraySessionStore) (now : Int) (req : Request) (opts : CookieOptions) :
    Option Response × ArraySessionStore :=
  let (expected, store) := store.get now (sessionOf req opts) csrf
  let refusal := some (Response.json (bytes "\x7b\"error\":\"CSRF token mismatch\"\x7d") 419)
  match expected with
  | none => (refusal, store)
  | some token => if constantTimeEqual (provided req) token then (none, store) else (refusal, store)

/-- `csrf_token`, with the token that `csprng_hex` gives. The two times are those of the two calls
of the store. -/
def csrfToken (store : ArraySessionStore) (now now' : Int) (sid token : Bytes) :
    Bytes × ArraySessionStore :=
  let (t, store) := store.get now sid csrf
  match t with
  | some t => (t, store)
  | none => (token, store.put now' sid csrf token)

/-! ### Comparing tokens -/

/-- The comparison tells the tokens apart. -/
theorem constantTimeEqual_iff {a b : Bytes} : constantTimeEqual a b = true ↔ a = b := Lib.same_iff

/-- What `verify_csrf` lets pass. -/
theorem verifyCsrf_eq_none_iff {store : ArraySessionStore} {now : Int} {req : Request}
    {opts : CookieOptions} : (verifyCsrf store now req opts).1 = none ↔
      (store.get now (sessionOf req opts) csrf).1 = some (provided req) := by
  unfold verifyCsrf
  generalize store.get now (sessionOf req opts) csrf = x
  obtain ⟨_ | token, store'⟩ := x
  · simp
  · by_cases h : provided req = token
    · simp [constantTimeEqual_iff.mpr, h]
    · simp [mt constantTimeEqual_iff.mp h, Ne.symm h]

end CppLaravel.Session
