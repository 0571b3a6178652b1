import CppLaravel.Cache.ArrayCache
import CppLaravel.Session.Login

/-!
# `CppLaravel.Session.Throttle`: the rate limiter (`include/http_auth.hpp`)

`throttle` keeps, under a key for the path and the client, how many requests there were in the
current window and when it began. The middleware reads the clock itself, and the cache reads it
again in each of its two calls.
-/

set_option autoImplicit false

namespace CppLaravel.Session

open CppLaravel.Cache CppLaravel.Http CppLaravel.Lib

/-- What `steady_clock::now()` reads while a request is throttled, in nanoseconds: for `throttle`
itself, for `get` and for `put`. -/
structure Readings where
  now : Int
  get : Int
  put : Int

/-- A second, in nanoseconds. -/
def second : Int := 1000000000

/-- The client of a request: the address of its peer, the session cookie, or neither. -/
def throttleClient (req : Request) (opts : CookieOptions) : Bytes :=
  if req.remoteAddr ≠ [] then req.remoteAddr
  else
    match req.cookies.lookup opts.name with
    | some value => value
    | none => bytes "anon"

/-- The key of a request in the cache. -/
def throttleKey (req : Request) (opts : CookieOptions) : Bytes :=
  bytes "throttle:" ++ req.path ++ bytes ":" ++ throttleClient req opts

/-- The count and the start that a cached value holds; `none` where there is no separator or
reading them throws. -/
def parseWindow (value : Bytes) : Option (Int × Int) :=
  match find value [124] 0 with
  | none => none
  | some sep =>
    match stoi (substr value 0 sep), stoll (value.drop (sep + 1)) with
    | some count, some start => some (count, start.toInt)
    | _, _ => none

/-- `throttle` up to its call of `next`: the refusal, or nothing when it calls `next`. The length
`window` of a window is in seconds. -/
def throttle (cache : ArrayCache) (max window : Int) (opts : CookieOptions) (req : Request)
    (clock : Readings) : Option Response × ArrayCache :=
  let key := throttleKey req opts
  let now := clock.now.tdiv second
  let (current, cache) := cache.get key clock.get
  let (count, start) := (current.bind parseWindow).getD (0, now)
  let (count, start) := if now - start ≥ window then (0, now) else (count, start)
  let count := count + 1
  let cache := cache.put key (intToString count ++ bytes "|" ++ intToString start)
    (window * second * 2) clock.put
  if count > max then
    let retry := start + window - now
    let r := Response.json (bytes "\x7b\"error\":\"too many requests\"\x7d") 429
    let r := { r with
      headers := r.headers.insert (bytes "Retry-After")
        (intToString (if retry > 0 then retry else window)) }
    (some r, cache)
  else (none, cache)

/-- A request that comes to the limiter. -/
structure Arrival where
  req : Request
  clock : Readings

/-- What the limiter answers to requests that come one after the other. -/
def throttleAll (max window : Int) (opts : CookieOptions) :
    ArrayCache → List Arrival → List (Option Response)
  | _, [] => []
  | cache, a :: arrivals =>
    let (res, cache) := throttle cache max window opts a.req a.clock
    res :: throttleAll max window opts cache arrivals

end CppLaravel.Session
