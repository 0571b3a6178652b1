import CppLaravel.Proofs.Http.Recased
import CppLaravel.Session.Middleware

/-!
# `CppLaravel.Proofs.Session.HeaderCase`: the letters of a header name

`session_middleware` and `verify_csrf` ask the header map for `Cookie` and `X-CSRF-Token` as they
are spelled here, and the map keeps the names as the client spelled them. So a session cookie is
found or not by the letters of its header (`lowercase_cookie_is_lost`), and a request is decided
alike in all spellings exactly if it brings no session cookie (`decided_alike_iff`).
-/

set_option autoImplicit false

namespace CppLaravel.Session

open CppLaravel.Http

/-- What is decided about a request before its handler runs: the session it uses, the `Set-Cookie`
that its response will have, whatever the handler answers, and whether it passes `verify_csrf`. -/
structure Decisions where
  sid : Bytes
  setCookie : Response → Option Bytes
  passes : Bool

/-- A raw request is parsed, gets its session and comes to `verify_csrf`; `minted` is the id that a
fresh session would get. -/
def decisions (store : ArraySessionStore) (now : Int) (opts : CookieOptions) (minted raw : Bytes) :
    Option Decisions :=
  (parseHttpRequest raw).map fun req =>
    let (req, fresh) := startSession req opts minted
    { sid := sessionOf req opts
      setCookie := fun res =>
        (finishSession req opts fresh res).bind fun res => res.headers.lookup (bytes "Set-Cookie")
      passes := (verifyCsrf store now req opts).1.isNone }

/-- The request line is one. -/
def IsRequest (raw : Bytes) : Prop := (splitRequestLine (requestLine (headOf raw))).isSome

/-- No header line is a `Cookie` line, in any letters, that has the session cookie. And no header
line is an `X-CSRF-Token` line that would make a difference in a fresh session; there is none where
the fresh session has no token yet. -/
def BringsNoSession (store : ArraySessionStore) (now : Int) (opts : CookieOptions)
    (minted raw : Bytes) : Prop :=
  (∀ f ∈ fields (headOf raw), lower (trim f.1) = bytes "cookie" →
    (parseCookies (trim f.2)).lookup opts.name = none) ∧
  ∀ token, (store.get now minted csrf).1 = some token →
    (parseForm (bodyOf raw)).lookup (bytes "_token") = none →
    ∀ f ∈ fields (headOf raw), lower (trim f.1) = bytes "x-csrf-token" →
      (trim f.2 = token ↔ [] = token)

/-! ### What is decided -/

theorem parseCookies_nil : parseCookies [] = ∅ := by
  rw [parseCookies, parsePairs, pairsLoop]
  rfl

theorem isSome_parseHttpRequest (raw : Bytes) : (parseHttpRequest raw).isSome ↔ IsRequest raw := by
  unfold parseHttpRequest IsRequest
  cases splitRequestLine (requestLine (headOf raw)) with
  | none => simp
  | some x => simp

theorem body_of_parseHttpRequest {raw : Bytes} {req : Request}
    (h : parseHttpRequest raw = some req) : req.body = bodyOf raw := by
  unfold parseHttpRequest at h
  split at h
  · cases h
  · cases h
    rfl

/-- The value that the header map has under a name. -/
def headerOf (raw name : Bytes) : Bytes := ((parseHeaders (headOf raw)).lookup name).getD []

/-- The token that a raw request provides. -/
def tokenOf (raw : Bytes) : Bytes :=
  match (parseForm (bodyOf raw)).lookup (bytes "_token") with
  | some token => token
  | none => headerOf raw (bytes "X-CSRF-Token")

variable {store : ArraySessionStore} {now : Int} {opts : CookieOptions} {minted raw : Bytes}

/-- What is decided about a request without a session. -/
def freshDecisions (store : ArraySessionStore) (now : Int) (opts : CookieOptions)
    (minted token : Bytes) : Decisions where
  sid := minted
  setCookie res :=
    if (res.headers.lookup (bytes "Set-Cookie")).isNone then some (cookieHeader minted opts)
    else res.headers.lookup (bytes "Set-Cookie")
  passes := decide ((store.get now minted csrf).1 = some token)

/-- Without a session cookie the request gets a fresh session. -/
theorem decisions_fresh (hrequest : IsRequest raw)
    (hcookie : (parseCookies (headerOf raw (bytes "Cookie"))).lookup opts.name = none) :
    decisions store now opts minted raw =
      some (freshDecisions store now opts minted (tokenOf raw)) := by
  obtain ⟨req, hreq⟩ := Option.isSome_iff_exists.mp ((isSome_parseHttpRequest raw).mpr hrequest)
  have hheaders := headers_of_parseHttpRequest hreq
  have hbody := body_of_parseHttpRequest hreq
  have hprovided : provided req = tokenOf raw := by
    rw [provided, tokenOf, hheaders, hbody]
    rfl
  have hcookies : (parseCookies ((req.headers.lookup (bytes "Cookie")).getD [])).lookup opts.name
      = none := by
    rw [hheaders]
    exact hcookie
  -- No cookie names the session, so one is minted and put among the cookies.
  have hstart : startSession req opts minted =
      ({ req with
          cookies := (parseCookies ((req.headers.lookup (bytes "Cookie")).getD [])).insert
            opts.name minted }, true) := by
    simp [startSession, hcookies]
  -- The token is compared with the one that the minted session has.
  have hpasses : ∀ cookies : StringMap, cookies.lookup opts.name = some minted →
      (verifyCsrf store now { req with cookies := cookies } opts).1.isNone =
        decide ((store.get now minted csrf).1 = some (tokenOf raw)) := by
    intro cookies hsid
    rw [Bool.eq_iff_iff, Option.isNone_iff_eq_none, verifyCsrf_eq_none_iff, decide_eq_true_iff,
      ← hprovided]
    show (store.get now ((cookies.lookup opts.name).getD []) csrf).1 = some (provided req) ↔ _
    rw [hsid, Option.getD_some]
  rw [decisions, hreq, Option.map_some, hstart]
  simp only [freshDecisions, sessionOf, Finmap.lookup_insert, Option.getD_some, Option.some.injEq,
    Decisions.mk.injEq, true_and]
  refine ⟨funext fun res => ?_, hpasses _ (Finmap.lookup_insert _)⟩
  by_cases hset : (res.headers.lookup (bytes "Set-Cookie")).isNone
  · simp [finishSession, hset]
  · simp [finishSession, hset]

/-- A request with a session cookie gets no `Set-Cookie`. -/
theorem setCookie_of_held {d : Decisions} {id : Bytes}
    (hcookie : (parseCookies (headerOf raw (bytes "Cookie"))).lookup opts.name = some id)
    (h : decisions store now opts minted raw = some d) : d.setCookie {} = none := by
  obtain ⟨req, hreq, rfl⟩ := Option.map_eq_some_iff.mp h
  have hheaders := headers_of_parseHttpRequest hreq
  have hstart : (startSession req opts minted).2 = false := by
    rw [headerOf, ← hheaders] at hcookie
    simp [startSession, hcookie]
  have hset : ({} : Response).headers.lookup (bytes "Set-Cookie") = none := by decide
  simp [finishSession, hstart, hset]

/-- What the header map has under a name is the value of a line of that name, or nothing. -/
theorem headerOf_of_recased {raw' : Bytes} (h : Recased raw raw') (name : Bytes) :
    headerOf raw' name = [] ∨
      ∃ f ∈ fields (headOf raw), lower (trim f.1) = lower name ∧ trim f.2 = headerOf raw' name := by
  unfold headerOf
  cases hv : (parseHeaders (headOf raw')).lookup name with
  | none => exact .inl rfl
  | some v => exact .inr (h.field_of_stored hv)

theorem isRequest_of_recased {raw' : Bytes} (h : Recased raw raw') :
    IsRequest raw' ↔ IsRequest raw := by
  rw [IsRequest, IsRequest, h.requestLine]

/-- A request that brings no session is decided like one without headers. -/
theorem decisions_of_bringsNoSession {raw' : Bytes} (h : Recased raw raw')
    (hrequest : IsRequest raw) (hnone : BringsNoSession store now opts minted raw) :
    decisions store now opts minted raw' = some (freshDecisions store now opts minted
      (((parseForm (bodyOf raw)).lookup (bytes "_token")).getD [])) := by
  have hcookie : (parseCookies (headerOf raw' (bytes "Cookie"))).lookup opts.name = none := by
    rcases headerOf_of_recased h (bytes "Cookie") with hv | ⟨f, hf, hname, hv⟩
    · rw [hv, parseCookies_nil, Finmap.lookup_empty]
    · rw [← hv]
      exact hnone.1 f hf (hname.trans (by decide))
  rw [decisions_fresh ((isRequest_of_recased h).mpr hrequest) hcookie]
  have hpasses : ((store.get now minted csrf).1 = some (tokenOf raw')) ↔
      (store.get now minted csrf).1 =
        some (((parseForm (bodyOf raw)).lookup (bytes "_token")).getD []) := by
    unfold tokenOf
    rw [h.bodyOf_eq]
    cases hform : (parseForm (bodyOf raw)).lookup (bytes "_token") with
    | some token => exact Iff.rfl
    | none =>
      cases htoken : (store.get now minted csrf).1 with
      | none => simp
      | some token =>
        simp only [Option.getD_none, Option.some.injEq]
        rcases headerOf_of_recased h (bytes "X-CSRF-Token") with hv | ⟨f, hf, hname, hv⟩
        · rw [hv]
        · have hiff := hnone.2 token htoken hform f hf (hname.trans (by decide))
          rw [← hv, eq_comm, hiff, eq_comm]
  simp only [freshDecisions, hpasses]

/-- **Exactly the requests that bring no session are decided alike in all spellings.** -/
theorem decided_alike_iff (store : ArraySessionStore) (now : Int) (opts : CookieOptions)
    (minted raw : Bytes) :
    (∀ raw', Recased raw raw' →
      decisions store now opts minted raw' = decisions store now opts minted raw) ↔
      (IsRequest raw → BringsNoSession store now opts minted raw) := by
  constructor
  · intro hall hrequest
    -- In lower case nothing is found.
    obtain ⟨raw₀, h₀, hlookup₀⟩ := exists_lowered raw
    have hnone : ∀ name, lower name ≠ name → headerOf raw₀ name = [] := by
      intro name hname
      rw [headerOf, hlookup₀ name hname]
      rfl
    have hcookie₀ : (parseCookies (headerOf raw₀ (bytes "Cookie"))).lookup opts.name = none := by
      rw [hnone _ (by decide), parseCookies_nil, Finmap.lookup_empty]
    have hfresh₀ : decisions store now opts minted raw₀ =
        some (freshDecisions store now opts minted (tokenOf raw₀)) :=
      decisions_fresh ((isRequest_of_recased h₀).mpr hrequest) hcookie₀
    refine ⟨fun f hf hname => ?_, fun token htoken hform f hf hname => ?_⟩
    · -- With the line spelled `Cookie`, its cookies are those of the request.
      obtain ⟨raw₁, h₁, hlookup₁⟩ := exists_spelled (bytes "Cookie") (by decide +kernel)
        (by decide) hf (hname.trans (by decide))
      have hcookie₁ : headerOf raw₁ (bytes "Cookie") = trim f.2 := by
        rw [headerOf, hlookup₁ _ (by decide), if_pos rfl]
        rfl
      have hsame : decisions store now opts minted raw₁ = decisions store now opts minted raw₀ :=
        (hall raw₁ h₁).trans (hall raw₀ h₀).symm
      cases hheld : (parseCookies (trim f.2)).lookup opts.name with
      | none => rfl
      | some id =>
        rw [← hcookie₁] at hheld
        have hset := setCookie_of_held hheld (hsame.trans hfresh₀)
        have hmissing : ({} : Response).headers.lookup (bytes "Set-Cookie") = none := by decide
        simp [freshDecisions, hmissing] at hset
    · -- With the line spelled `X-CSRF-Token`, its value is the token of the request.
      obtain ⟨raw₁, h₁, hlookup₁⟩ := exists_spelled (bytes "X-CSRF-Token")
        (by decide +kernel) (by decide) hf (hname.trans (by decide))
      have hcookie₁ : (parseCookies (headerOf raw₁ (bytes "Cookie"))).lookup opts.name = none := by
        have hempty : headerOf raw₁ (bytes "Cookie") = [] := by
          rw [headerOf, hlookup₁ _ (by decide), if_neg (by decide)]
          rfl
        rw [hempty, parseCookies_nil, Finmap.lookup_empty]
      have hfresh₁ : decisions store now opts minted raw₁ =
          some (freshDecisions store now opts minted (tokenOf raw₁)) :=
        decisions_fresh ((isRequest_of_recased h₁).mpr hrequest) hcookie₁
      have htoken₀ : tokenOf raw₀ = [] := by
        rw [tokenOf, h₀.bodyOf_eq, hform]
        exact hnone _ (by decide)
      have htoken₁ : tokenOf raw₁ = trim f.2 := by
        rw [tokenOf, h₁.bodyOf_eq, hform]
        show headerOf raw₁ (bytes "X-CSRF-Token") = _
        rw [headerOf, hlookup₁ _ (by decide), if_pos rfl]
        rfl
      have hsame : decisions store now opts minted raw₁ = decisions store now opts minted raw₀ :=
        (hall raw₁ h₁).trans (hall raw₀ h₀).symm
      rw [hfresh₀, hfresh₁, Option.some.injEq] at hsame
      have hpasses := congrArg Decisions.passes hsame
      simp only [freshDecisions, htoken, htoken₀, htoken₁, Option.some.injEq,
        decide_eq_decide] at hpasses
      rw [eq_comm, hpasses, eq_comm]
  · intro hnone raw' h
    by_cases hrequest : IsRequest raw
    · rw [decisions_of_bringsNoSession h hrequest (hnone hrequest),
        decisions_of_bringsNoSession (.refl raw) hrequest (hnone hrequest)]
    · have hparse : ∀ raw, ¬ IsRequest raw → decisions store now opts minted raw = none := by
        intro raw hnot
        rw [← isSome_parseHttpRequest, Option.not_isSome_iff_eq_none] at hnot
        rw [decisions, hnot, Option.map_none]
      rw [hparse raw hrequest, hparse raw' (mt (isRequest_of_recased h).mp hrequest)]

/-- **A session cookie in a lower-cased header is lost.** The request gets a new session instead,
and does not pass `verify_csrf`. -/
theorem lowercase_cookie_is_lost :
    let raw := bytes "POST / HTTP/1.1\r\nCookie: lwsid=a\r\nX-CSRF-Token: t\r\n\r\n"
    let raw' := bytes "POST / HTTP/1.1\r\ncookie: lwsid=a\r\nx-csrf-token: t\r\n\r\n"
    let store := (ArraySessionStore.new 0).put 0 (bytes "a") csrf (bytes "t")
    let decided := fun raw => (decisions store 0 {} (bytes "b") raw).map fun d =>
      (d.sid, d.setCookie {}, d.passes)
    Recased raw raw' ∧ decided raw = some (bytes "a", none, true) ∧
      decided raw' =
        some (bytes "b", some (bytes "lwsid=b; Path=/; HttpOnly; SameSite=Lax"), false) := by
  intro raw raw' store decided
  have hline : ∀ name name' v : Bytes, 58 ∉ name → lower name' = lower name →
      RecasedLine (name ++ 58 :: v) (name' ++ 58 :: v) := fun name name' v hcolon hlower =>
    .inr ⟨name, name', v, rfl, rfl, hcolon, hlower⟩
  have hcookie := hline (bytes "Cookie") (bytes "cookie") (bytes " lwsid=a") (by decide) (by decide)
  have htoken := hline (bytes "X-CSRF-Token") (bytes "x-csrf-token") (bytes " t") (by decide)
    (by decide)
  have hlines : (splitLines (headOf raw)).tail =
      [bytes "Cookie" ++ 58 :: bytes " lwsid=a", bytes "X-CSRF-Token" ++ 58 :: bytes " t"] := by
    decide +kernel
  have hlines' : (splitLines (headOf raw')).tail =
      [bytes "cookie" ++ 58 :: bytes " lwsid=a", bytes "x-csrf-token" ++ 58 :: bytes " t"] := by
    decide +kernel
  refine ⟨⟨by decide +kernel, ?_, by decide +kernel⟩, by decide +kernel, by decide +kernel⟩
  rw [hlines, hlines']
  exact .cons hcookie (.cons htoken .nil)

end CppLaravel.Session
