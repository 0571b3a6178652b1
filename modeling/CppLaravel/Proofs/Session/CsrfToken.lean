import CppLaravel.Session.CsrfCalls

/-!
# `CppLaravel.Proofs.Session.CsrfToken`: the tokens handed out are accepted

`csrf_token` looks for a token and stores one if there is none, in two calls of the store. Two first
visits at a time both find none, and the second `put` takes away the token that the first has handed
out (`first_token_rejected`).

`tokens_accepted_iff`: where every `put` finds the session still without a token, all the tokens
that were returned are accepted; and the first `put` that does not makes one of them fail.
-/

set_option autoImplicit false

namespace CppLaravel.Session

open CppLaravel.Lib
open CppLaravel.Http

variable {L : Type} {opts : CookieOptions} {sid : Bytes}

/-- Every token that a call returned is accepted from a request of the session. -/
def TokensAccepted (opts : CookieOptions) (sid : Bytes) (s : TokenState L) : Prop :=
  ∀ l token, s.phase l = .returned token → ∀ req now, ¬ s.store.Expired now sid →
    sessionOf req opts = sid → provided req = token → (verifyCsrf s.store now req opts).1 = none

/-- A call stores its token in a session that has none yet. -/
def MintsFirst (sid : Bytes) (s : TokenState L) : TokenAction L → Prop
  | .mint _ _ _ => s.store.value sid csrf = none
  | _ => True

instance (sid : Bytes) (s : TokenState L) (a : TokenAction L) : Decidable (MintsFirst sid s a) := by
  cases a <;> unfold MintsFirst <;> infer_instance

/-- The token of the session is the one that every call returned; and while a call has found none,
the session has none that was not returned by another. -/
structure TokenSettled (sid : Bytes) (s : TokenState L) : Prop where
  current : ∀ l token, s.phase l = .returned token → s.store.value sid csrf = some token
  known : ∀ l token, s.phase l = .missing → s.store.value sid csrf = some token →
    ∃ l', s.phase l' = .returned token

/-! ### The store, while the session lives -/

section
variable {store : ArraySessionStore} {now : Int}

/-- Expiry of any session leaves one that has not expired. -/
theorem value_dropIfExpired_of_live (h : ¬ store.Expired now sid) (u key : Bytes) :
    (store.dropIfExpired now u).value sid key = store.value sid key := by
  by_cases hu : sid = u
  · rw [← hu, ArraySessionStore.dropIfExpired_of_not_expired h]
  · unfold ArraySessionStore.dropIfExpired
    split
    · rfl
    · split
      · rfl
      · split
        · simp [ArraySessionStore.value, hu]
        · rfl

/-- What `verify_csrf` compares with. -/
theorem verifyCsrf_of_live {req : Request} (h : ¬ store.Expired now sid)
    (hsid : sessionOf req opts = sid) :
    (verifyCsrf store now req opts).1 = none ↔ store.value sid csrf = some (provided req) := by
  rw [verifyCsrf_eq_none_iff, hsid, ArraySessionStore.get_fst,
    ArraySessionStore.dropIfExpired_of_not_expired h]

/-- A check leaves the session's token. -/
theorem value_verifyCsrf (req : Request) (h : ¬ store.Expired now sid) :
    (verifyCsrf store now req opts).2.value sid csrf = store.value sid csrf := by
  have hstore :
      (verifyCsrf store now req opts).2 = (store.get now (sessionOf req opts) csrf).2 := by
    unfold verifyCsrf
    generalize store.get now (sessionOf req opts) csrf = x
    obtain ⟨_ | token, store'⟩ := x
    · rfl
    · dsimp only
      split <;> rfl
  rw [hstore, ArraySessionStore.value_get, value_dropIfExpired_of_live h]

/-- A call of `put` for another key, or another session, leaves it too. -/
theorem value_put_of_live {u key : Bytes} (v : Bytes) (hother : ¬ (u = sid ∧ key = csrf))
    (h : ¬ store.Expired now sid) :
    (store.put now u key v).value sid csrf = store.value sid csrf := by
  rw [ArraySessionStore.value_put, if_neg fun ⟨hu, hkey⟩ => hother ⟨hu.symm, hkey.symm⟩,
    value_dropIfExpired_of_live h]

end

/-! ### Every run -/

theorem TokenSettled.tokensAccepted {s : TokenState L} (h : TokenSettled sid s) :
    TokensAccepted opts sid s := by
  intro l token hl req now hlive hsid hprovided
  rw [verifyCsrf_of_live hlive hsid, hprovided]
  exact h.current l token hl

/-- Before any call. -/
theorem tokenSettled_of_idle {s : TokenState L} (h : ∀ l, s.phase l = .idle) :
    TokenSettled sid s where
  current l token hl := by simp [h l] at hl
  known l token hl := by simp [h l] at hl

/-- A step that leaves the calls where they are, and the token. -/
theorem TokenSettled.of_value {s : TokenState L} (h : TokenSettled sid s)
    {store : ArraySessionStore} (hvalue : store.value sid csrf = s.store.value sid csrf) :
    TokenSettled sid { s with store := store } where
  current l token hl := hvalue.trans (h.current l token hl)
  known l token hl hstored := h.known l token hl (hvalue.symm.trans hstored)

variable [DecidableEq L]

/-- A call moves on to a phase that agrees with the token. -/
theorem TokenSettled.goto {s : TokenState L} (h : TokenSettled sid s)
    {store : ArraySessionStore} {l : L} {ph : TokenPhase}
    (hcurrent : ∀ l' token, s.phase l' = .returned token → store.value sid csrf = some token)
    (hself : ∀ token, ph = .returned token → store.value sid csrf = some token)
    (hnot : ∀ token, s.phase l ≠ .returned token)
    (hknown : ∀ token, store.value sid csrf = some token →
      ph = .returned token ∨ s.store.value sid csrf = some token ∧ ph ≠ .missing) :
    TokenSettled sid ⟨store, Function.update s.phase l ph⟩ where
  current l' token hl := by
    by_cases hl' : l' = l
    · subst hl'
      exact hself token (by simpa using hl)
    · exact hcurrent l' token (by simpa [hl'] using hl)
  known l' token hl hstored := by
    rcases hknown token hstored with hph | ⟨hbefore, hph⟩
    · exact ⟨l, by simpa using hph⟩
    · by_cases hl' : l' = l
      · subst hl'
        exact absurd (by simpa using hl) hph
      · obtain ⟨m, hm⟩ := h.known l' token (by simpa [hl'] using hl) hbefore
        have hml : m ≠ l := by
          rintro rfl
          exact hnot token hm
        exact ⟨m, by simpa [hml] using hm⟩

/-- One step. -/
theorem TokenSettled.step {s s' : TokenState L} {a : TokenAction L} (h : TokenSettled sid s)
    (hstep : Guarded (MintsFirst sid) (Steps (tokenStep opts sid)) s a s') :
    TokenSettled sid s' := by
  obtain ⟨hfirst, hstep⟩ := hstep
  obtain ⟨hlive, hmove⟩ := tokenMove_of_step hstep
  have hget : ∀ now, ¬ s.store.Expired now sid →
      (s.store.get now sid csrf).1 = s.store.value sid csrf ∧
        (s.store.get now sid csrf).2.value sid csrf = s.store.value sid csrf := by
    intro now hlive
    rw [ArraySessionStore.get_fst, ArraySessionStore.value_get, value_dropIfExpired_of_live hlive]
    exact ⟨rfl, rfl⟩
  cases hmove with
  | @found l now token hidle hfound =>
    obtain ⟨hfst, hsnd⟩ := hget now hlive
    have hstored : (s.store.get now sid csrf).2.value sid csrf = some token :=
      hsnd.trans (hfst.symm.trans hfound)
    refine h.goto (fun l' t hl' => hsnd.trans (h.current l' t hl')) ?_ (by simp [hidle]) ?_
    · rintro t ⟨⟩
      exact hstored
    · intro t ht
      exact .inl (congrArg TokenPhase.returned (Option.some.inj (hstored.symm.trans ht)))
  | @missing l now hidle hnone =>
    obtain ⟨hfst, hsnd⟩ := hget now hlive
    have hstored : (s.store.get now sid csrf).2.value sid csrf = none :=
      hsnd.trans (hfst.symm.trans hnone)
    refine h.goto (fun l' t hl' => hsnd.trans (h.current l' t hl')) (by simp) (by simp [hidle]) ?_
    intro t ht
    simp [hstored] at ht
  | @mint l now token hmissing =>
    -- Nothing was returned yet: the session has no token.
    have hnone : s.store.value sid csrf = none := hfirst
    have hstored : (s.store.put now sid csrf token).value sid csrf = some token := by
      rw [ArraySessionStore.value_put, if_pos ⟨rfl, rfl⟩]
    refine h.goto (fun l' t hl' => ?_) ?_ (by simp [hmissing]) ?_
    · simp [h.current l' t hl'] at hnone
    · rintro t ⟨⟩
      exact hstored
    · intro t ht
      exact .inl (congrArg TokenPhase.returned (Option.some.inj (hstored.symm.trans ht)))
  | verify req now => exact h.of_value (value_verifyCsrf req hlive)
  | keep value now hother => exact h.of_value (value_put_of_live value hother hlive)

/-- A `put` that finds a token in the session takes it away from the call that returned it. -/
theorem not_tokensAccepted_of_mint {s s' : TokenState L} (h : TokenSettled sid s) {l : L}
    {now : Int} {token old : Bytes} (hstep : tokenStep opts sid s (.mint l now token) = some s')
    (hold : s.store.value sid csrf = some old) (hne : token ≠ old) :
    ¬ TokensAccepted opts sid s' := by
  obtain ⟨hlive, hmove⟩ := tokenMove_of_step hstep
  cases hmove with
  | mint _ _ hmissing =>
    obtain ⟨m, hm⟩ := h.known l old hmissing hold
    have hml : m ≠ l := by
      rintro rfl
      simp [hmissing] at hm
    intro haccepted
    -- A request of the session with the old token, at a time at which the session lives.
    let req : Request :=
      { method := [], path := [], body := [], cookies := Finmap.singleton opts.name sid
        headers := Finmap.singleton (bytes "X-CSRF-Token") old }
    have hsid : sessionOf req opts = sid := by
      simp [sessionOf, req]
    have hprovided : provided req = old := by
      have hform : parseForm req.body = ∅ := by
        rw [parseForm, parsePairs, pairsLoop]
        rfl
      rw [provided, hform]
      simp [req]
    have hlive : ¬ s.store.Expired now sid := hlive
    have hlive' : ¬ (s.store.put now sid csrf token).Expired (now + s.store.ttl) sid := by
      rw [ArraySessionStore.put, ArraySessionStore.dropIfExpired_of_not_expired hlive]
      unfold ArraySessionStore.touch ArraySessionStore.Expired
      split
      · simp
      · rename_i httl
        exact fun hexpired => httl hexpired.1
    have haccept := haccepted m old (by simpa [hml] using hm) req _ hlive' hsid hprovided
    rw [verifyCsrf_of_live hlive' hsid, ArraySessionStore.value_put, if_pos ⟨rfl, rfl⟩,
      hprovided] at haccept
    exact hne (Option.some.inj haccept)

/-- While every `put` finds the session without a token, every token that was returned is accepted;
and a further `put` of a new token keeps it so exactly if it finds none. -/
theorem tokens_accepted_iff {s₀ s : TokenState L} {as : List (TokenAction L)}
    (hidle : ∀ l, s₀.phase l = .idle)
    (h : Trace (Guarded (MintsFirst sid) (Steps (tokenStep opts sid))) s₀ as s) :
    TokensAccepted opts sid s ∧
      ∀ l now token s', tokenStep opts sid s (.mint l now token) = some s' →
        s.store.value sid csrf ≠ some token →
        (TokensAccepted opts sid s' ↔ MintsFirst sid s (.mint l now token)) := by
  have hsettled : TokenSettled sid s :=
    h.invariant (fun _ _ _ hs hstep => hs.step hstep) (tokenSettled_of_idle hidle)
  refine ⟨hsettled.tokensAccepted, fun l now token s' hstep hnew => ⟨fun haccepted => ?_, ?_⟩⟩
  · cases hold : s.store.value sid csrf with
    | none => exact hold
    | some old =>
      have hne : token ≠ old := by
        rintro rfl
        exact hnew hold
      exact absurd haccepted (not_tokensAccepted_of_mint hsettled hstep hold hne)
  · intro hfirst
    exact (hsettled.step ⟨hfirst, hstep⟩).tokensAccepted

/-- **Two first visits at a time.** Both find no token, both store one, and the token that the first
was given is refused. -/
theorem first_token_rejected :
    let store := (ArraySessionStore.new 0).put 0 (bytes "sid") (bytes "cart") (bytes "1")
    ∃ s, Trace (Steps (tokenStep {} (bytes "sid"))) ⟨store, fun _ : Bool => .idle⟩
        [.ask true 0, .ask false 0, .mint true 0 (bytes "a"), .mint false 0 (bytes "b")] s ∧
      s.phase true = .returned (bytes "a") ∧ ¬ TokensAccepted {} (bytes "sid") s := by
  intro store
  have h : (run (tokenStep {} (bytes "sid")) ⟨store, fun _ : Bool => .idle⟩
      [.ask true 0, .ask false 0, .mint true 0 (bytes "a"), .mint false 0 (bytes "b")]).any
      (fun s => s.phase true = .returned (bytes "a") ∧
        s.store.value (bytes "sid") csrf = some (bytes "b") ∧ s.store.ttl = 0) = true := by
    decide
  obtain ⟨s, hs, hp⟩ := Option.any_eq_true _ _ |>.mp h
  obtain ⟨hphase, hvalue, httl⟩ := of_decide_eq_true hp
  refine ⟨s, trace_iff_run.mpr hs, hphase, fun haccepted => ?_⟩
  let req : Request :=
    { method := bytes "POST", path := bytes "/", headers := ∅, body := bytes "_token=a"
      cookies := Finmap.singleton (bytes "lwsid") (bytes "sid") }
  have hlive : ¬ s.store.Expired 0 (bytes "sid") := fun hexpired => hexpired.1 httl
  have hsid : sessionOf req {} = bytes "sid" := by decide
  have hprovided : provided req = bytes "a" := by decide +kernel
  have haccept := haccepted true (bytes "a") hphase req 0 hlive hsid hprovided
  rw [verifyCsrf_of_live hlive hsid, hvalue, hprovided] at haccept
  exact absurd haccept (by decide)

/-- One visit after the other. -/
theorem tokens_accepted_applies :
    let store := (ArraySessionStore.new 0).put 0 (bytes "sid") (bytes "cart") (bytes "1")
    ∃ s, Trace (Guarded (MintsFirst (bytes "sid")) (Steps (tokenStep {} (bytes "sid"))))
        ⟨store, fun _ : Bool => .idle⟩
        [.ask true 0, .mint true 0 (bytes "a"), .ask false 0] s ∧
      s.phase false = .returned (bytes "a") ∧ TokensAccepted {} (bytes "sid") s := by
  intro store
  have h : (run (guard (MintsFirst (bytes "sid")) (tokenStep {} (bytes "sid")))
      ⟨store, fun _ : Bool => .idle⟩
      [.ask true 0, .mint true 0 (bytes "a"), .ask false 0]).any
      (fun s => s.phase false = .returned (bytes "a")) = true := by
    decide
  obtain ⟨s, hs, hp⟩ := Option.any_eq_true _ _ |>.mp h
  have hrun := trace_of_run_guard hs
  exact ⟨s, hrun, of_decide_eq_true hp, (tokens_accepted_iff (fun _ => rfl) hrun).1⟩

end CppLaravel.Session
