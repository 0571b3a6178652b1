import CppLaravel.Lib.Transition
import CppLaravel.Session.Middleware

/-!
# `CppLaravel.Session.CsrfCalls`: `csrf_token` and `verify_csrf` in parallel

Any number of calls of `csrf_token` for one session, cut at their two calls of the store: `ask` is
the `get`, after which the call returns what it found or goes on to `mint`, its `put`. Requests are
checked by `verify_csrf` in between, and everything else is stored and read under other keys. No
step is taken at a time at which the session has expired.
-/

set_option autoImplicit false

namespace CppLaravel.Session

open CppLaravel.Lib
open CppLaravel.Http

/-- How far a call of `csrf_token` has come. -/
inductive TokenPhase where
  | idle
  | missing
  | returned (token : Bytes)
deriving DecidableEq

/-- The shared store and the calls. -/
structure TokenState (L : Type) where
  store : ArraySessionStore
  phase : L → TokenPhase

/-- The steps; `mint` gets its token from `csprng_hex`. -/
inductive TokenAction (L : Type) where
  | ask (l : L) (now : Int)
  | mint (l : L) (now : Int) (token : Bytes)
  | verify (req : Request) (now : Int)
  | keep (u key value : Bytes) (now : Int)

/-- The time that a step reads. -/
def TokenAction.now {L : Type} : TokenAction L → Int
  | ask _ now => now
  | mint _ now _ => now
  | verify _ now => now
  | keep _ _ _ now => now

variable {L : Type} [DecidableEq L]

/-- One step, for the session `sid`. A step that the code cannot take in the state is none. -/
def tokenStep (opts : CookieOptions) (sid : Bytes) (s : TokenState L) (a : TokenAction L) :
    Option (TokenState L) :=
  if s.store.Expired a.now sid then none
  else
    match a with
    | .ask l now =>
      match s.phase l with
      | .idle =>
        let (found, store) := s.store.get now sid csrf
        match found with
        | some token => some ⟨store, Function.update s.phase l (.returned token)⟩
        | none => some ⟨store, Function.update s.phase l .missing⟩
      | _ => none
    | .mint l now token =>
      match s.phase l with
      | .missing =>
        some ⟨s.store.put now sid csrf token, Function.update s.phase l (.returned token)⟩
      | _ => none
    | .verify req now => some { s with store := (verifyCsrf s.store now req opts).2 }
    -- Only `csrf_token` writes the token.
    | .keep u key value now =>
      if u = sid ∧ key = csrf then none else some { s with store := s.store.put now u key value }

/-- What one step can do, at a time at which the session has not expired. -/
inductive TokenMove (opts : CookieOptions) (sid : Bytes) (s : TokenState L) :
    TokenAction L → TokenState L → Prop
  | found {l : L} (now : Int) {token : Bytes} : s.phase l = .idle →
      (s.store.get now sid csrf).1 = some token →
      TokenMove opts sid s (.ask l now)
        ⟨(s.store.get now sid csrf).2, Function.update s.phase l (.returned token)⟩
  | missing {l : L} (now : Int) : s.phase l = .idle → (s.store.get now sid csrf).1 = none →
      TokenMove opts sid s (.ask l now)
        ⟨(s.store.get now sid csrf).2, Function.update s.phase l .missing⟩
  | mint {l : L} (now : Int) (token : Bytes) : s.phase l = .missing →
      TokenMove opts sid s (.mint l now token)
        ⟨s.store.put now sid csrf token, Function.update s.phase l (.returned token)⟩
  | verify (req : Request) (now : Int) :
      TokenMove opts sid s (.verify req now) { s with store := (verifyCsrf s.store now req opts).2 }
  | keep {u key : Bytes} (value : Bytes) (now : Int) : ¬ (u = sid ∧ key = csrf) →
      TokenMove opts sid s (.keep u key value now) { s with store := s.store.put now u key value }

/-- A step of the code is one of these. -/
theorem tokenMove_of_step {opts : CookieOptions} {sid : Bytes} {s s' : TokenState L}
    {a : TokenAction L} (h : tokenStep opts sid s a = some s') :
    ¬ s.store.Expired a.now sid ∧ TokenMove opts sid s a s' := by
  unfold tokenStep at h
  split at h
  · cases h
  · rename_i hlive
    refine ⟨hlive, ?_⟩
    cases a with
    | ask l now =>
      dsimp only at h
      split at h
      · rename_i hidle
        split at h <;> cases h
        · exact .found now hidle ‹_›
        · exact .missing now hidle ‹_›
      · cases h
    | mint l now token =>
      dsimp only at h
      split at h <;> cases h
      exact .mint now token ‹_›
    | verify req now =>
      cases h
      exact .verify req now
    | keep u key value now =>
      dsimp only at h
      split at h <;> cases h
      exact .keep value now ‹_›

end CppLaravel.Session
