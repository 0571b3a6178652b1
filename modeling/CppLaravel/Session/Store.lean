import CppLaravel.Http.Message
import Mathlib.Logic.Function.Basic

/-!
# `CppLaravel.Session.Store`: the session store (`include/session.hpp`)

`ArraySessionStore` keeps a map of strings for each session id and, when it has a time to
live, the time at which the session was last used. Every call takes the store's mutex, so a
call is one function of the state. The argument `now` is what `steady_clock::now()` reads
during the call, in milliseconds like the time to live.

`value` is what a session holds under a key, with no regard to the clock. Each operation has
one lemma that says what it does to `value`; the proofs about logins use no other fact about
the store.
-/

set_option autoImplicit false

namespace CppLaravel.Session

open CppLaravel.Http

/-- `ArraySessionStore`: its fields, without the mutex. -/
structure ArraySessionStore where
  ttl : Int
  data : Bytes → Option StringMap
  lastSeen : Bytes → Option Int

namespace ArraySessionStore

/-- The store as it is constructed. -/
def new (ttl : Int) : ArraySessionStore := ⟨ttl, fun _ => none, fun _ => none⟩

/-- `touch`. -/
def touch (s : ArraySessionStore) (now : Int) (sid : Bytes) : ArraySessionStore :=
  if s.ttl ≠ 0 then { s with lastSeen := Function.update s.lastSeen sid (some now) } else s

/-- `drop_if_expired`. -/
def dropIfExpired (s : ArraySessionStore) (now : Int) (sid : Bytes) : ArraySessionStore :=
  if s.ttl = 0 then s
  else
    match s.lastSeen sid with
    | none => s
    | some t =>
      if now - t > s.ttl then
        { s with
            data := Function.update s.data sid none
            lastSeen := Function.update s.lastSeen sid none }
      else s

/-- `put`. -/
def put (s : ArraySessionStore) (now : Int) (sid key value : Bytes) : ArraySessionStore :=
  let s := s.dropIfExpired now sid
  -- `data_[sid]` makes an empty session where there is none.
  let session := (s.data sid).getD ∅
  { s with data := Function.update s.data sid (some (session.insert key value)) }.touch now sid

/-- `get`. -/
def get (s : ArraySessionStore) (now : Int) (sid key : Bytes) :
    Option Bytes × ArraySessionStore :=
  let s := s.dropIfExpired now sid
  match s.data sid with
  | none => (none, s)
  | some session =>
    match session.lookup key with
    | none => (none, s)
    | some v => (some v, s.touch now sid)

/-- `has`. -/
def has (s : ArraySessionStore) (now : Int) (sid key : Bytes) : Bool × ArraySessionStore :=
  let s := s.dropIfExpired now sid
  match s.data sid with
  | none => (false, s)
  | some session =>
    match session.lookup key with
    | none => (false, s)
    | some _ => (true, s.touch now sid)

/-- `rename`. -/
def rename (s : ArraySessionStore) (now : Int) (src dst : Bytes) : Bool × ArraySessionStore :=
  let s := s.dropIfExpired now src
  match s.data src with
  | none => (false, s)
  | some session =>
    let data := Function.update (Function.update s.data dst (some session)) src none
    (true, { s with data := data, lastSeen := Function.update s.lastSeen src none }.touch now dst)

/-- `forget`. -/
def forget (s : ArraySessionStore) (now : Int) (sid key : Bytes) : ArraySessionStore :=
  let s := s.dropIfExpired now sid
  match s.data sid with
  | none => s
  | some session => { s with data := Function.update s.data sid (some (session.erase key)) }

/-- `flush`. -/
def flush (s : ArraySessionStore) (sid : Bytes) : ArraySessionStore :=
  { s with
      data := Function.update s.data sid none
      lastSeen := Function.update s.lastSeen sid none }

/-- What a session holds under a key. -/
def value (s : ArraySessionStore) (sid key : Bytes) : Option Bytes :=
  (s.data sid).bind (·.lookup key)

/-- The session was last used more than the time to live ago. -/
def Expired (s : ArraySessionStore) (now : Int) (sid : Bytes) : Prop :=
  s.ttl ≠ 0 ∧ ∃ t ∈ s.lastSeen sid, now - t > s.ttl

instance (s : ArraySessionStore) (now : Int) (sid : Bytes) : Decidable (s.Expired now sid) :=
  inferInstanceAs (Decidable (_ ∧ _))

/-- `gc`: of every session with a stamp, whether it has expired. -/
def gc (s : ArraySessionStore) (now : Int) : ArraySessionStore :=
  if s.ttl = 0 then s
  else
    { s with
        data := fun sid => if s.Expired now sid then none else s.data sid
        lastSeen := fun sid => if s.Expired now sid then none else s.lastSeen sid }

@[simp] theorem value_new (ttl : Int) (sid key : Bytes) : (new ttl).value sid key = none := rfl

@[simp] theorem data_touch (s : ArraySessionStore) (now : Int) (sid : Bytes) :
    (s.touch now sid).data = s.data := by
  unfold touch
  split <;> rfl

@[simp] theorem value_touch (s : ArraySessionStore) (now : Int) (sid sid' key : Bytes) :
    (s.touch now sid).value sid' key = s.value sid' key := by
  simp only [value, data_touch]

/-- A session that has not expired is kept. -/
theorem dropIfExpired_of_not_expired {s : ArraySessionStore} {now : Int} {sid : Bytes}
    (h : ¬ s.Expired now sid) : s.dropIfExpired now sid = s := by
  unfold dropIfExpired
  split
  · rfl
  · rename_i httl
    split
    · rfl
    · rename_i t ht
      rw [if_neg fun hold => h ⟨httl, t, ht, hold⟩]

/-- Expiry removes whole sessions and changes no value. -/
theorem value_of_value_dropIfExpired {s : ArraySessionStore} {now : Int} {sid sid' key v : Bytes}
    (h : (s.dropIfExpired now sid).value sid' key = some v) : s.value sid' key = some v := by
  unfold dropIfExpired at h
  split at h
  · exact h
  · split at h
    · exact h
    · split at h
      · by_cases hsid : sid' = sid
        · simp [value, hsid] at h
        · simpa [value, hsid] using h
      · exact h

/-- What sessions hold after a `put`. -/
theorem value_put (s : ArraySessionStore) (now : Int) (sid key v sid' key' : Bytes) :
    (s.put now sid key v).value sid' key' =
      if sid' = sid ∧ key' = key then some v else (s.dropIfExpired now sid).value sid' key' := by
  by_cases hsid : sid' = sid
  · subst hsid
    by_cases hkey : key' = key
    · subst hkey
      simp [put, value]
    · cases hdata : (s.dropIfExpired now sid').data sid' <;>
        simp [put, value, hkey, hdata, Finmap.lookup_insert_of_ne]
  · simp [put, value, hsid]

/-- `get` answers what the session holds, unless it has expired. -/
theorem get_fst (s : ArraySessionStore) (now : Int) (sid key : Bytes) :
    (s.get now sid key).1 = (s.dropIfExpired now sid).value sid key := by
  simp only [get, value]
  cases hdata : (s.dropIfExpired now sid).data sid with
  | none => rfl
  | some session => cases hkey : session.lookup key <;> simp [hkey]

/-- A `get` only drops an expired session. -/
theorem value_get (s : ArraySessionStore) (now : Int) (sid key sid' key' : Bytes) :
    (s.get now sid key).2.value sid' key' = (s.dropIfExpired now sid).value sid' key' := by
  simp only [get]
  split
  · rfl
  · split <;> simp

/-- `has` answers whether the session holds the key, unless it has expired. -/
theorem has_fst (s : ArraySessionStore) (now : Int) (sid key : Bytes) :
    (s.has now sid key).1 = ((s.dropIfExpired now sid).value sid key).isSome := by
  simp only [has, value]
  cases hdata : (s.dropIfExpired now sid).data sid with
  | none => rfl
  | some session => cases hkey : session.lookup key <;> simp [hkey]

/-- A `has` only drops an expired session. -/
theorem value_has (s : ArraySessionStore) (now : Int) (sid key sid' key' : Bytes) :
    (s.has now sid key).2.value sid' key' = (s.dropIfExpired now sid).value sid' key' := by
  simp only [has]
  split
  · rfl
  · split <;> simp

/-- A `rename` that succeeds moves everything the session holds. -/
theorem value_rename_of_true {s : ArraySessionStore} {now : Int} {src dst : Bytes}
    (h : (s.rename now src dst).1 = true) (sid key : Bytes) :
    (s.rename now src dst).2.value sid key =
      if sid = src then none
      else if sid = dst then (s.dropIfExpired now src).value src key
      else (s.dropIfExpired now src).value sid key := by
  simp only [rename] at h ⊢
  cases hdata : (s.dropIfExpired now src).data src with
  | none =>
    rw [hdata] at h
    cases h
  | some session =>
    simp only [value, data_touch, hdata]
    by_cases hsrc : sid = src
    · simp [hsrc]
    · by_cases hdst : sid = dst
      · subst hdst
        simp [hsrc]
      · simp [hsrc, hdst]

/-- A `rename` that fails finds no session, and only drops an expired one. -/
theorem value_rename_of_false {s : ArraySessionStore} {now : Int} {src dst : Bytes}
    (h : (s.rename now src dst).1 = false) :
    (s.rename now src dst).2 = s.dropIfExpired now src ∧
      ∀ key, (s.dropIfExpired now src).value src key = none := by
  simp only [rename] at h ⊢
  cases hdata : (s.dropIfExpired now src).data src with
  | none => exact ⟨rfl, fun key => by simp [value, hdata]⟩
  | some session =>
    rw [hdata] at h
    cases h

/-- A session that holds something can be renamed. -/
theorem rename_fst_of_value {s : ArraySessionStore} {now : Int} {src dst key v : Bytes}
    (h : (s.dropIfExpired now src).value src key = some v) : (s.rename now src dst).1 = true := by
  cases hok : (s.rename now src dst).1 with
  | true => rfl
  | false => rw [(value_rename_of_false hok).2 key] at h; cases h

end ArraySessionStore

end CppLaravel.Session
