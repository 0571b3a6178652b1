import CppLaravel.Session.Store

/-!
# `CppLaravel.Session.Operations`: calls of the session store

A call of `ArraySessionStore`, with the time that it reads, and calls one after the other.
-/

set_option autoImplicit false

namespace CppLaravel.Session

/-- A call of the store. -/
inductive Op where
  | put (sid key value : Bytes)
  | get (sid key : Bytes)
  | has (sid key : Bytes)
  | forget (sid key : Bytes)
  | flush (sid : Bytes)
  | rename (src dst : Bytes)
  | gc
deriving DecidableEq

/-- What a call gives. -/
inductive Reply where
  | nothing
  | value (v : Option Bytes)
  | truth (b : Bool)
deriving DecidableEq

namespace ArraySessionStore

/-- One call. -/
def step (s : ArraySessionStore) (now : Int) : Op → Reply × ArraySessionStore
  | .put sid key value => (.nothing, s.put now sid key value)
  | .get sid key => ((s.get now sid key).map .value id)
  | .has sid key => ((s.has now sid key).map .truth id)
  | .forget sid key => (.nothing, s.forget now sid key)
  | .flush sid => (.nothing, s.flush sid)
  | .rename src dst => ((s.rename now src dst).map .truth id)
  | .gc => (.nothing, s.gc now)

/-- The calls with what they give, and the store after them. -/
def steps (s : ArraySessionStore) : List (Int × Op) → List (Op × Reply) × ArraySessionStore
  | [] => ([], s)
  | (now, op) :: calls =>
    let (reply, s) := s.step now op
    let (replies, s) := s.steps calls
    ((op, reply) :: replies, s)

end ArraySessionStore

end CppLaravel.Session
