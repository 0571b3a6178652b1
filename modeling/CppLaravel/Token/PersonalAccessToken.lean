import CppLaravel.Database.MemoryConnection

/-!
# `CppLaravel.Token.PersonalAccessToken`: tokens kept by their hash
(`include/personal_access_token.hpp`)

A `Store` keeps no plaintext: a row carries the hash of its token, and a presented token is found
by its hash. Each of the three functions calls the connection once, so it is one function of the
connection. `sha256Hex` is `tok::sha256_hex`; the plaintext that `tok::random_token` draws is an
argument of `issue`.
-/

set_option autoImplicit false

namespace CppLaravel.Pat

open CppLaravel.Database

/-- `Issued`. -/
structure Issued where
  id : Int
  plaintext : Bytes
deriving DecidableEq

/-- `Record`. -/
structure Record where
  id : Int
  userId : Int
  expiresAt : Int
  name : Bytes
  abilities : List Bytes
deriving DecidableEq

/-- `Record::can`. -/
def Record.can (r : Record) (ability : Bytes) : Bool :=
  r.abilities.any fun a => a = ability || a = bytes "*"

/-- `Store::join`. -/
def join (v : List Bytes) : Bytes := List.intercalate [32] v

/-- `Store::split_ws`: `out` and `cur` after each character, and the last word. -/
def splitWs (s : Bytes) : List Bytes :=
  let (out, cur) := s.foldl (fun (out, cur) c =>
    if c = 32 then if cur ≠ [] then (out ++ [cur], []) else (out, cur) else (out, cur ++ [c]))
    (([] : List Bytes), ([] : Bytes))
  if cur ≠ [] then out ++ [cur] else out

example : splitWs (join [bytes "post", bytes "api:read"]) = [bytes "post", bytes "api:read"] := by
  decide

/-- `Store::to_record`; `none` is the `std::out_of_range` of a row without an id. -/
def toRecord (r : Row) : Option Record :=
  (r.getInt (bytes "id")).map fun id =>
    { id := id
      userId := (r.getInt (bytes "user_id")).getD 0
      name := (r.getString (bytes "name")).getD []
      abilities := splitWs ((r.getString (bytes "abilities")).getD [])
      expiresAt := (r.getInt (bytes "expires_at")).getD 0 }

section
variable (sha256Hex : Bytes → Bytes) (c : MemoryConnection) (table : Bytes)

/-- `Store::issue`. -/
def issue (userId : Int) (name : Bytes) (abilities : List Bytes) (expiresAt : Int)
    (plain : Bytes) : Issued × MemoryConnection :=
  let row := Row.empty
  let row := row.set (bytes "user_id") (.int userId)
  let row := row.set (bytes "name") (.string name)
  let row := row.set (bytes "token_hash") (.string (sha256Hex plain))
  let row := row.set (bytes "abilities") (.string (join abilities))
  let row := row.set (bytes "expires_at") (.int expiresAt)
  let (id, c) := c.insert table row
  (⟨id, plain⟩, c)

/-- `Store::authenticate`, at the time `clock`. The loop over the rows ends at the first one. -/
def authenticate (presented : Bytes) (now clock : Int) : Option (Option Record) :=
  let now := if now = 0 then clock else now
  match c.select table [(bytes "token_hash", .string (sha256Hex presented))] with
  | [] => some none
  | r :: _ =>
    let exp := (r.getInt (bytes "expires_at")).getD 0
    if exp ≠ 0 ∧ now > exp then some none else (toRecord r).map some

/-- `Store::revoke`. -/
def revoke (id : Int) : Bool × MemoryConnection := c.remove table id

end

/-! ### Calls of many callers -/

/-- A token as it was issued. -/
structure Token where
  id : Int
  userId : Int
  name : Bytes
  abilities : List Bytes
  expiresAt : Int
  plaintext : Bytes
deriving DecidableEq

/-- A call of the store, with what it answered. -/
inductive Event where
  | issued (t : Token)
  | revoked (id : Int) (found : Bool)
  | authenticated (presented : Bytes) (now clock : Int) (result : Option (Option Record))
deriving DecidableEq

variable (sha256Hex : Bytes → Bytes) (table : Bytes)

/-- A call is made. Its one call of the connection is atomic, so the calls of all callers come one
after the other. -/
inductive Step : MemoryConnection → Event → MemoryConnection → Prop
  | issue {c : MemoryConnection} {t : Token} {c' : MemoryConnection} :
      issue sha256Hex c table t.userId t.name t.abilities t.expiresAt t.plaintext =
        (⟨t.id, t.plaintext⟩, c') → Step c (.issued t) c'
  | revoke {c : MemoryConnection} {id : Int} {found : Bool} {c' : MemoryConnection} :
      revoke c table id = (found, c') → Step c (.revoked id found) c'
  | authenticate {c : MemoryConnection} {presented : Bytes} {now clock : Int}
      {result : Option (Option Record)} :
      authenticate sha256Hex c table presented now clock = result →
        Step c (.authenticated presented now clock result) c

end CppLaravel.Pat
