import CppLaravel.Http.Message
import CppLaravel.Token.Sign

/-!
# `CppLaravel.Token.Middleware`: routes that need an ability (`include/token.hpp`)

`requiresAbility` is the middleware `tok::requires_ability`. The headers of a request are a
`std::unordered_map`, so `bearerToken` meets them in an order that nothing fixes: it is given
the entries in that order (`Visits`).
-/

set_option autoImplicit false

namespace CppLaravel.Token

open CppLaravel.Lib
open CppLaravel.Http

/-- `bearer_token`: the value of the first `Authorization` header, whatever its case, without
`Bearer ` in front. -/
def bearerToken : List (Bytes × Bytes) → Bytes
  | [] => []
  | (name, v) :: entries =>
    if name.length = 13 ∧ lower name = bytes "authorization" then
      if (bytes "Bearer ").length < v.length ∧ bytes "Bearer " <+: v then
        v.drop (bytes "Bearer ").length
      else v
    else bearerToken entries

variable (sha256 : Bytes → Bytes)

/-- The middleware of `requires_ability`: the response that refuses the request, or nothing
when the next handler is called. -/
def requiresAbility (ability secret : Bytes) (clock : Int64) (headers : List (Bytes × Bytes)) :
    Option Response :=
  match verify sha256 (bearerToken headers) secret 0 clock with
  | none => some { status := 403, body := bytes "Forbidden" }
  | some claims =>
    if claims.can ability then none else some { status := 403, body := bytes "Forbidden" }

end CppLaravel.Token
