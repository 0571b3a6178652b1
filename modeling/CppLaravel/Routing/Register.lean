import CppLaravel.Routing.Router

/-!
# `CppLaravel.Routing.Register`: the routes of an application (`include/router_contract.hpp`)
-/

set_option autoImplicit false

namespace CppLaravel.Routing

/-- A call of `get`, `post` or one of the other verbs of a `RouterContract`. -/
structure Registration (W : Type) where
  method : Bytes
  uri : Bytes
  handler : Handler W
  middleware : List (Middleware W) := []

/-- The routes after some calls; `none` if `std::regex` throws. -/
def registerAll {W : Type} (routes : List (Route W)) :
    List (Registration W) → Option (List (Route W))
  | [] => some routes
  | g :: gs =>
    (add routes g.method g.uri g.handler g.middleware).bind fun routes => registerAll routes gs

end CppLaravel.Routing
