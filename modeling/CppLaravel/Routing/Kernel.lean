import CppLaravel.Routing.Router

/-!
# `CppLaravel.Routing.Kernel`: from a request to a response (`include/kernel.hpp`, `src/kernel.cpp`)
-/

set_option autoImplicit false

namespace CppLaravel.Routing

open CppLaravel.Http

/-- `Kernel`: its router's routes and its global middleware. -/
structure Kernel (W : Type) where
  router : List (Route W)
  globals : List (Middleware W)

/-- What a call of `handle` leaves: the response, what it printed to `stderr`, and the world. -/
structure Handled (W : Type) where
  response : Response
  stderr : Bytes
  world : W

/-- A string printed with `%s`, which stops at a zero byte. -/
def cString (s : Bytes) : Bytes := s.takeWhile (· ≠ 0)

/-- The value of the `Allow` header. -/
def allowHeader (allowed : List Bytes) : Bytes :=
  allowed.foldl (fun allow m => (if allow ≠ [] then allow ++ bytes ", " else allow) ++ m) []

/-- What is printed for an exception that nobody caught. -/
def unhandled (e : Thrown) (req : Request) : Bytes :=
  match e with
  | .exception what =>
    bytes "[kernel] unhandled exception on " ++ cString req.method ++ bytes " "
      ++ cString req.path ++ bytes ": " ++ cString what ++ bytes "\n"
  | .other =>
    bytes "[kernel] unhandled non-std exception on " ++ cString req.method ++ bytes " "
      ++ cString req.path ++ bytes "\n"

def notFound : Response := { status := 404, body := bytes "Not Found" }

def methodNotAllowed (allow : Bytes) : Response :=
  let res : Response := { status := 405, body := bytes "Method Not Allowed" }
  { res with headers := res.headers.insert (bytes "Allow") allow }

def internalServerError : Response := { status := 500, body := bytes "Internal Server Error" }

variable {W : Type}

/-- `handle`. -/
def handle (k : Kernel W) (req : Request) (w : W) : Handled W :=
  match matchRequest req k.router with
  | none =>
    let allowed := allowedMethods req.path k.router
    if allowed.isEmpty then ⟨notFound, [], w⟩ else ⟨methodNotAllowed (allowHeader allowed), [], w⟩
  | some (route, params) =>
    let req := { req with routeParams := params }
    match Pipeline.run (k.globals ++ route.middleware) route.handler req w with
    | (.ok res, _, w) => ⟨res, [], w⟩
    | (.error e, req, w) => ⟨internalServerError, unhandled e req, w⟩

end CppLaravel.Routing
