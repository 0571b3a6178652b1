import CppLaravel.Database.MemoryConnection
import CppLaravel.Http.HandleClient
import CppLaravel.Routing.Kernel
import CppLaravel.Routing.Register
import CppLaravel.Session.Middleware
import CppLaravel.StaticFiles.Serve
import CppLaravel.Token.Middleware

/-!
# `CppLaravel.CocoWeb.App`: an application on the framework (`examples/coco-web/app.hpp`)

`bootstrap` registers static files, a list of items and the save-states of an emulator, with a
signed token in front of each route that writes. The world of its handlers is the database and the
clock. The file system, the digest, and the order in which the headers of a request are met are
parameters, as they are of the parts that it is made of.
-/

set_option autoImplicit false

namespace CppLaravel.CocoWeb

open CppLaravel.Database CppLaravel.Http CppLaravel.Lib CppLaravel.Routing

/-- What is around the application: the arguments of `bootstrap`, and the parameters. -/
structure Site where
  publicDir : Bytes
  tokenSecret : Bytes
  fs : StaticFiles.Canonicalise
  files : StaticFiles.Files
  sha256 : Bytes → Bytes
  order : StringMap → List (Bytes × Bytes)
  /-- What `std::out_of_range` says for a cell that a row does not have. -/
  outOfRange : Bytes

/-- The database, and what `std::time` reads. -/
structure World where
  db : MemoryConnection
  clock : Int64

/-- `json_escape`. -/
def jsonEscape (s : Bytes) : Bytes := s.flatMap fun c => if c = 34 ∨ c = 92 then [92, c] else [c]

/-- `Response::bytes`. -/
def responseBytes (data : Bytes) : Response :=
  let r : Response := {}
  { r with
      body := data
      headers := r.headers.insert (bytes "Content-Type") (bytes "application/octet-stream") }

/-! ### Handlers -/

section
variable (site : Site)

/-- A handler that changes neither the request nor the world. -/
def pureHandler (f : Request → World → Outcome) : Handler World := fun req w => (f req w, req, w)

/-- `GET /`. -/
def index : Handler World := pureHandler fun req _ =>
  .ok (StaticFiles.serve site.fs site.files site.publicDir (bytes "index.html")
    (site.order req.headers) {})

/-- The handler of `staticfiles::mount`. -/
def asset : Handler World := fun req w =>
  let rel := (req.routeParams.lookup (bytes "path")).getD []
  -- `operator[]` stores what it does not find.
  let req := { req with routeParams := req.routeParams.insert (bytes "path") rel }
  (.ok (StaticFiles.serve site.fs site.files site.publicDir rel (site.order req.headers) {}),
    req, w)

/-- One item of the list; a missing cell throws. -/
def itemJson (r : Row) : Option Bytes :=
  (r.getInt (bytes "id")).bind fun id => (r.getString (bytes "name")).map fun name =>
    bytes "\x7b\"id\":" ++ intToString id ++ bytes ",\"name\":\"" ++ jsonEscape name
      ++ bytes "\"\x7d"

/-- The loop over the items. -/
def itemsJson : List Row → Bool → Option Bytes
  | [], _ => some []
  | r :: rows, first =>
    (itemJson r).bind fun json => (itemsJson rows false).map fun rest =>
      (if first then [] else bytes ",") ++ json ++ rest

/-- `?limit`, of a list of `size` rows. -/
def limit (req : Request) (size : Nat) : Nat :=
  match req.query.lookup (bytes "limit") with
  | none => size
  | some text =>
    match stoul text with
    | none => size
    | some n => min size n

/-- `GET /api/items`. -/
def listItems : Handler World := pureHandler fun req w =>
  let rows := w.db.all (bytes "items")
  match itemsJson (rows.take (limit req rows.length)) true with
  | none => .error (.exception site.outOfRange)
  | some json => .ok (Response.json (bytes "[" ++ json ++ bytes "]") 200)

/-- The form field `name`. -/
def itemName (req : Request) : Bytes :=
  ((Session.parseForm req.body).lookup (bytes "name")).getD []

/-- The row of an item. -/
def itemRow (name : Bytes) : Row := Row.empty.set (bytes "name") (.string name)

/-- `POST /api/items`. -/
def createItem : Handler World := fun req w =>
  let name := itemName req
  if name = [] then
    (.ok (Response.json (bytes "\x7b\"error\":\"name is required\"\x7d") 422), req, w)
  else
    let (id, db) := w.db.insert (bytes "items") (itemRow name)
    (.ok (Response.json (bytes "\x7b\"id\":" ++ intToString id ++ bytes ",\"name\":\""
      ++ jsonEscape name ++ bytes "\"\x7d") 201), req, { w with db })

/-- The row of a save-state. -/
def saveRow (req : Request) : Row :=
  let name := (req.query.lookup (bytes "name")).getD (bytes "unnamed")
  (Row.empty.set (bytes "name") (.string name)).set (bytes "data") (.string req.body)

/-- `POST /api/savestates`. -/
def createSave : Handler World := fun req w =>
  if req.body = [] then
    (.ok (Response.json (bytes "\x7b\"error\":\"empty body\"\x7d") 422), req, w)
  else
    let (id, db) := w.db.insert (bytes "savestates") (saveRow req)
    (.ok (Response.json (bytes "\x7b\"id\":" ++ intToString id ++ bytes "\x7d") 201), req,
      { w with db })

/-- `GET /api/savestates/{id}`. -/
def getSave : Handler World := pureHandler fun req w =>
  match (req.routeParams.lookup (bytes "id")).bind stoll with
  | none => .ok (Response.json (bytes "\x7b\"error\":\"bad id\"\x7d") 422)
  | some id =>
    match w.db.find (bytes "savestates") id.toInt with
    | none => .ok (Response.json (bytes "\x7b\"error\":\"not found\"\x7d") 404)
    | some row =>
      match row.getString (bytes "data") with
      | none => .error (.exception site.outOfRange)
      | some data => .ok (responseBytes data)

/-! ### Wiring -/

/-- `tok::requires_ability`. -/
def requiresAbility (ability : Bytes) : Middleware World := fun req =>
  .act (fun w => w) fun w =>
    match Token.requiresAbility site.sha256 ability site.tokenSecret w.clock
        (site.order req.headers) with
    | some refusal => .finish (.ok refusal) req
    | none => .call req .finish

/-- The calls of `router->get` and `router->post`. -/
def registrations : List (Registration World) :=
  [ { method := bytes "GET", uri := bytes "/", handler := index site },
    { method := bytes "GET", uri := bytes "/assets/\x7bpath*\x7d", handler := asset site },
    { method := bytes "GET", uri := bytes "/api/items", handler := listItems site },
    { method := bytes "POST", uri := bytes "/api/items", handler := createItem
      middleware := [requiresAbility site (bytes "items:write")] },
    { method := bytes "POST", uri := bytes "/api/savestates", handler := createSave
      middleware := [requiresAbility site (bytes "saves:write")] },
    { method := bytes "GET", uri := bytes "/api/savestates/\x7bid\x7d", handler := getSave site } ]

/-- The database with which the application starts. -/
def seeded : MemoryConnection :=
  [bytes "first", bytes "second"].foldl
    (fun db name => (db.insert (bytes "items") (itemRow name)).2) MemoryConnection.empty

/-- `bootstrap`: the kernel. -/
def bootstrap : Option (Kernel World) :=
  (registerAll [] (registrations site)).map fun router => { router, globals := [] }

end

/-- A request that the kernel is given at some time. -/
structure Arrival where
  req : Request
  clock : Int64

/-- The database after some requests, one after the other. -/
def serveAll (k : Kernel World) (db : MemoryConnection) (as : List Arrival) : MemoryConnection :=
  as.foldl (fun db a => (handle k a.req ⟨db, a.clock⟩).world.db) db

/-! ### The server (`examples/coco-web/main.cpp`) -/

/-- The server; the terminal does not touch the database. -/
def server (site : Site) (k : Kernel World) : HttpServer World where
  kernel := contract k
  wsHandlers := fun path => if path = bytes "/terminal" then some fun _ w => w else none
  order := site.order

/-- A client: what `recv` and `send` return, and when. -/
structure Client where
  recvs : List Bytes
  sends : List Int
  remoteAddr : Bytes
  clock : Int64

/-- What happens to a client. -/
def Client.served (s : HttpServer World) (db : MemoryConnection) (c : Client) : Served World :=
  s.handleClient c.remoteAddr c.recvs c.sends ⟨db, c.clock⟩

/-- The database after some clients. -/
def serveClients (s : HttpServer World) (db : MemoryConnection) (cs : List Client) :
    MemoryConnection :=
  cs.foldl (fun db c => (c.served s db).world.db) db

end CppLaravel.CocoWeb
