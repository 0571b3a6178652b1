import CppLaravel.Http.ReadRequest
import CppLaravel.Http.Response
import CppLaravel.Routing.Kernel

/-!
# `CppLaravel.Http.HandleClient`: from one socket to the kernel and back (`src/http_server.cpp`)

`handleClient` reads a request, refuses it, hands the socket to the handler of a WebSocket, or calls
the kernel and sends its response. What the calls of `recv` and `send` return is given; so is the
order in which an iteration meets the entries of a map. A timeout is a `recv` that returns nothing.
-/

set_option autoImplicit false

namespace CppLaravel.Http

open CppLaravel.Lib
open CppLaravel.Routing (Outcome Thrown cString internalServerError)

/-- `KernelContract`: its `handle`. -/
abbrev KernelContract (W : Type) := Request → W → Outcome × W

/-- `HttpServer`, without its threads. -/
structure HttpServer (W : Type) where
  kernel : KernelContract W
  limits : Limits := {}
  /-- A handler owns the socket, and closes it. -/
  wsHandlers : Bytes → Option (Request → W → W) := fun _ => none
  order : StringMap → List (Bytes × Bytes)

/-- What has happened to a client when `handle_client` returns. -/
structure Served (W : Type) where
  sent : Bytes
  closed : Bool
  stderr : Bytes
  world : W

/-- The loop of `is_websocket_upgrade`: the last `Upgrade` and the last `Connection`, of any
case. -/
def upgradeHeaders (headers : List (Bytes × Bytes)) : Option Bytes × Option Bytes :=
  headers.foldl (fun found kv =>
    let name := lower kv.1
    if name = bytes "upgrade" then (some kv.2, found.2)
    else if name = bytes "connection" then (found.1, some kv.2)
    else found) (none, none)

/-- `is_websocket_upgrade`. -/
def isWebsocketUpgrade (headers : List (Bytes × Bytes)) : Bool :=
  match upgradeHeaders headers with
  | (some upgrade, some connection) =>
    (find (lower upgrade) (bytes "websocket") 0).isSome &&
      (find (lower connection) (bytes "upgrade") 0).isSome
  | _ => false

/-- The loop of `send_all`, over what the calls of `send` return; after them the peer is gone. -/
def sendLoop (size sent : Nat) : List Int → Nat
  | [] => sent
  | n :: rest =>
    if sent < size then
      if n ≤ 0 then sent else sendLoop size (sent + n.toNat) rest
    else sent

/-- `send_all`: what of the text is sent. -/
def sendAll (out : Bytes) (sends : List Int) : Bytes := out.take (sendLoop out.length 0 sends)

/-- What is answered when no request could be read. -/
def ReadStatus.refusal : ReadStatus → Option Response
  | .ok => none
  | .closed => none
  | .headerTooLarge => some { status := 431, body := bytes "Request Header Fields Too Large" }
  | .bodyTooLarge => some { status := 413, body := bytes "Payload Too Large" }
  | .lengthRequired => some { status := 411, body := bytes "Length Required" }

def HttpServer.badRequest : Response := { status := 400, body := bytes "Bad Request" }

/-- What is printed for an exception of the kernel. -/
def HttpServer.unhandled : Thrown → Bytes
  | .exception what => bytes "[http] unhandled exception: " ++ cString what ++ bytes "\n"
  | .other => bytes "[http] unhandled non-std exception\n"

variable {W : Type}

/-- `Kernel::handle`; what it prints is left out. -/
def contract (k : Routing.Kernel W) : KernelContract W := fun req w =>
  let handled := Routing.handle k req w
  (.ok handled.response, handled.world)

/-- The last lines of `handle_client`. -/
def HttpServer.respond (s : HttpServer W) (sends : List Int) (res : Response) (stderr : Bytes)
    (w : W) : Served W :=
  ⟨sendAll (formatHttpResponse res (s.order res.headers)) sends, true, stderr, w⟩

/-- The request cycle. -/
def HttpServer.cycle (s : HttpServer W) (sends : List Int) (req : Request) (w : W) : Served W :=
  match s.kernel req w with
  | (.ok res, w) => s.respond sends res [] w
  | (.error e, w) => s.respond sends internalServerError (unhandled e) w

/-- `handle_client`. -/
def HttpServer.handleClient (s : HttpServer W) (remoteAddr : Bytes) (recvs : List Bytes)
    (sends : List Int) (w : W) : Served W :=
  let raw := readRequest s.limits recvs
  match raw.status with
  | .ok =>
    match parseHttpRequest raw.data with
    | none => s.respond sends badRequest [] w
    | some req =>
      let req := { req with remoteAddr := remoteAddr }
      match if isWebsocketUpgrade (s.order req.headers) then s.wsHandlers req.path else none with
      | some handler => ⟨[], false, [], handler req w⟩
      | none => s.cycle sends req w
  | status =>
    match status.refusal with
    | some res => s.respond sends res [] w
    | none => ⟨[], true, [], w⟩

end CppLaravel.Http
