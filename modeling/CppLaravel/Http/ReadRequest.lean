import CppLaravel.Http.Message

/-!
# `CppLaravel.Http.ReadRequest`: reading a request off a socket (`src/http_server.cpp`)

`readRequest` is the loop of `read_request` over the results of `recv`: it appends each to
its buffer, looks for the end of the header block until it has found it, and then waits for
the declared body. Sizes are `std::size_t`, so the end of the body is computed modulo
`2 ^ 64`. `outcome` is what `handle_client` does with the result.
-/

set_option autoImplicit false

namespace CppLaravel.Http

open CppLaravel.Lib

/-- `HttpServer::Limits`, without the timeout: a read that times out is a `recv` that
returns nothing. -/
structure Limits where
  maxHeaderBytes : Nat := 64 * 1024
  maxBodyBytes : Nat := 16 * 1024 * 1024

/-- `ReadResult::Status`. -/
inductive ReadStatus where
  | ok
  | closed
  | headerTooLarge
  | bodyTooLarge
  | lengthRequired
deriving DecidableEq

/-- `ReadResult`. -/
structure ReadResult where
  status : ReadStatus
  data : Bytes

/-- The locals of `read_request`. -/
structure Reading where
  data : Bytes := []
  haveHeaders : Bool := false
  headerEnd : Nat := 0
  contentLength : Nat := 0

/-- The end of the loop body: the request is complete, or the loop goes on. -/
def awaitBody (r : Reading) : Except ReadResult Reading :=
  if (r.headerEnd + r.contentLength) % 2 ^ 64 ≤ r.data.length then .error ⟨.ok, r.data⟩ else .ok r

/-- The loop body, on what `recv` returned: a result, or the locals to go on with. -/
def readChunk (limits : Limits) (r : Reading) (buf : Bytes) : Except ReadResult Reading :=
  let data := r.data ++ buf
  if r.haveHeaders then awaitBody { r with data := data }
  else
    match find data blankLine 0 with
    | none =>
      if limits.maxHeaderBytes < data.length then .error ⟨.headerTooLarge, data⟩
      else .ok { r with data := data }
    | some pos =>
      let head := substr data 0 pos
      if limits.maxHeaderBytes < head.length then .error ⟨.headerTooLarge, data⟩
      else if hasChunkedBody head then .error ⟨.lengthRequired, data⟩
      else
        let contentLength := (parseContentLength head).getD 0
        if limits.maxBodyBytes < contentLength then .error ⟨.bodyTooLarge, data⟩
        else awaitBody ⟨data, true, pos + 4, contentLength⟩

/-- The loop, over what the calls of `recv` return; after them, and when one returns nothing,
the peer is gone. -/
def readLoop (limits : Limits) (r : Reading) : List Bytes → ReadResult
  | [] => ⟨.closed, r.data⟩
  | buf :: rest =>
    if buf = [] then ⟨.closed, r.data⟩
    else
      match readChunk limits r buf with
      | .error result => result
      | .ok r => readLoop limits r rest

/-- `read_request`. -/
def readRequest (limits : Limits) (recvs : List Bytes) : ReadResult := readLoop limits {} recvs

/-- The request that `handle_client` goes on with, if any. -/
def ReadResult.request (r : ReadResult) : Option Request :=
  if r.status = .ok then parseHttpRequest r.data else none

/-- The status of the read, and the request. -/
def outcome (limits : Limits) (recvs : List Bytes) : ReadStatus × Option Request :=
  let r := readRequest limits recvs
  (r.status, r.request)

end CppLaravel.Http
