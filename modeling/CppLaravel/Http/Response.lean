import CppLaravel.Http.Message

/-!
# `CppLaravel.Http.Response`: the text of a response (`src/http_server.cpp`, `include/http.hpp`)

`formatHttpResponse` writes the header map as it stands, in the order in which an iteration meets
the entries, and then its own `Content-Length` and `Connection`.
-/

set_option autoImplicit false

namespace CppLaravel.Http

/-- `Response::redirect`. -/
def Response.redirect (url : Bytes) : Response :=
  let r : Response := {}
  { r with status := 302, headers := r.headers.insert (bytes "Location") url }

/-- `reason_phrase`. -/
def reasonPhrase (status : Int) : Bytes :=
  match status with
  | 200 => bytes "OK"
  | 201 => bytes "Created"
  | 206 => bytes "Partial Content"
  | 301 => bytes "Moved Permanently"
  | 302 => bytes "Found"
  | 304 => bytes "Not Modified"
  | 400 => bytes "Bad Request"
  | 401 => bytes "Unauthorized"
  | 403 => bytes "Forbidden"
  | 404 => bytes "Not Found"
  | 405 => bytes "Method Not Allowed"
  | 411 => bytes "Length Required"
  | 413 => bytes "Payload Too Large"
  | 416 => bytes "Range Not Satisfiable"
  | 422 => bytes "Unprocessable Entity"
  | 431 => bytes "Request Header Fields Too Large"
  | 500 => bytes "Internal Server Error"
  | _ => bytes "OK"

/-- `format_http_response`, where `entries` are the headers of the response in the order of the
iteration. -/
def formatHttpResponse (res : Response) (entries : List (Bytes × Bytes)) : Bytes :=
  let out := bytes "HTTP/1.1 " ++ intToString res.status ++ bytes " " ++ reasonPhrase res.status
    ++ crlf
  let out := entries.foldl (fun out h => out ++ (h.1 ++ bytes ": " ++ h.2 ++ crlf)) out
  let out := out ++ (bytes "Content-Length: " ++ natToString res.body.length ++ crlf)
  let out := out ++ (bytes "Connection: close" ++ blankLine)
  out ++ res.body

example : formatHttpResponse { status := 404, body := bytes "x" } [(bytes "A", bytes "b")] =
    bytes "HTTP/1.1 404 Not Found\r\nA: b\r\nContent-Length: 1\r\nConnection: close\r\n\r\nx" := by
  decide

end CppLaravel.Http
