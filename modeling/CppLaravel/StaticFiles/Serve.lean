import CppLaravel.Http.Message
import CppLaravel.StaticFiles.Resolve

/-!
# `CppLaravel.StaticFiles.Serve`: serving a file or a part of it (`include/static_files.hpp`)

`serve` answers with a whole file, with the part that a `Range` header asks for, or without one.
What the disk holds is a parameter: the regular files by their paths, which do not change
while a request is answered. Sizes and positions are `long long` in the source; none of its
sums leaves that type, so they are integers here.
-/

set_option autoImplicit false

namespace CppLaravel.StaticFiles

open CppLaravel.Lib CppLaravel.Http

/-- `Options`. -/
structure Options where
  cacheControl : Bytes := bytes "public, max-age=3600"
  extraHeaders : List (Bytes × Bytes) := []

/-- `detail::apply_extra`. -/
def applyExtra (r : Response) (opts : Options) : Response :=
  { r with headers := insertAll r.headers opts.extraHeaders }

/-- What stands behind the last `.` of a path. -/
def extension (path : Bytes) : Bytes :=
  if 46 ∈ path then path.rtakeWhile (· ≠ 46) else []

/-- `mime_type`. -/
def mimeType (path : Bytes) : Bytes :=
  let ext := lower (extension path)
  if ext = bytes "wasm" then bytes "application/wasm"
  else if ext = bytes "js" || ext = bytes "mjs" then bytes "application/javascript"
  else if ext = bytes "html" || ext = bytes "htm" then bytes "text/html; charset=utf-8"
  else if ext = bytes "css" then bytes "text/css"
  else if ext = bytes "json" then bytes "application/json"
  else if ext = bytes "svg" then bytes "image/svg+xml"
  else if ext = bytes "png" then bytes "image/png"
  else if ext = bytes "jpg" || ext = bytes "jpeg" then bytes "image/jpeg"
  else if ext = bytes "gif" then bytes "image/gif"
  else if ext = bytes "ico" then bytes "image/x-icon"
  else if ext = bytes "woff2" then bytes "font/woff2"
  else if ext = bytes "woff" then bytes "font/woff"
  else if ext = bytes "wav" then bytes "audio/wav"
  else if ext = bytes "txt" then bytes "text/plain; charset=utf-8"
  else bytes "application/octet-stream"

example : mimeType (bytes "dist/app.min.JS") = bytes "application/javascript" := by decide

/-- `header_ci`: the value of the first header that has the name in any case, where `headers` are
those of the request in the order of the iteration. -/
def headerCi (headers : List (Bytes × Bytes)) (name : Bytes) : Bytes :=
  match headers.find? fun kv => lower kv.1 = lower name with
  | some kv => kv.2
  | none => []

/-! ### Ranges -/

/-- `detail::Range`; `last` is its `end`. -/
structure Range where
  present : Bool := false
  satisfiable : Bool := false
  start : Int := 0
  last : Int := 0
  deriving DecidableEq

/-- The end of `parse_range`: the range is cut at the end of the file, and is satisfiable if
something is left of it. -/
def Range.fit (r : Range) (size : Int) : Range :=
  let r := if r.last > size - 1 then { r with last := size - 1 } else r
  if r.start < 0 ∨ r.start > r.last ∨ r.start ≥ size then r else { r with satisfiable := true }

/-- The `try` block of `parse_range` and what follows it: the texts around the dash. -/
def parseEnds (a b : Bytes) (size : Int) : Range :=
  let r : Range := { present := true }
  if a = [] then
    -- A suffix: the last `b` bytes.
    if b = [] then r
    else
      match stoll b with
      | none => r
      | some n =>
        if n.toInt ≤ 0 then r
        else
          { r with
            start := if size > n.toInt then size - n.toInt else 0
            last := size - 1 : Range }.fit size
  else
    match stoll a with
    | none => r
    | some start =>
      let r := { r with start := start.toInt }
      if b = [] then { r with last := size - 1 : Range }.fit size
      else
        match stoll b with
        -- The start is stored before the other number is read.
        | none => r
        | some last => { r with last := last.toInt : Range }.fit size

/-- `detail::parse_range`. -/
def parseRange (header : Bytes) (size : Int) : Range :=
  if ¬ bytes "bytes=" <+: header then {}
  else
    let spec := header.drop (bytes "bytes=").length
    match find spec [45] 0 with
    | none => { present := true }
    | some dash => parseEnds (substr spec 0 dash) (spec.drop (dash + 1)) size

/-! ### Answers -/

/-- A regular file: what it holds, and the count of its last write time. -/
structure File where
  content : Bytes
  mtime : Int

/-- `fs::file_size`. -/
def File.size (f : File) : Int := f.content.length

/-- The regular files, by their paths. -/
abbrev Files := Bytes → Option File

/-- The entity tag of a file. -/
def File.etag (f : File) : Bytes :=
  [34] ++ intToString f.size ++ bytes "-" ++ intToString f.mtime ++ [34]

/-- `seekg` and `read`: a buffer of zeros of that length, with what the file has from there
written over it. -/
def File.read (f : File) (start len : Nat) : Bytes :=
  let got := substr f.content start len
  got ++ List.replicate (len - got.length) 0

/-- `Content-Range` of a part. -/
def contentRange (r : Range) (size : Int) : Bytes :=
  bytes "bytes " ++ intToString r.start ++ bytes "-" ++ intToString r.last ++ bytes "/"
    ++ intToString size

section
variable (opts : Options) (path : Bytes) (f : File)

/-- The answer `304`. -/
def notModified : Response :=
  applyExtra
    { status := 304
      headers := insertAll ∅
        [(bytes "ETag", f.etag), (bytes "Cache-Control", opts.cacheControl)] } opts

/-- The answer `416`. -/
def rangeNotSatisfiable : Response :=
  applyExtra
    { status := 416
      headers := insertAll ∅
        [(bytes "Content-Range", bytes "bytes */" ++ intToString f.size)] } opts

/-- The answer `206`. -/
def partialContent (rg : Range) : Response :=
  let len := rg.last - rg.start + 1
  applyExtra
    { status := 206
      body := f.read rg.start.toNat len.toNat
      headers := insertAll ∅
        [(bytes "Content-Type", mimeType path), (bytes "Content-Range", contentRange rg f.size),
          (bytes "Accept-Ranges", bytes "bytes"), (bytes "Cache-Control", opts.cacheControl),
          (bytes "ETag", f.etag)] } opts

/-- The answer `200`. -/
def wholeFile : Response :=
  applyExtra
    { status := 200
      body := f.content
      headers := insertAll ∅
        [(bytes "Content-Type", mimeType path), (bytes "Accept-Ranges", bytes "bytes"),
          (bytes "Cache-Control", opts.cacheControl), (bytes "ETag", f.etag)] } opts

end

/-- `Response{404, "Not Found"}`. -/
def notFound : Response := { status := 404, body := bytes "Not Found" }

/-- `serve`, where `headers` are those of the request in the order of the iteration. -/
def serve (fs : Canonicalise) (files : Files) (root rel : Bytes) (headers : List (Bytes × Bytes))
    (opts : Options) : Response :=
  let path := safeResolve fs root rel
  if path = [] then notFound
  else
    match files path with
    | none => notFound
    | some f =>
      if headerCi headers (bytes "If-None-Match") = f.etag then notModified opts f
      else
        let range := headerCi headers (bytes "Range")
        if range = [] then wholeFile opts path f
        else
          let rg := parseRange range f.size
          if rg.present && !rg.satisfiable then rangeNotSatisfiable opts f
          else if rg.satisfiable then partialContent opts path f rg
          else wholeFile opts path f

end CppLaravel.StaticFiles
