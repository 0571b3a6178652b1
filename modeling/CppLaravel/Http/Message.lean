import CppLaravel.Decimal
import CppLaravel.Lib.Find
import Mathlib.Data.Finmap
import Mathlib.Data.List.DropRight

/-!
# `CppLaravel.Http.Message`: the text of a request (`include/http.hpp`, `src/http_server.cpp`)

Two parsers read the header lines of a request. `headerValue` searches the lower-cased head
for a line that starts with a name and a colon, and is what `parseContentLength` and
`hasChunkedBody` frame the body by. `parseHttpRequest` splits the head into lines, cuts each
at its first colon, and stores the trimmed parts in a map, a later line over an earlier one.
-/

set_option autoImplicit false

namespace CppLaravel.Http

open CppLaravel.Lib

/-- A map from strings to strings. -/
abbrev StringMap := Finmap fun _ : Bytes => Bytes

/-- The entries of a map, in the order in which an iteration meets them. -/
structure Visits (entries : List (Bytes × Bytes)) (m : StringMap) : Prop where
  mem_iff : ∀ k v, (k, v) ∈ entries ↔ m.lookup k = some v
  nodup : (entries.map Prod.fst).Nodup

/-- A map with one entry. -/
theorem visits_singleton (k v : Bytes) : Visits [(k, v)] (Finmap.singleton k v) where
  mem_iff := by
    intro k' v'
    rw [List.mem_singleton, Prod.mk.injEq]
    constructor
    · rintro ⟨rfl, rfl⟩
      exact Finmap.lookup_singleton_eq
    · intro h
      obtain rfl := (Finmap.mem_singleton _ _ _).mp (Finmap.mem_of_lookup_eq_some h)
      exact ⟨rfl, Option.some.inj (h.symm.trans Finmap.lookup_singleton_eq)⟩
  nodup := List.nodup_singleton _

/-- A map with one more entry. -/
theorem Visits.insert {entries : List (Bytes × Bytes)} {m : StringMap} (h : Visits entries m)
    {k : Bytes} (hk : m.lookup k = none) (v : Bytes) :
    Visits (entries ++ [(k, v)]) (m.insert k v) where
  mem_iff := by
    intro k' v'
    rw [List.mem_append, List.mem_singleton, Prod.mk.injEq, h.mem_iff]
    by_cases hkey : k' = k
    · subst hkey
      simp [hk, eq_comm]
    · simp [hkey, Finmap.lookup_insert_of_ne]
  nodup := by
    have hnew : k ∉ entries.map Prod.fst := by
      intro hmem
      obtain ⟨⟨k', v'⟩, hkv, rfl⟩ := List.mem_map.mp hmem
      rw [(h.mem_iff k' v').mp hkv] at hk
      cases hk
    rw [List.map_append]
    exact h.nodup.append (List.nodup_singleton k) (List.disjoint_singleton.mpr hnew)

/-- There is an order in which an iteration can meet the entries. -/
theorem exists_visits (m : StringMap) : ∃ entries, Visits entries m := by
  induction m using Finmap.induction_on with
  | H a =>
    refine ⟨a.entries.map fun s => (s.1, s.2), ?_, ?_⟩
    · intro k v
      rw [Finmap.lookup_toFinmap]
      show _ ↔ v ∈ AList.lookup k a
      rw [AList.mem_lookup_iff, List.mem_map]
      constructor
      · rintro ⟨⟨k', v'⟩, hmem, heq⟩
        obtain ⟨rfl, rfl⟩ := Prod.mk.inj heq
        exact hmem
      · intro hmem
        exact ⟨⟨k, v⟩, hmem, rfl⟩
    · rw [List.map_map]
      exact a.nodupKeys

/-- Stores entries in a map, one after the other. -/
def insertAll (m : StringMap) (entries : List (Bytes × Bytes)) : StringMap :=
  entries.foldl (fun m kv => m.insert kv.1 kv.2) m

theorem insertAll_cons (m : StringMap) (kv : Bytes × Bytes) (entries : List (Bytes × Bytes)) :
    insertAll m (kv :: entries) = insertAll (m.insert kv.1 kv.2) entries := rfl

/-- What is stored is an entry, or was there before. -/
theorem mem_of_lookup_insertAll {m : StringMap} {entries : List (Bytes × Bytes)} {k v : Bytes}
    (h : (insertAll m entries).lookup k = some v) : (k, v) ∈ entries ∨ m.lookup k = some v := by
  induction entries generalizing m with
  | nil => exact .inr h
  | cons kv entries ih =>
    rcases ih h with hmem | hlookup
    · exact .inl (List.mem_cons_of_mem kv hmem)
    · by_cases hk : k = kv.1
      · subst hk
        rw [Finmap.lookup_insert] at hlookup
        obtain rfl := Option.some.inj hlookup
        exact .inl List.mem_cons_self
      · rw [Finmap.lookup_insert_of_ne _ hk] at hlookup
        exact .inr hlookup

/-- A key that is not stored keeps its value. -/
theorem lookup_insertAll_of_notMem {m : StringMap} {entries : List (Bytes × Bytes)} {k : Bytes}
    (h : k ∉ entries.map Prod.fst) : (insertAll m entries).lookup k = m.lookup k := by
  induction entries generalizing m with
  | nil => rfl
  | cons kv entries ih =>
    rw [List.map_cons, List.mem_cons, not_or] at h
    rw [insertAll_cons, ih h.2, Finmap.lookup_insert_of_ne _ h.1]

/-- Entries with different keys are all there afterwards. -/
theorem lookup_insertAll_of_mem {m : StringMap} {entries : List (Bytes × Bytes)}
    (hnodup : (entries.map Prod.fst).Nodup) {k v : Bytes} (h : (k, v) ∈ entries) :
    (insertAll m entries).lookup k = some v := by
  induction entries generalizing m with
  | nil => cases h
  | cons kv entries ih =>
    obtain ⟨hkey, htail⟩ := List.nodup_cons.mp hnodup
    rcases List.mem_cons.mp h with rfl | hmem
    · rw [insertAll_cons, lookup_insertAll_of_notMem hkey, Finmap.lookup_insert]
    · exact ih htail hmem

/-- A map is its entries, stored one after the other. -/
theorem Visits.insertAll_eq {entries : List (Bytes × Bytes)} {m : StringMap}
    (h : Visits entries m) : insertAll ∅ entries = m := by
  refine Finmap.ext_lookup fun k => ?_
  cases hk : m.lookup k with
  | some v => exact lookup_insertAll_of_mem h.nodup ((h.mem_iff k v).mpr hk)
  | none =>
    refine (lookup_insertAll_of_notMem fun hmem => ?_).trans (Finmap.lookup_empty k)
    obtain ⟨⟨k', v⟩, hkv, rfl⟩ := List.mem_map.mp hmem
    rw [(h.mem_iff k' v).mp hkv] at hk
    cases hk

/-- The end of a line. -/
def crlf : Bytes := [13, 10]

/-- The end of the header block. -/
def blankLine : Bytes := [13, 10, 13, 10]

/-- `Request`. -/
structure Request where
  method : Bytes
  path : Bytes
  routeParams : StringMap := ∅
  headers : StringMap
  body : Bytes
  cookies : StringMap := ∅
  query : StringMap := ∅
  remoteAddr : Bytes := []

/-- `Response`. -/
structure Response where
  status : Int := 200
  body : Bytes := []
  headers : StringMap := Finmap.singleton (bytes "Content-Type") (bytes "text/plain")

/-- `Response::json`. -/
def Response.json (payload : Bytes) (status : Int) : Response :=
  let r : Response := {}
  { r with
      status := status
      body := payload
      headers := r.headers.insert (bytes "Content-Type") (bytes "application/json") }

/-! ### Strings -/

/-- A space or a tab. -/
def isBlank (c : UInt8) : Bool := c = 32 || c = 9

/-- `trim`: without the blanks at both ends. -/
def trim (s : Bytes) : Bytes := (s.dropWhile isBlank).rdropWhile isBlank

/-- `std::tolower` in the C locale. -/
def toLower (c : UInt8) : UInt8 := if 65 ≤ c ∧ c ≤ 90 then c + 32 else c

/-- `lower`. -/
def lower (s : Bytes) : Bytes := s.map toLower

/-- The value of a hexadecimal digit. -/
def hexValue (c : UInt8) : Option UInt8 :=
  if 48 ≤ c ∧ c ≤ 57 then some (c - 48)
  else if 97 ≤ c ∧ c ≤ 102 then some (c - 97 + 10)
  else if 65 ≤ c ∧ c ≤ 70 then some (c - 65 + 10)
  else none

/-- `url_decode`: `%XX` is the byte it names, `+` a space if `plusAsSpace`; an escape that is
not well formed stands for itself. -/
def urlDecode (plusAsSpace : Bool) : Bytes → Bytes
  | [] => []
  | c :: s =>
    if c = 43 ∧ plusAsSpace then 32 :: urlDecode plusAsSpace s
    else if c = 37 then
      match s with
      | h :: l :: rest =>
        match hexValue h, hexValue l with
        | some hi, some lo => ((hi <<< 4) ||| lo) :: urlDecode plusAsSpace rest
        | _, _ => c :: urlDecode plusAsSpace (h :: l :: rest)
      | s => c :: urlDecode plusAsSpace s
    else c :: urlDecode plusAsSpace s

/-- The `trim` of `parse_pairs`, which leaves tabs alone. -/
def trimSpaces (s : Bytes) : Bytes := (s.dropWhile (· = 32)).rdropWhile (· = 32)

/-- One pair of `parse_pairs`; a piece without `=` is dropped. -/
def addPair (decode : Bool) (out : StringMap) (pair : Bytes) : StringMap :=
  let cook := fun v => if decode then urlDecode true v else v
  match find pair [61] 0 with
  | none => out
  | some eq =>
    out.insert (cook (trimSpaces (substr pair 0 eq))) (cook (trimSpaces (pair.drop (eq + 1))))

/-- The loop of `parse_pairs` from the position `i`. -/
def pairsLoop (s : Bytes) (sep : UInt8) (decode : Bool) (i : Nat) (out : StringMap) : StringMap :=
  if i < s.length then
    match _h : find s [sep] i with
    | none => addPair decode out (s.drop i)
    | some next => pairsLoop s sep decode (next + 1) (addPair decode out (substr s i (next - i)))
  else out
termination_by s.length - i
decreasing_by
  have hi := le_of_find ‹find _ _ _ = some _›
  omega

/-- `parse_pairs`. -/
def parsePairs (s : Bytes) (sep : UInt8) (decode : Bool) : StringMap := pairsLoop s sep decode 0 ∅

/-! ### The framing view of the headers -/

/-- `header_value`: the trimmed rest of the first line that starts with the name and a colon,
whatever its case. -/
def headerValue (head nameLower : Bytes) : Option Bytes :=
  let needle := crlf ++ nameLower ++ [58]
  match find (lower head) needle 0 with
  | none => none
  | some pos =>
    let vstart := pos + needle.length
    match find head crlf vstart with
    | none => some (trim (head.drop vstart))
    | some eol => some (trim (substr head vstart (eol - vstart)))

/-- `parse_content_length`: a value of digits only that fits 64 bits. -/
def parseContentLength (head : Bytes) : Option Nat :=
  match headerValue head (bytes "content-length") with
  | none => none
  | some v =>
    if v = [] then none
    else if v.all isDigit then
      let n := digitsValue v
      if n < 2 ^ 64 then some n else none
    else none

/-- `has_chunked_body`. -/
def hasChunkedBody (head : Bytes) : Bool :=
  match headerValue head (bytes "transfer-encoding") with
  | none => false
  | some v => (find (lower v) (bytes "chunked") 0).isSome

/-! ### The handler's view -/

/-- The method and the target of a request line `METHOD SP TARGET SP VERSION`. -/
def splitRequestLine (line : Bytes) : Option (Bytes × Bytes) :=
  match find line [32] 0 with
  | none => none
  | some sp1 =>
    match find line [32] (sp1 + 1) with
    | none => none
    | some sp2 => some (substr line 0 sp1, substr line (sp1 + 1) (sp2 - sp1 - 1))

/-- One header line; a line without a colon is dropped. -/
def addHeader (headers : StringMap) (line : Bytes) : StringMap :=
  match find line [58] 0 with
  | none => headers
  | some colon => headers.insert (trim (substr line 0 colon)) (trim (line.drop (colon + 1)))

/-- The loop over the header lines from the position `pos`. -/
def headerLoop (head : Bytes) (pos : Nat) (headers : StringMap) : StringMap :=
  if pos < head.length then
    match _h : find head crlf pos with
    | none => addHeader headers (head.drop pos)
    | some nl => headerLoop head (nl + 2) (addHeader headers (substr head pos (nl - pos)))
  else headers
termination_by head.length - pos
decreasing_by
  have hpos := le_of_find ‹find _ _ _ = some _›
  omega

/-- The head of a raw request: what stands before the first blank line, or all of it. -/
def headOf (raw : Bytes) : Bytes :=
  match find raw blankLine 0 with
  | none => raw
  | some e => substr raw 0 e

/-- The body of a raw request. -/
def bodyOf (raw : Bytes) : Bytes :=
  match find raw blankLine 0 with
  | none => []
  | some e => raw.drop (e + 4)

/-- The request line of a head. -/
def requestLine (head : Bytes) : Bytes :=
  match find head crlf 0 with
  | none => head
  | some e => substr head 0 e

/-- The headers of a head. -/
def parseHeaders (head : Bytes) : StringMap :=
  match find head crlf 0 with
  | none => ∅
  | some e => headerLoop head (e + 2) ∅

/-- `parse_http_request`. -/
def parseHttpRequest (raw : Bytes) : Option Request :=
  match splitRequestLine (requestLine (headOf raw)) with
  | none => none
  | some (method, target) =>
    let qmark := find target [63] 0
    some
      { method := method
        path := match qmark with
          | none => target
          | some q => substr target 0 q
        query := match qmark with
          | none => ∅
          | some q => parsePairs (target.drop (q + 1)) 38 true
        body := bodyOf raw
        headers := parseHeaders (headOf raw) }

end CppLaravel.Http
