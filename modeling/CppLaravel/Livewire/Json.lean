import CppLaravel.Http.Message
import CppLaravel.Lib.Escaped

/-!
# `CppLaravel.Livewire.Json`: the wire format of components (`include/livewire.hpp`)

The namespace `lwjson`: `esc` and `object` write, `field`, `objectField` and `parseObject`
read, and `parseRequest` is what `Livewire::handle` reads of a request. A map is written in
the order in which an iteration meets its entries.

The readers search for quoted keys and count braces; neither keeps track of whether it is
inside a string.
-/

set_option autoImplicit false

namespace CppLaravel.Livewire

open CppLaravel.Lib
open CppLaravel.Http

/-- The bytes that have a meaning in the format. -/
abbrev quote : UInt8 := 34
abbrev backslash : UInt8 := 92
abbrev colon : UInt8 := 58
abbrev comma : UInt8 := 44
abbrev lbrace : UInt8 := 123
abbrev rbrace : UInt8 := 125

/-- `esc`. -/
def esc : Bytes → Bytes
  | [] => []
  | c :: s =>
    if c = quote then backslash :: quote :: esc s
    else if c = backslash then backslash :: backslash :: esc s
    else if c = 10 then backslash :: 110 :: esc s
    else if c = 13 then backslash :: 114 :: esc s
    else if c = 9 then backslash :: 116 :: esc s
    else c :: esc s

/-- A string of the format. -/
def str (s : Bytes) : Bytes := quote :: (esc s ++ [quote])

/-- An entry of an object. -/
def entry (kv : Bytes × Bytes) : Bytes := str kv.1 ++ colon :: str kv.2

/-- `object`. -/
def object (entries : List (Bytes × Bytes)) : Bytes :=
  lbrace :: ([comma].intercalate (entries.map entry) ++ [rbrace])

/-- What a reader makes of the byte behind a backslash: `n` and `t` are a newline and a tab,
every other byte is itself. -/
def unescape (n : UInt8) : UInt8 := if n = 110 then 10 else if n = 116 then 9 else n

/-- The loop that reads a string behind its opening quote: the content, and the text from the
closing quote on. -/
def readString (t : Bytes) : Bytes × Bytes := scan quote backslash unescape t

/-- The pattern that finds a key. -/
def quoted (key : Bytes) : Bytes := quote :: (key ++ [quote])

/-- `field`. -/
def field (s key : Bytes) : Bytes :=
  match find s (quoted key) 0 with
  | none => []
  | some p =>
    match find s [colon] (p + (quoted key).length) with
    | none => []
    | some p =>
      match find s [quote] p with
      | none => []
      | some p => (readString (s.drop (p + 1))).1

/-- The loop of `object_field`: the number of bytes up to the one where the depth is zero
again. -/
def objectEnd : Bytes → Int → Option Nat
  | [], _ => none
  | c :: s, depth =>
    if c = lbrace then (objectEnd s (depth + 1)).map (· + 1)
    else if c = rbrace then
      if depth - 1 = 0 then some 1 else (objectEnd s (depth - 1)).map (· + 1)
    else (objectEnd s depth).map (· + 1)

/-- `object_field`. -/
def objectField (s key : Bytes) : Bytes :=
  match find s (quoted key) 0 with
  | none => bytes "\x7b\x7d"
  | some p =>
    match find s [lbrace] p with
    | none => bytes "\x7b\x7d"
    | some p =>
      match objectEnd (s.drop p) 0 with
      | none => bytes "\x7b\x7d"
      | some n => substr s p n

theorem readString_length (t : Bytes) : (readString t).2.length ≤ t.length := scan_length t

/-- The loop of `parse_object` from the position `i`. -/
def parseLoop (s : Bytes) (i : Nat) (out : StringMap) : StringMap :=
  if i < s.length then
    match _hq : find s [quote] i with
    | none => out
    | some q =>
      let key := readString (s.drop (q + 1))
      let q' := s.length - key.2.length
      match _hc : find s [colon] q' with
      | none => out
      | some c =>
        match _hv : find s [quote] c with
        | none => out
        | some v =>
          let val := readString (s.drop (v + 1))
          let v' := s.length - val.2.length
          parseLoop s (v' + 1) (out.insert key.1 val.1)
  else out
termination_by s.length - i
decreasing_by
  have hi := le_of_find _hq
  have hq := find_lt (List.cons_ne_nil _ _) _hq
  have hkey := readString_length (s.drop (q + 1))
  have hc : s.length - (readString (s.drop (q + 1))).2.length ≤ c := le_of_find _hc
  have hv := le_of_find _hv
  have hlt := find_lt (List.cons_ne_nil _ _) _hv
  have hval := readString_length (s.drop (v + 1))
  rw [List.length_drop] at hkey hval
  show s.length - (s.length - (readString (s.drop (v + 1))).2.length + 1) < s.length - i
  omega

/-- `parse_object`. -/
def parseObject (s : Bytes) : StringMap := parseLoop s 0 ∅

/-- `UpdateRequest`. -/
structure UpdateRequest where
  name : Bytes
  action : Bytes
  arg : Bytes
  state : StringMap

/-- The request that `Livewire::handle` reads and passes to `update`. -/
def parseRequest (requestJson : Bytes) : UpdateRequest where
  name := field requestJson (bytes "name")
  action := field requestJson (bytes "action")
  arg := field requestJson (bytes "arg")
  state := parseObject (objectField requestJson (bytes "state"))

/-- The text of a request as a client builds it, in this order of the fields. -/
def requestText (name action arg : Bytes) (state : List (Bytes × Bytes)) : Bytes :=
  lbrace :: (entry (bytes "name", name) ++ comma :: (entry (bytes "action", action) ++
    comma :: (entry (bytes "arg", arg) ++ comma :: (str (bytes "state") ++
      colon :: (object state ++ [rbrace])))))

example : requestText (bytes "c") (bytes "a") [] [(bytes "k", bytes "\"")] =
    bytes ("\x7b\"name\":\"c\",\"action\":\"a\",\"arg\":\"\",\"state\":" ++
      "\x7b\"k\":\"\\\"\"\x7d\x7d") := by decide

end CppLaravel.Livewire
