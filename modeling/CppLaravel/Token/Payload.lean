import CppLaravel.Decimal
import CppLaravel.Lib.Find

/-!
# `CppLaravel.Token.Payload`: the claims and their JSON text (`include/token.hpp`)

`claimsJson` writes the payload of a token, `parseClaims` reads it back. The reader is a set
of extractors: each searches the text for its quoted key, from there for the next colon or
bracket, and reads on from that. None of them keeps track of whether it is inside a string.
-/

set_option autoImplicit false

namespace CppLaravel.Token

open CppLaravel.Lib

/-- The bytes that have a meaning in JSON. -/
abbrev quote : UInt8 := 34
abbrev backslash : UInt8 := 92
abbrev colon : UInt8 := 58
abbrev comma : UInt8 := 44
abbrev lbracket : UInt8 := 91
abbrev rbracket : UInt8 := 93

/-- What a token says: a subject, abilities, and the times of issue and expiry (`exp = 0`
never expires). -/
structure Claims where
  sub : Bytes := []
  abilities : List Bytes := []
  iat : Int64 := 0
  exp : Int64 := 0
deriving DecidableEq

/-- `Claims::can`. -/
def Claims.can (c : Claims) (ability : Bytes) : Bool :=
  c.abilities.any fun a => a = ability || a = bytes "*"

/-- `json_escape`: a backslash before each quote and backslash, nothing else. -/
def jsonEscape : Bytes → Bytes
  | [] => []
  | c :: s =>
    if c = quote ∨ c = backslash then backslash :: c :: jsonEscape s else c :: jsonEscape s

/-- A string of the payload. -/
def jsonString (s : Bytes) : Bytes := quote :: (jsonEscape s ++ [quote])

/-- The elements of the abilities array. -/
def jsonElements : List Bytes → Bytes
  | [] => []
  | a :: as => jsonString a ++ as.flatMap fun b => comma :: jsonString b

/-- `claims_json`. -/
def claimsJson (c : Claims) : Bytes :=
  bytes "\x7b\"sub\":" ++ jsonString c.sub ++ bytes ",\"abilities\":[" ++
    jsonElements c.abilities ++ bytes "],\"iat\":" ++ intToString c.iat.toInt ++
    bytes ",\"exp\":" ++ intToString c.exp.toInt ++ bytes "\x7d"

/-- The pattern that finds a key. -/
def quoted (key : Bytes) : Bytes := quote :: (key ++ [quote])

/-- The loop that reads a string behind its opening quote: the content, and the text from
the closing quote on. A backslash at the very end stands for itself. -/
def scanString : Bytes → Bytes × Bytes
  | [] => ([], [])
  | [c] => if c = quote then ([], [c]) else ([c], [])
  | c :: d :: t =>
    if c = backslash then
      let r := scanString t
      (d :: r.1, r.2)
    else if c = quote then ([], c :: d :: t)
    else
      let r := scanString (d :: t)
      (c :: r.1, r.2)

/-- `extract_string`. -/
def extractString (j key : Bytes) : Bytes :=
  match find j (quoted key) 0 with
  | none => []
  | some k =>
    match find j [colon] k with
    | none => []
    | some c =>
      match find j [quote] (c + 1) with
      | none => []
      | some q1 => (scanString (j.drop (q1 + 1))).1

/-- The bytes that `extract_int` collects: blanks skipped, a sign, digits. -/
def numberText (t : Bytes) : Bytes :=
  match t.dropWhile (· = 32) with
  | [] => []
  | c :: s => if c = 45 ∨ c = 43 then c :: s.takeWhile isDigit else (c :: s).takeWhile isDigit

/-- The number at the start of a text; `0` where there is none or it is out of range. -/
def readInt (t : Bytes) : Int64 :=
  let num := numberText t
  if num = [] then 0 else (stoll num).getD 0

/-- `extract_int`. -/
def extractInt (j key : Bytes) : Int64 :=
  match find j (quoted key) 0 with
  | none => 0
  | some k =>
    match find j [colon] k with
    | none => 0
    | some c => readInt (j.drop (c + 1))

theorem scanString_length (t : Bytes) : (scanString t).2.length ≤ t.length := by
  fun_induction scanString t with
  | case1 => exact Nat.le_refl _
  | case2 => exact Nat.le_refl _
  | case3 => exact Nat.zero_le _
  | case4 d t r ih => exact ih.trans (Nat.le_add_right _ 2)
  | case5 => exact Nat.le_refl _
  | case6 c d t _ _ r ih => exact ih.trans (Nat.le_succ _)

/-- The loop of `extract_string_array` from the position `i`, up to the bracket at `rb`. -/
def arrayLoop (j : Bytes) (rb i : Nat) : List Bytes :=
  if i < rb then
    match h : find j [quote] i with
    | none => []
    | some q1 =>
      if rb ≤ q1 then []
      else
        let r := scanString (j.drop (q1 + 1))
        let p := j.length - r.2.length
        r.1 :: arrayLoop j rb (p + 1)
  else []
termination_by rb - i
decreasing_by
  have hi := le_of_find h
  have hq := find_lt (List.cons_ne_nil _ _) h
  have hr := scanString_length (j.drop (q1 + 1))
  rw [List.length_drop] at hr
  omega

/-- `extract_string_array`. -/
def extractStringArray (j key : Bytes) : List Bytes :=
  match find j (quoted key) 0 with
  | none => []
  | some k =>
    match find j [lbracket] k with
    | none => []
    | some lb =>
      match find j [rbracket] lb with
      | none => []
      | some rb => arrayLoop j rb (lb + 1)

/-- `parse_claims`. -/
def parseClaims (json : Bytes) : Claims where
  sub := extractString json (bytes "sub")
  iat := extractInt json (bytes "iat")
  exp := extractInt json (bytes "exp")
  abilities := extractStringArray json (bytes "abilities")

end CppLaravel.Token
