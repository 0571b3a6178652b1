import CppLaravel.Http.Message
import CppLaravel.Lib.ConstantTime

/-!
# `CppLaravel.Hash.Pbkdf2`: salted password hashes (`include/pbkdf2_hash.hpp`)

A hash is stored as `pbkdf2$<iterations>$<salt-hex>$<derived-hex>`. The key derivation of the
library is a parameter: a deterministic function of the password, the salt and the number of
iterations, which may fail and then leaves the buffer as it was. `none` is an exception that leaves
a function.
-/

set_option autoImplicit false

namespace CppLaravel.Pbkdf2

open CppLaravel.Lib CppLaravel.Http

/-! ### Reading hexadecimal numbers -/

/-- A hexadecimal digit. -/
def isHexDigit (c : UInt8) : Bool := (hexValue c).isSome

/-- A text without the `0x` in front of a hexadecimal digit. -/
def skipHexPrefix : Bytes → Bytes
  | 48 :: x :: d :: s => if (x = 120 ∨ x = 88) ∧ isHexDigit d then d :: s else 48 :: x :: d :: s
  | s => s

/-- The number that a run of hexadecimal digits writes. -/
def hexDigitsValue (ds : Bytes) : Nat :=
  ds.foldl (fun n d => 16 * n + ((hexValue d).getD 0).toNat) 0

/-- `std::stoi` in base sixteen, behind the blanks and the sign. -/
def readHex (negative : Bool) (s : Bytes) : Option Int :=
  let ds := (skipHexPrefix s).takeWhile isHexDigit
  if ds = [] then none
  else
    let v : Int := if negative then -(hexDigitsValue ds) else hexDigitsValue ds
    if inInt32 v then some v else none

/-- `std::stoi` in base sixteen. -/
def stoiHex (s : Bytes) : Option Int :=
  let (negative, s) := splitSign (s.dropWhile isSpace)
  readHex negative s

/-! ### The hasher -/

/-- `split`. -/
def split (s : Bytes) (d : UInt8) : List Bytes := s.splitOn d

/-- The digits of `hex`. -/
def hexDigit (n : UInt8) : UInt8 := ((bytes "0123456789abcdef")[n.toNat]?).getD 0

/-- `hex`. -/
def hex (d : Bytes) : Bytes :=
  d.flatMap fun b : UInt8 => [hexDigit (b >>> 4), hexDigit (b &&& 0xF)]

/-- `unhex`: two characters at a time; a single one at the end is left. -/
def unhex : Bytes → Option Bytes
  | a :: b :: s =>
    match stoiHex [a, b] with
    | none => none
    | some v => (unhex s).map (UInt8.ofNat (v % 256).toNat :: ·)
  | _ => some []

/-- `constant_time_equal`. -/
def constantTimeEqual (a b : Bytes) : Bool :=
  if a.length ≠ b.length then false else difference a b = 0

/-- The key derivation: what it writes, unless it fails. -/
abbrev Kdf := Bytes → Bytes → Int → Option Bytes

variable (kdf : Kdf)

/-- `derive`; whether the derivation failed is not looked at. -/
def derive (pw salt : Bytes) (iters : Int) : Bytes :=
  (kdf pw salt iters).getD (List.replicate 32 0)

/-- `make`, with the salt that `RAND_bytes` draws. -/
def make (iterations : Int) (salt plain : Bytes) : Bytes :=
  bytes "pbkdf2$" ++ intToString iterations ++ bytes "$" ++ hex salt ++ bytes "$" ++
    hex (derive kdf plain salt iterations)

/-- `check`. -/
def check (plain hashed : Bytes) : Option Bool :=
  match split hashed 36 with
  | [scheme, count, saltText, expectedText] =>
    if scheme ≠ bytes "pbkdf2" then some false
    else
      match stoi count with
      | none => some false
      | some iters =>
        match unhex saltText with
        | none => none
        | some salt =>
          match unhex expectedText with
          | none => none
          | some expected => some (constantTimeEqual (derive kdf plain salt iters) expected)
  | _ => some false

end CppLaravel.Pbkdf2
