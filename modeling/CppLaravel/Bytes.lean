import Mathlib.Data.Bool.AllAny
import Mathlib.Data.List.Basic
import Mathlib.Data.Nat.Digits.Defs

/-!
# `CppLaravel.Bytes`: `std::string` as a list of bytes

The C++ code keeps texts and binary data in `std::string`, a sequence of bytes. `Bytes` is
that sequence, `bytes` a string literal of the source, and `toString`-like conversions
produce the ASCII bytes that `std::to_string` produces.
-/

set_option autoImplicit false

namespace CppLaravel

/-- A `std::string`: its bytes in order. -/
abbrev Bytes := List UInt8

instance : LawfulBEq Bytes := inferInstance

/-- A property of the 256 bytes is one of every byte. -/
theorem byte_of_fin {P : UInt8 → Prop} (h : ∀ n : Fin 256, P (UInt8.ofNat n)) (c : UInt8) :
    P c := by
  have hc := h ⟨c.toNat, c.toNat_lt⟩
  rwa [UInt8.ofNat_toNat] at hc

/-- The bytes of an ASCII string literal of the source. -/
def bytes (s : String) : Bytes := s.toList.map fun c => UInt8.ofNat c.toNat

/-- The ASCII digit of a number below ten. -/
def digitByte (d : Nat) : UInt8 := UInt8.ofNat (48 + d)

/-- The decimal digits of a natural number, most significant first; `0` is `"0"`. -/
def natToString (n : Nat) : Bytes :=
  if n = 0 then [digitByte 0] else (Nat.digits 10 n).reverse.map digitByte

/-- `std::to_string` of a signed integer. -/
def intToString : Int → Bytes
  | .ofNat n => natToString n
  | .negSucc n => 45 :: natToString (n + 1)

example : intToString (-120) = bytes "-120" := by decide

end CppLaravel
