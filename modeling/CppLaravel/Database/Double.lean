import CppLaravel.Bytes

/-!
# `CppLaravel.Database.Double`: the `double` cells of a row

A `double` is its 64 bits in IEEE 754 binary64. What is here is what the conversions and the
comparisons of cells use: the order, the cast to and from an integer, and `std::to_string`,
which prints six decimals.
-/

set_option autoImplicit false

namespace CppLaravel.Database

/-- A `double`. -/
structure Double where
  bits : BitVec 64
deriving DecidableEq

namespace Double

def isNegative (d : Double) : Bool := d.bits.msb

/-- The bits without the sign. -/
def magnitude (d : Double) : Nat := d.bits.toNat % 2 ^ 63

def exponent (d : Double) : Nat := d.magnitude / 2 ^ 52

def fraction (d : Double) : Nat := d.magnitude % 2 ^ 52

def isNan (d : Double) : Bool := d.exponent = 2047 ∧ d.fraction ≠ 0

def isInfinite (d : Double) : Bool := d.exponent = 2047 ∧ d.fraction = 0

/-- Numbers are ordered as their bits with the sign; both zeros have the key `0`. -/
def key (d : Double) : Int := if d.isNegative then -d.magnitude else d.magnitude

/-- `==`: nothing equals a NaN. -/
def eq (d d' : Double) : Bool := !d.isNan && !d'.isNan && d.key = d'.key

/-- `<`. -/
def lt (d d' : Double) : Bool := !d.isNan && !d'.isNan && d.key < d'.key

/-- The magnitude of a finite number is this multiple of `2 ^ (-1074)`. -/
def units (d : Double) : Nat :=
  if d.exponent = 0 then d.fraction else (2 ^ 52 + d.fraction) * 2 ^ (d.exponent - 1)

/-- `static_cast<std::int64_t>`: towards zero. Outside the range, where the cast has no defined
value, the number is kept. -/
def toInt (d : Double) : Int :=
  let magnitude : Nat := d.units / 2 ^ 1074
  if d.isNegative then -magnitude else magnitude

/-- A quotient rounded to the nearest integer, ties to even. -/
def roundedDiv (n m : Nat) : Nat :=
  let q := n / m
  if 2 * (n % m) < m ∨ 2 * (n % m) = m ∧ q % 2 = 0 then q else q + 1

/-- `static_cast<double>` of an integer, rounded to nearest. A carry out of the fraction counts up
the exponent. -/
def ofInt (i : Int) : Double :=
  let n := i.natAbs
  let top := Nat.log2 n
  let significand := if top ≤ 52 then n * 2 ^ (52 - top) else roundedDiv n (2 ^ (top - 52))
  let magnitude := if n = 0 then 0 else (top + 1023) * 2 ^ 52 + (significand - 2 ^ 52)
  ⟨BitVec.ofNat 64 (if i < 0 then 2 ^ 63 + magnitude else magnitude)⟩

/-- `std::to_string`, as `%f` prints. -/
def toString (d : Double) : Bytes :=
  let sign := if d.isNegative then bytes "-" else []
  if d.isNan then sign ++ bytes "nan"
  else if d.isInfinite then sign ++ bytes "inf"
  else
    let millionths := roundedDiv (d.units * 10 ^ 6) (2 ^ 1074)
    let decimals := natToString (millionths % 10 ^ 6)
    sign ++ natToString (millionths / 10 ^ 6) ++ bytes "." ++
      List.replicate (6 - decimals.length) 48 ++ decimals

end Double

end CppLaravel.Database
