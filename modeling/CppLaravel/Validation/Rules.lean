import CppLaravel.Decimal

/-!
# `CppLaravel.Validation.Rules`: the rules and what they ask for (`include/validation.hpp`)

The rules that the source supports, how they are written, and what each asks of the value of a
field. `min` and `max` compare a bound with the number that the value writes, however long, and with
the length of a value that is no number. This is the meaning that `Validator` is measured by; none
of it reads a text.
-/

set_option autoImplicit false

namespace CppLaravel.Validation

/-- A bound that fits in a `long`. -/
structure Bound where
  numeral : SignedNumeral
  fits : inInt64 numeral.value

/-- The number that a bound writes. -/
def Bound.value (b : Bound) : Int := b.numeral.value

/-- The texts between the commas of an `in` rule: at least one, without a comma and a bar. -/
structure Choices where
  texts : List Bytes
  ne_nil : texts ≠ []
  plain : ∀ t ∈ texts, 44 ∉ t ∧ 124 ∉ t

/-- What a rule may check in a value that is there. -/
inductive Check
  | integer
  | boolean
  | email
  | oneOf (choices : Choices)
  | min (n : Bound)
  | max (n : Bound)

/-- A rule. -/
inductive Rule
  | required
  | check (c : Check)

/-- The name of a check. -/
def Check.name : Check → Bytes
  | .integer => bytes "integer"
  | .boolean => bytes "boolean"
  | .email => bytes "email"
  | .oneOf _ => bytes "in"
  | .min _ => bytes "min"
  | .max _ => bytes "max"

/-- What is written behind the colon, where there is one. -/
def Check.param : Check → Option Bytes
  | .oneOf choices => some (List.intercalate [44] choices.texts)
  | .min n => some n.numeral.text
  | .max n => some n.numeral.text
  | _ => none

/-- How a rule is written. -/
def Rule.text : Rule → Bytes
  | .required => bytes "required"
  | .check c =>
    match c.param with
    | some param => c.name ++ 58 :: param
    | none => c.name

/-- The rules of a field, joined by bars. -/
def spec (rules : List Rule) : Bytes := List.intercalate [124] (rules.map Rule.text)

/-- What a bound is compared with: the number that a value writes, or else its length. -/
inductive Measures : Bytes → Int → Prop
  | number (z : SignedNumeral) : Measures z.text z.value
  | length (v : Bytes) (h : ∀ z : SignedNumeral, z.text ≠ v) : Measures v v.length

/-- What is checked holds of a value. -/
def Check.Holds (v : Bytes) : Check → Prop
  | .integer => ∃ z : SignedNumeral, z.text = v
  | .boolean => v ∈ [bytes "0", bytes "1", bytes "true", bytes "false"]
  | .email => ∃ name host, v = name ++ 64 :: host ∧ 46 ∈ host
  | .oneOf choices => v ∈ choices.texts
  | .min n => ∃ m, Measures v m ∧ n.value ≤ m
  | .max n => ∃ m, Measures v m ∧ m ≤ n.value

/-- A rule is met by the value of its field, which is empty where there is none. -/
def Rule.Met (v : Bytes) : Rule → Prop
  | .required => v ≠ []
  | .check c => v ≠ [] → c.Holds v

/-! ### Numbers that do not fit -/

/-- The value is a number above every `long`. -/
def TooLarge (v : Bytes) : Prop := ∃ z : SignedNumeral, z.text = v ∧ 2 ^ 63 ≤ z.value

/-- The value is a number below every `long`. -/
def TooSmall (v : Bytes) : Prop := ∃ z : SignedNumeral, z.text = v ∧ z.value < -2 ^ 63

namespace Rule

/-- The rule bounds a number that does not fit. -/
def Strained (v : Bytes) : Rule → Prop
  | .check (.min _) => TooLarge v ∨ TooSmall v
  | .check (.max _) => TooLarge v ∨ TooSmall v
  | _ => False

/-- The bound admits `0`. -/
def AdmitsZero : Rule → Prop
  | .check (.min n) => n.value ≤ 0
  | .check (.max n) => 0 ≤ n.value
  | _ => True

/-- The bound is on the side where the value is not. -/
def AdmitsFar (v : Bytes) : Rule → Prop
  | .check (.min _) => ¬ TooSmall v
  | .check (.max _) => ¬ TooLarge v
  | _ => True

end Rule

end CppLaravel.Validation
