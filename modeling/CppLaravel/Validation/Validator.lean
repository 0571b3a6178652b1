import CppLaravel.Http.Message
import CppLaravel.Lib.Grouped

/-!
# `CppLaravel.Validation.Validator`: request validation (`include/validation.hpp`)

A `Validator` checks a map of fields against rules that are written as texts, `name` or
`name:param`, joined by `|`. A `long` is an integer here: what is compared is a parameter or a value
that `std::stol` read, or the length of a text.
-/

set_option autoImplicit false

namespace CppLaravel.Validation

open CppLaravel.Lib CppLaravel.Http

/-- `is_integer`: digits behind at most one sign. -/
def isInteger (v : Bytes) : Bool :=
  let (_, s) := splitSign v
  s ≠ [] && s.all isDigit

/-- `to_long`: what `std::stol` reads, and `0` where it throws. -/
def toLong (v : Bytes) : Int :=
  match stoll v with
  | some n => n.toInt
  | none => 0

/-- `measure`. -/
def measure (v : Bytes) : Int := if isInteger v then toLong v else v.length

/-- `split`. -/
def split (s : Bytes) (d : UInt8) : List Bytes := s.splitOn d

/-- `split_param`. -/
def splitParam (rule : Bytes) : Bytes × Bytes :=
  match find rule [58] 0 with
  | none => (rule, [])
  | some colon => (substr rule 0 colon, rule.drop (colon + 1))

/-- `check`: the message that it adds, if it adds one. A rule of another name is no rule. -/
def check (field value rule param : Bytes) : Option Bytes :=
  if rule = bytes "integer" then
    if ¬ isInteger value then some (bytes "The " ++ field ++ bytes " must be an integer.") else none
  else if rule = bytes "boolean" then
    if value ≠ bytes "0" ∧ value ≠ bytes "1" ∧ value ≠ bytes "true" ∧ value ≠ bytes "false" then
      some (bytes "The " ++ field ++ bytes " must be true or false.")
    else none
  else if rule = bytes "email" then
    match find value [64] 0 with
    | none => some (bytes "The " ++ field ++ bytes " must be a valid email address.")
    | some sign =>
      if find value [46] sign = none then
        some (bytes "The " ++ field ++ bytes " must be a valid email address.")
      else none
  else if rule = bytes "min" then
    if measure value < toLong param then
      some (bytes "The " ++ field ++ bytes " is too small (min " ++ param ++ bytes ").")
    else none
  else if rule = bytes "max" then
    if measure value > toLong param then
      some (bytes "The " ++ field ++ bytes " is too large (max " ++ param ++ bytes ").")
    else none
  else if rule = bytes "in" then
    if ¬ (split param 44).any (· = value) then
      some (bytes "The selected " ++ field ++ bytes " is invalid.")
    else none
  else none

/-- The message of one rule: the body of the inner loop of `validate`. -/
def message (field value rule : Bytes) : Option Bytes :=
  let (name, param) := splitParam rule
  if name = bytes "required" then
    if value = [] then some (bytes "The " ++ field ++ bytes " field is required.") else none
  else if value = [] then none
  else check field value name param

/-- `Validator`. -/
structure Validator where
  data : StringMap
  errors : Finmap fun _ : Bytes => List Bytes := ∅

namespace Validator

variable (v : Validator)

/-- `value_of`. -/
def valueOf (field : Bytes) : Bytes := (v.data.lookup field).getD []

/-- `add`. -/
def add (field msg : Bytes) : Validator :=
  { v with errors := addUnder Prod.fst Prod.snd v.errors (field, msg) }

/-- `passes`. -/
def passes : Bool := v.errors = ∅

/-- `fails`. -/
def fails : Bool := !v.passes

/-- One rule of a field. -/
def apply (field : Bytes) (rule : Bytes) : Validator :=
  match message field (v.valueOf field) rule with
  | some msg => v.add field msg
  | none => v

/-- `validate`, and the validator after it. -/
def validate (rules : List (Bytes × Bytes)) : Bool × Validator :=
  let v := { v with errors := ∅ }
  let v := rules.foldl
    (fun v (field, spec) => (split spec 124).foldl (fun v rule => v.apply field rule) v) v
  (v.passes, v)

end Validator

end CppLaravel.Validation
