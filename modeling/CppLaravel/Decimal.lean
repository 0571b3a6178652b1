import CppLaravel.Bytes
import Mathlib.Data.List.TakeWhile
import Mathlib.Data.Nat.Digits.Lemmas

/-!
# `CppLaravel.Decimal`: reading decimal numbers

`stoll` is `std::stoll` in base ten. `Numeral.stoll_of_lt` and `Numeral.stoll_of_ge` say what it
makes of a run of digits of any length, and `stoll_intToString` is the round trip with
`std::to_string`: every `int64` is read back from its text.
-/

set_option autoImplicit false

namespace CppLaravel

/-- A decimal digit. -/
def isDigit (c : UInt8) : Bool := 48 ≤ c && c ≤ 57

/-- `std::isspace` in the C locale. -/
def isSpace (c : UInt8) : Bool := c = 32 || (9 ≤ c && c ≤ 13)

/-- The number that a run of digits writes. -/
def digitsValue (ds : Bytes) : Nat := ds.foldl (fun n d => 10 * n + (d.toNat - 48)) 0

/-- The integers that fit `long long`. -/
def inInt64 (v : Int) : Prop := -(2 ^ 63) ≤ v ∧ v < 2 ^ 63

instance (v : Int) : Decidable (inInt64 v) := inferInstanceAs (Decidable (_ ∧ _))

/-- A sign, if there is one: whether it is a minus, and the text after it. -/
def splitSign : Bytes → Bool × Bytes
  | [] => (false, [])
  | c :: s => if c = 45 then (true, s) else if c = 43 then (false, s) else (false, c :: s)

/-- `std::stoll`: blanks, an optional sign and digits, with anything behind them; `none`
where it throws. -/
def stoll (s : Bytes) : Option Int64 :=
  let (negative, s) := splitSign (s.dropWhile isSpace)
  let ds := s.takeWhile isDigit
  if ds = [] then none
  else
    let v : Int := if negative then -(digitsValue ds) else digitsValue ds
    if inInt64 v then some (Int64.ofInt v) else none

/-- The integers that fit `int`. -/
def inInt32 (v : Int) : Prop := -(2 ^ 31) ≤ v ∧ v < 2 ^ 31

instance (v : Int) : Decidable (inInt32 v) := inferInstanceAs (Decidable (_ ∧ _))

/-- `std::stoi`: the same for `int`. -/
def stoi (s : Bytes) : Option Int :=
  let (negative, s) := splitSign (s.dropWhile isSpace)
  let ds := s.takeWhile isDigit
  if ds = [] then none
  else
    let v : Int := if negative then -(digitsValue ds) else digitsValue ds
    if inInt32 v then some v else none

/-- `std::stoul`: a number with a minus is taken from `2 ^ 64`. -/
def stoul (s : Bytes) : Option Nat :=
  let (negative, s) := splitSign (s.dropWhile isSpace)
  let ds := s.takeWhile isDigit
  if ds = [] ∨ 2 ^ 64 ≤ digitsValue ds then none
  else if negative then some ((2 ^ 64 - digitsValue ds) % 2 ^ 64)
  else some (digitsValue ds)

/-- `std::atoi`, where it is defined: the same without digits is `0`. -/
def atoi (s : Bytes) : Int :=
  let (negative, s) := splitSign (s.dropWhile isSpace)
  let ds := s.takeWhile isDigit
  if negative then -(digitsValue ds) else digitsValue ds

/-! ### Numerals -/

/-- A decimal numeral: digits, of any number but none. -/
structure Numeral where
  digits : Bytes
  ne_nil : digits ≠ []
  isDigit_of_mem : ∀ c ∈ digits, isDigit c = true

/-- The number that a numeral writes. -/
def Numeral.value (d : Numeral) : Nat := digitsValue d.digits

/-- A text of digits and nothing else has no blank and no sign in front. -/
theorem dropWhile_isSpace_of_digit {c : UInt8} {s : Bytes} (h : isDigit c = true) :
    (c :: s).dropWhile isSpace = c :: s := by
  refine List.dropWhile_cons_of_neg ?_
  simp only [isDigit, isSpace, Bool.and_eq_true, decide_eq_true_eq, Bool.or_eq_true,
    UInt8.le_iff_toNat_le, ← UInt8.toNat_inj] at h ⊢
  have h32 : (32 : UInt8).toNat = 32 := rfl
  have h48 : (48 : UInt8).toNat = 48 := rfl
  have h9 : (9 : UInt8).toNat = 9 := rfl
  have h13 : (13 : UInt8).toNat = 13 := rfl
  omega

theorem splitSign_of_digit {c : UInt8} {s : Bytes} (h : isDigit c = true) :
    splitSign (c :: s) = (false, c :: s) := by
  have hminus : c ≠ 45 := by
    rintro rfl
    exact absurd h (by decide)
  have hplus : c ≠ 43 := by
    rintro rfl
    exact absurd h (by decide)
  rw [splitSign, if_neg hminus, if_neg hplus]

namespace Numeral

variable (d : Numeral)

/-- A numeral begins with no blank and no sign. -/
theorem splitSign_digits : splitSign (d.digits.dropWhile isSpace) = (false, d.digits) := by
  obtain ⟨c, s, hcs⟩ := List.exists_cons_of_ne_nil d.ne_nil
  have hc : isDigit c = true := d.isDigit_of_mem c (by rw [hcs]; exact List.mem_cons_self)
  rw [hcs, dropWhile_isSpace_of_digit hc, splitSign_of_digit hc]

theorem takeWhile_digits : d.digits.takeWhile isDigit = d.digits :=
  List.takeWhile_eq_self_iff.mpr d.isDigit_of_mem

theorem not_mem_digits {c : UInt8} (hc : isDigit c = false) : c ∉ d.digits := by
  intro h
  have hdigit := d.isDigit_of_mem c h
  rw [hc] at hdigit
  cases hdigit

/-- What `std::stoll` makes of a numeral behind a sign, or of one without a sign. -/
theorem stoll_of_sign {s : Bytes} {negative : Bool}
    (h : splitSign (s.dropWhile isSpace) = (negative, d.digits)) :
    stoll s =
      let v : Int := if negative then -d.value else d.value
      if inInt64 v then some (Int64.ofInt v) else none := by
  unfold stoll
  rw [h]
  dsimp only
  rw [takeWhile_digits, if_neg d.ne_nil]
  rfl

/-- `std::stoll` reads a numeral below `2 ^ 63`. -/
theorem stoll_of_lt (h : d.value < 2 ^ 63) :
    ∃ v, stoll d.digits = some v ∧ v.toInt = d.value := by
  have hrange : inInt64 d.value := ⟨by omega, by omega⟩
  refine ⟨Int64.ofInt d.value, ?_, Int64.toInt_ofInt_of_le hrange.1 hrange.2⟩
  rw [d.stoll_of_sign d.splitSign_digits]
  exact if_pos hrange

/-- `std::stoll` throws at every other numeral. -/
theorem stoll_of_ge (h : 2 ^ 63 ≤ d.value) : stoll d.digits = none := by
  have hrange : ¬ inInt64 d.value := by
    intro hin
    have := hin.2
    omega
  rw [d.stoll_of_sign d.splitSign_digits]
  exact if_neg hrange

end Numeral

/-- What may stand in front of a numeral. -/
inductive Sign
  | absent
  | plus
  | minus

/-- A numeral behind at most one sign. -/
structure SignedNumeral where
  sign : Sign
  numeral : Numeral

namespace SignedNumeral

variable (z : SignedNumeral)

/-- How it is written. -/
def text : Bytes :=
  match z.sign with
  | .absent => z.numeral.digits
  | .plus => 43 :: z.numeral.digits
  | .minus => 45 :: z.numeral.digits

/-- The number that it writes. -/
def value : Int :=
  match z.sign with
  | .minus => -z.numeral.value
  | _ => z.numeral.value

/-- Whether there is a minus. -/
def negative : Bool :=
  match z.sign with
  | .minus => true
  | _ => false

theorem value_eq : z.value = if z.negative then -(z.numeral.value : Int) else z.numeral.value := by
  obtain ⟨sign, d⟩ := z
  cases sign <;> rfl

/-- There is no blank in front. -/
theorem dropWhile_text : z.text.dropWhile isSpace = z.text := by
  obtain ⟨sign, d⟩ := z
  cases sign with
  | absent =>
    obtain ⟨c, s, hcs⟩ := List.exists_cons_of_ne_nil d.ne_nil
    have hc : isDigit c = true := d.isDigit_of_mem c (by rw [hcs]; exact List.mem_cons_self)
    show d.digits.dropWhile isSpace = d.digits
    rw [hcs, dropWhile_isSpace_of_digit hc]
  | plus => rfl
  | minus => rfl

theorem splitSign_text : splitSign z.text = (z.negative, z.numeral.digits) := by
  have hblank := z.dropWhile_text
  obtain ⟨sign, d⟩ := z
  cases sign with
  | absent =>
    have hsign := d.splitSign_digits
    have hblank : d.digits.dropWhile isSpace = d.digits := hblank
    rw [hblank] at hsign
    exact hsign
  | plus => rfl
  | minus => rfl

/-- A text writes one number at most. -/
theorem value_unique {z z' : SignedNumeral} (h : z.text = z'.text) : z.value = z'.value := by
  have hsplit := z.splitSign_text
  rw [h, splitSign_text, Prod.mk.injEq] at hsplit
  rw [value_eq, value_eq, Numeral.value, Numeral.value, hsplit.1, hsplit.2]

/-- What `std::stoll` makes of it. -/
theorem stoll_text :
    stoll z.text = if inInt64 z.value then some (Int64.ofInt z.value) else none := by
  rw [z.numeral.stoll_of_sign (z.dropWhile_text ▸ z.splitSign_text), ← value_eq]

/-- `std::stoll` reads every number that fits. -/
theorem stoll_text_of_fits (h : inInt64 z.value) :
    ∃ v, stoll z.text = some v ∧ v.toInt = z.value :=
  ⟨Int64.ofInt z.value, z.stoll_text.trans (if_pos h), Int64.toInt_ofInt_of_le h.1 h.2⟩

end SignedNumeral

/-! ### The round trip with `to_string` -/

theorem isDigit_digitByte {d : Nat} (h : d < 10) : isDigit (digitByte d) = true := by
  have hall : ∀ d : Fin 10, isDigit (digitByte d) = true := by decide
  exact hall ⟨d, h⟩

theorem digitByte_toNat {d : Nat} (h : d < 10) : (digitByte d).toNat - 48 = d := by
  have hall : ∀ d : Fin 10, (digitByte d).toNat - 48 = (d : Nat) := by decide
  exact hall ⟨d, h⟩

/-- Every byte of a natural number's text is a digit. -/
theorem isDigit_of_mem_natToString {n : Nat} {c : UInt8} (h : c ∈ natToString n) :
    isDigit c = true := by
  unfold natToString at h
  split at h
  · rw [List.mem_singleton.mp h]
    decide
  · obtain ⟨d, hd, rfl⟩ := List.mem_map.mp h
    exact isDigit_digitByte (Nat.digits_lt_base (by decide) (List.mem_reverse.mp hd))

/-- The text of a number has only digits, and a minus in front. -/
theorem not_mem_natToString {c : UInt8} (hc : isDigit c = false) (n : Nat) : c ∉ natToString n := by
  intro h
  have hdigit := isDigit_of_mem_natToString h
  rw [hc] at hdigit
  cases hdigit

theorem not_mem_intToString {c : UInt8} (hc : isDigit c = false) (hminus : c ≠ 45) (v : Int) :
    c ∉ intToString v := by
  cases v with
  | ofNat n => exact not_mem_natToString hc n
  | negSucc n => exact List.not_mem_cons_of_ne_of_not_mem hminus (not_mem_natToString hc (n + 1))

theorem natToString_ne_nil (n : Nat) : natToString n ≠ [] := by
  unfold natToString
  split
  · exact List.cons_ne_nil _ _
  · intro h
    rw [List.map_eq_nil_iff, List.reverse_eq_nil_iff, Nat.digits_eq_nil_iff_eq_zero] at h
    contradiction

/-- The value of digits written most significant first. -/
theorem digitsValue_reverse (ds : List Nat) (h : ∀ d ∈ ds, d < 10) :
    digitsValue (ds.reverse.map digitByte) = Nat.ofDigits 10 ds := by
  induction ds with
  | nil => rfl
  | cons d ds ih =>
    have hd := digitByte_toNat (h d (List.mem_cons_self ..))
    have ih := ih fun d' hd' => h d' (List.mem_cons_of_mem _ hd')
    unfold digitsValue at ih ⊢
    rw [List.reverse_cons, List.map_append, List.foldl_append, ih, Nat.ofDigits_cons]
    show 10 * Nat.ofDigits 10 ds + ((digitByte d).toNat - 48) = _
    rw [hd]
    omega

theorem digitsValue_natToString (n : Nat) : digitsValue (natToString n) = n := by
  unfold natToString
  split
  · rename_i h
    rw [h]
    rfl
  · rw [digitsValue_reverse _ fun d hd => Nat.digits_lt_base (by decide) hd, Nat.ofDigits_digits]

/-- The text of a natural number is a numeral. -/
def natNumeral (n : Nat) : Numeral where
  digits := natToString n
  ne_nil := natToString_ne_nil n
  isDigit_of_mem _ h := isDigit_of_mem_natToString h

/-- The text of a natural number has no sign. -/
theorem splitSign_natToString (n : Nat) :
    splitSign ((natToString n).dropWhile isSpace) = (false, natToString n) :=
  (natNumeral n).splitSign_digits

/-- Reading digits, after any sign. -/
theorem takeWhile_natToString (n : Nat) : (natToString n).takeWhile isDigit = natToString n :=
  (natNumeral n).takeWhile_digits

/-- Reading a natural number behind a sign. -/
theorem stoll_of_sign {s : Bytes} {negative : Bool} {n : Nat}
    (h : splitSign (s.dropWhile isSpace) = (negative, natToString n)) :
    stoll s =
      let v : Int := if negative then -n else n
      if inInt64 v then some (Int64.ofInt v) else none := by
  have hvalue : (natNumeral n).value = n := digitsValue_natToString n
  have hread := (natNumeral n).stoll_of_sign h
  rwa [hvalue] at hread

/-- `std::stoll` reads back what `std::to_string` writes. -/
theorem stoll_intToString (v : Int64) : stoll (intToString v.toInt) = some v := by
  have hrange : inInt64 v.toInt := ⟨v.le_toInt, v.toInt_lt⟩
  cases hv : v.toInt with
  | ofNat n =>
    have hvalue : ((n : Nat) : Int) = v.toInt := hv.symm
    show stoll (natToString n) = some v
    rw [stoll_of_sign (splitSign_natToString n)]
    show (if inInt64 n then some (Int64.ofInt n) else none) = some v
    rw [hvalue, if_pos hrange, Int64.ofInt_toInt]
  | negSucc n =>
    have hsign : splitSign ((45 :: natToString (n + 1)).dropWhile isSpace)
        = (true, natToString (n + 1)) := rfl
    have hvalue : -((n + 1 : Nat) : Int) = v.toInt := hv.symm
    show stoll (45 :: natToString (n + 1)) = some v
    rw [stoll_of_sign hsign]
    show (if inInt64 (-((n + 1 : Nat) : Int)) then some (Int64.ofInt (-((n + 1 : Nat) : Int)))
      else none) = some v
    rw [hvalue, if_pos hrange, Int64.ofInt_toInt]

/-- `std::stoll` of a number that fits. -/
theorem stoll_of_inInt64 {v : Int} (h : inInt64 v) :
    (stoll (intToString v)).map Int64.toInt = some v := by
  have htoInt : (Int64.ofInt v).toInt = v := Int64.toInt_ofInt_of_le h.1 h.2
  have hread := stoll_intToString (Int64.ofInt v)
  rw [htoInt] at hread
  rw [hread, Option.map_some, htoInt]

/-- `std::stoi` reads back a count. -/
theorem stoi_natToString {n : Nat} (h : n < 2 ^ 31) : stoi (natToString n) = some (n : Int) := by
  have hrange : inInt32 n := ⟨by omega, by omega⟩
  unfold stoi
  rw [splitSign_natToString]
  dsimp only
  rw [takeWhile_natToString, if_neg (natToString_ne_nil n), digitsValue_natToString]
  exact if_pos hrange

/-- Reading a natural number behind a sign. -/
theorem atoi_of_sign {s : Bytes} {negative : Bool} {n : Nat}
    (h : splitSign (s.dropWhile isSpace) = (negative, natToString n)) :
    atoi s = if negative then -(n : Int) else n := by
  unfold atoi
  rw [h]
  dsimp only
  rw [takeWhile_natToString, digitsValue_natToString]

/-- `std::atoi` reads back what `std::to_string` writes. -/
theorem atoi_intToString (v : Int) : atoi (intToString v) = v := by
  cases v with
  | ofNat n => exact atoi_of_sign (splitSign_natToString n)
  | negSucc n =>
    have hsign : splitSign ((45 :: natToString (n + 1)).dropWhile isSpace)
        = (true, natToString (n + 1)) := rfl
    exact atoi_of_sign hsign

end CppLaravel
