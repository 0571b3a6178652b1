import CppLaravel.Lib.Text
import Mathlib.Data.List.MinMax

/-!
# `CppLaravel.Lib.CharacterReference`: the references in an attribute of HTML

`decodeReferences` reads the value of an attribute: a number behind `&#` and a name behind `&`
stand for characters. The names are a parameter, with what holds of the ones of HTML: they
consist of letters, digits and a semicolon, and none stands for more characters than it has.

* `length_lt_of_not_inert`: a value with a reference is read as a shorter text.
* `reference_congr`: a reference ends where no letter, digit, semicolon or equals sign follows.
-/

set_option autoImplicit false

namespace CppLaravel.Lib

/-- ASCII letters and digits. -/
def alphanumeric (c : Char) : Bool :=
  ('0' ≤ c ∧ c ≤ '9') ∨ ('a' ≤ c ∧ c ≤ 'z') ∨ ('A' ≤ c ∧ c ≤ 'Z')

/-- The characters that a reference consists of behind its ampersand. -/
def inReference (c : Char) : Bool := alphanumeric c ∨ c = ';' ∨ c = '#'

/-- The names with the characters that they stand for. -/
structure Names where
  rows : List (Text × Text)
  inReference_of_mem : ∀ row ∈ rows, ∀ c ∈ row.1, inReference c
  length_le : ∀ row ∈ rows, row.2.length ≤ row.1.length

/-- The longest name at the start of a text. -/
def Names.longest (T : Names) (s : Text) : Option (Text × Text) :=
  (T.rows.filter fun row => row.1.isPrefixOf s).argmax fun row => row.1.length

/-- The reference by a name: its length, and what it stands for. In an attribute a name without
its semicolon is none before an equals sign, a letter or a digit. -/
def namedReference (T : Names) (s : Text) : Option (Nat × Text) :=
  match T.longest s with
  | none => none
  | some (name, value) =>
    if name.getLast? ≠ some ';' ∧
        (s.drop name.length).head?.any (fun c => alphanumeric c ∨ c = '=') then none
    else some (name.length, value)

/-- The numbers of control characters that are read as in windows-1252. -/
def windows1252 : List (Nat × Nat) :=
  [(0x80, 0x20AC), (0x82, 0x201A), (0x83, 0x0192), (0x84, 0x201E), (0x85, 0x2026),
    (0x86, 0x2020), (0x87, 0x2021), (0x88, 0x02C6), (0x89, 0x2030), (0x8A, 0x0160),
    (0x8B, 0x2039), (0x8C, 0x0152), (0x8E, 0x017D), (0x91, 0x2018), (0x92, 0x2019),
    (0x93, 0x201C), (0x94, 0x201D), (0x95, 0x2022), (0x96, 0x2013), (0x97, 0x2014),
    (0x98, 0x02DC), (0x99, 0x2122), (0x9A, 0x0161), (0x9B, 0x203A), (0x9C, 0x0153),
    (0x9E, 0x017E), (0x9F, 0x0178)]

/-- The character with a number. -/
def numbered (n : Nat) : Char :=
  if n = 0 ∨ 0x10FFFF < n ∨ 0xD800 ≤ n ∧ n < 0xE000 then replacement
  else Char.ofNat ((windows1252.lookup n).getD n)

/-- The digits of a reference by a number, and its semicolon if there is one. -/
def digitReference (base : Nat) (digit : Char → Option Nat) (s : Text) : Option (Nat × Text) :=
  let ds := s.takeWhile fun c => (digit c).isSome
  if ds = [] then none
  else
    let n := ds.foldl (fun n c => n * base + (digit c).getD 0) 0
    let semicolon := if (s.drop ds.length).head?.any (· = ';') then 1 else 0
    some (ds.length + semicolon, [numbered n])

/-- The reference by a number, behind its number sign. -/
def numericReference : Text → Option (Nat × Text)
  | [] => none
  | c :: s =>
    if c = 'x' ∨ c = 'X' then (digitReference 16 hexDigit s).map fun r => (r.1 + 1, r.2)
    else digitReference 10 decimalDigit (c :: s)

/-- The reference behind an ampersand: its length, and what it stands for. -/
def reference (T : Names) : Text → Option (Nat × Text)
  | [] => namedReference T []
  | c :: s =>
    if c = '#' then (numericReference s).map fun r => (r.1 + 1, r.2) else namedReference T (c :: s)

/-- The value of an attribute as it is read. -/
def decodeReferences (T : Names) : Text → Text
  | [] => []
  | c :: s =>
    if c = '&' then
      match reference T s with
      | none => c :: decodeReferences T s
      | some (n, v) => v ++ decodeReferences T (s.drop n)
    else if c = '\x00' then replacement :: decodeReferences T s
    else c :: decodeReferences T s
termination_by s => s.length
decreasing_by all_goals simp only [List.length_drop, List.length_cons]; omega

/-- The value of an attribute behind its opening single quote as it is read, and the text behind
the closing one. -/
def singleQuoted (T : Names) (t : Text) : Option (Text × Text) :=
  if '\'' ∈ t then
    some (decodeReferences T (t.takeWhile (· ≠ '\'')), (t.dropWhile (· ≠ '\'')).tail)
  else none

example (h : _) (h' : _) :
    reference ⟨[("lt".toList, ['<']), ("lt;".toList, ['<'])], h, h'⟩ "lt;=".toList =
      some (3, ['<']) := rfl

/-! ### Lengths -/

variable {T : Names}

theorem namedReference_le {s v : Text} {n : Nat} (h : namedReference T s = some (n, v)) :
    v.length ≤ n ∧ n ≤ s.length := by
  rw [namedReference] at h
  split at h
  · cases h
  · rename_i name value hlongest
    split at h
    · cases h
    · obtain ⟨rfl, rfl⟩ := Prod.mk.inj (Option.some.inj h)
      have hmem := List.mem_filter.mp (List.argmax_mem hlongest)
      have hprefix : name <+: s := List.isPrefixOf_iff_prefix.mp hmem.2
      exact ⟨T.length_le _ hmem.1, hprefix.length_le⟩

theorem digitReference_le {base : Nat} {digit : Char → Option Nat} {s v : Text} {n : Nat}
    (h : digitReference base digit s = some (n, v)) : v.length ≤ n ∧ n ≤ s.length := by
  simp only [digitReference] at h
  split at h
  · cases h
  · rename_i hne
    obtain ⟨hn, rfl⟩ := Prod.mk.inj (Option.some.inj h)
    have hpos := List.length_pos_iff.mpr hne
    have hle := (List.takeWhile_prefix (p := fun c => (digit c).isSome) (l := s)).length_le
    rw [← hn, List.length_singleton]
    -- A semicolon that is read stands behind the digits.
    split
    · rename_i hsemicolon
      have hrest : 0 < (s.drop (s.takeWhile fun c => (digit c).isSome).length).length := by
        refine List.length_pos_iff.mpr fun hnil => ?_
        rw [hnil] at hsemicolon
        cases hsemicolon
      rw [List.length_drop] at hrest
      omega
    · omega

theorem numericReference_le {s v : Text} {n : Nat} (h : numericReference s = some (n, v)) :
    v.length ≤ n ∧ n ≤ s.length := by
  cases s with
  | nil => cases h
  | cons c s =>
    rw [numericReference] at h
    split at h
    · obtain ⟨⟨m, u⟩, hdigits, heq⟩ := Option.map_eq_some_iff.mp h
      obtain ⟨rfl, rfl⟩ := Prod.mk.inj heq
      have hle := digitReference_le hdigits
      show u.length ≤ m + 1 ∧ m + 1 ≤ s.length + 1
      omega
    · exact digitReference_le h

/-- What a reference stands for is no longer than the reference. -/
theorem reference_le {s v : Text} {n : Nat} (h : reference T s = some (n, v)) :
    v.length ≤ n ∧ n ≤ s.length := by
  cases s with
  | nil => exact namedReference_le h
  | cons c s =>
    rw [reference] at h
    split at h
    · obtain ⟨⟨m, u⟩, hnumeric, heq⟩ := Option.map_eq_some_iff.mp h
      obtain ⟨rfl, rfl⟩ := Prod.mk.inj heq
      have hle := numericReference_le hnumeric
      show u.length ≤ m + 1 ∧ m + 1 ≤ s.length + 1
      omega
    · exact namedReference_le h

theorem length_decodeReferences_le (s : Text) : (decodeReferences T s).length ≤ s.length := by
  fun_induction decodeReferences T s with
  | case1 => exact Nat.le_refl 0
  | case2 s hnone ih => exact Nat.succ_le_succ ih
  | case3 s n v hsome ih =>
    have hle := reference_le hsome
    rw [List.length_drop] at ih
    rw [List.length_append, List.length_cons]
    omega
  | case4 s _ ih => exact Nat.succ_le_succ ih
  | case5 c s _ _ ih => exact Nat.succ_le_succ ih

/-! ### Texts without references -/

/-- No ampersand of the text starts a reference. -/
def Inert (T : Names) (s : Text) : Prop := ∀ rest, '&' :: rest <:+ s → reference T rest = none

theorem inert_nil : Inert T [] := by
  intro rest h
  cases List.suffix_nil.mp h

theorem inert_cons {c : Char} {s : Text} :
    Inert T (c :: s) ↔ (c = '&' → reference T s = none) ∧ Inert T s := by
  constructor
  · intro h
    refine ⟨?_, fun rest hrest => h rest (hrest.trans (List.suffix_cons c s))⟩
    rintro rfl
    exact h s (List.suffix_refl _)
  · rintro ⟨hhead, htail⟩ rest hrest
    rcases List.suffix_cons_iff.mp hrest with heq | hsuffix
    · obtain ⟨rfl, rfl⟩ := List.cons.inj heq
      exact hhead rfl
    · exact htail rest hsuffix

theorem inert_cons_of_ne {c : Char} (hc : c ≠ '&') {s : Text} : Inert T (c :: s) ↔ Inert T s := by
  rw [inert_cons]
  exact and_iff_right fun h => absurd h hc

/-- Such a text is read as it is. -/
theorem decodeReferences_of_inert {s : Text} (h : Inert T s) (hzero : '\x00' ∉ s) :
    decodeReferences T s = s := by
  induction s with
  | nil => rw [decodeReferences]
  | cons c s ih =>
    obtain ⟨hhead, htail⟩ := inert_cons.mp h
    have hrest := ih htail fun hmem => hzero (List.mem_cons_of_mem _ hmem)
    have hc : c ≠ '\x00' := fun hc => hzero (hc ▸ List.mem_cons_self)
    rw [decodeReferences]
    by_cases hamp : c = '&'
    · rw [if_pos hamp, hhead hamp]
      show c :: decodeReferences T s = c :: s
      rw [hrest]
    · rw [if_neg hamp, if_neg hc, hrest]

/-- **A text with a reference is read as a shorter one.** -/
theorem length_lt_of_not_inert {s : Text} (h : ¬ Inert T s) :
    (decodeReferences T s).length < s.length := by
  fun_induction decodeReferences T s with
  | case1 => exact absurd inert_nil h
  | case2 s hnone ih =>
    exact Nat.succ_lt_succ (ih fun hinert => h (inert_cons.mpr ⟨fun _ => hnone, hinert⟩))
  | case3 s n v hsome ih =>
    -- The ampersand itself is gone.
    have hle := reference_le hsome
    have hrest := length_decodeReferences_le (T := T) (s.drop n)
    rw [List.length_drop] at hrest
    rw [List.length_append, List.length_cons]
    omega
  | case4 s _ ih =>
    exact Nat.succ_lt_succ (ih fun hinert => h ((inert_cons_of_ne (by decide)).mpr hinert))
  | case5 c s hamp _ ih =>
    exact Nat.succ_lt_succ (ih fun hinert => h ((inert_cons_of_ne hamp).mpr hinert))

/-! ### Where a reference ends -/

/-- No reference goes on into the text. -/
def Stops (u : Text) : Prop := ∀ c, u.head? = some c → inReference c = false

theorem stops_nil : Stops [] := by
  intro c h
  cases h

theorem stops_cons {c : Char} {u : Text} : Stops (c :: u) ↔ inReference c = false := by
  constructor
  · exact fun h => h c rfl
  · rintro h d ⟨⟩
    exact h

/-- Two texts that are the same to a reference before them. -/
structure Alike (u w : Text) : Prop where
  left : Stops u
  right : Stops w
  equals : u.head? = some '=' ↔ w.head? = some '='

theorem prefix_append_iff {name p u : Text} (hname : ∀ c ∈ name, inReference c) (hu : Stops u) :
    name <+: p ++ u ↔ name <+: p := by
  induction p generalizing name with
  | nil =>
    cases name with
    | nil => simp
    | cons a name =>
      constructor
      · rintro ⟨t, ht⟩
        have hstop := hu a (by rw [← List.nil_append u, ← ht]; rfl)
        rw [hname a List.mem_cons_self] at hstop
        cases hstop
      · intro h
        cases List.prefix_nil.mp h
  | cons b p ih =>
    cases name with
    | nil => simp
    | cons a name =>
      rw [List.cons_append, List.cons_prefix_cons, List.cons_prefix_cons,
        ih fun c hc => hname c (List.mem_cons_of_mem _ hc)]

theorem any_head_congr {P : Char → Bool} (hP : ∀ c, P c → inReference c ∨ c = '=') {u w : Text}
    (h : Alike u w) (p : Text) : (p ++ u).head?.any P = (p ++ w).head?.any P := by
  -- Only an equals sign can be accepted at the head of `u` or `w`.
  have hequals : ∀ {u w : Text}, Alike u w → u.head?.any P → w.head?.any P := by
    intro u w h hu
    obtain ⟨c, hc, hPc⟩ := (Option.any_eq_true _ _).mp hu
    rcases hP c hPc with hin | rfl
    · rw [h.left c hc] at hin
      cases hin
    · rw [h.equals.mp hc]
      exact hPc
  cases p with
  | nil =>
    rw [List.nil_append, List.nil_append, Bool.eq_iff_iff]
    exact ⟨hequals h, hequals ⟨h.right, h.left, h.equals.symm⟩⟩
  | cons a p => rfl

theorem takeWhile_append_of_stops {P : Char → Bool} (hP : ∀ c, P c → inReference c) {u : Text}
    (hu : Stops u) (p : Text) : (p ++ u).takeWhile P = p.takeWhile P := by
  induction p with
  | nil =>
    cases u with
    | nil => rfl
    | cons c u =>
      have hc : ¬ P c := fun h => by
        have hin := hP c h
        rw [stops_cons.mp hu] at hin
        cases hin
      rw [List.nil_append, List.takeWhile_cons_of_neg hc, List.takeWhile_nil]
  | cons a p ih =>
    rw [List.cons_append, List.takeWhile_cons, List.takeWhile_cons, ih]

theorem namedReference_congr {u w : Text} (h : Alike u w) (p : Text) :
    namedReference T (p ++ u) = namedReference T (p ++ w) := by
  have hfilter : ∀ {u : Text}, Stops u →
      T.longest (p ++ u) = (T.rows.filter fun row => row.1.isPrefixOf p).argmax
        fun row => row.1.length := by
    intro u hu
    rw [Names.longest]
    congr 1
    refine List.filter_congr fun row hrow => ?_
    rw [Bool.eq_iff_iff, List.isPrefixOf_iff_prefix, List.isPrefixOf_iff_prefix]
    exact prefix_append_iff (T.inReference_of_mem row hrow) hu
  rw [namedReference, namedReference, hfilter h.left, hfilter h.right]
  split
  · rfl
  · rename_i name value hlongest
    have hmem := List.mem_filter.mp (List.argmax_mem hlongest)
    have hle : name.length ≤ p.length := (List.isPrefixOf_iff_prefix.mp hmem.2).length_le
    have hnext := any_head_congr (P := fun c => alphanumeric c ∨ c = '=')
      (by intro c hc; simp [inReference] at hc ⊢; tauto) h (p.drop name.length)
    rw [List.drop_append_of_le_length hle, List.drop_append_of_le_length hle, hnext]

theorem digitReference_congr {base : Nat} {digit : Char → Option Nat}
    (hdigit : ∀ c, (digit c).isSome → inReference c) {u w : Text} (h : Alike u w) (p : Text) :
    digitReference base digit (p ++ u) = digitReference base digit (p ++ w) := by
  have hle := (List.takeWhile_prefix (p := fun c => (digit c).isSome) (l := p)).length_le
  have hnext := any_head_congr (P := (· = ';'))
    (by intro c hc; simp [inReference] at hc ⊢; tauto) h
    (p.drop (p.takeWhile fun c => (digit c).isSome).length)
  simp only [digitReference, takeWhile_append_of_stops hdigit h.left,
    takeWhile_append_of_stops hdigit h.right, List.drop_append_of_le_length hle, hnext]

theorem inReference_of_decimal (c : Char) (hc : (decimalDigit c).isSome) : inReference c := by
  simp only [decimalDigit] at hc
  simp only [inReference, alphanumeric]
  grind

theorem inReference_of_hex (c : Char) (hc : (hexDigit c).isSome) : inReference c := by
  have hlower : c ≤ 'f' → c ≤ 'z' := fun h => Char.le_trans h (by decide)
  have hupper : c ≤ 'F' → c ≤ 'Z' := fun h => Char.le_trans h (by decide)
  simp only [hexDigit] at hc
  simp only [inReference, alphanumeric]
  grind

theorem numericReference_congr {u w : Text} (h : Alike u w) (p : Text) :
    numericReference (p ++ u) = numericReference (p ++ w) := by
  cases p with
  | nil =>
    -- Neither text starts with an `x`.
    have hdecimal : ∀ {u : Text}, Stops u →
        numericReference u = digitReference 10 decimalDigit u := by
      intro u hu
      cases u with
      | nil => rfl
      | cons c u =>
        have hx : ¬ (c = 'x' ∨ c = 'X') := by
          have hc := stops_cons.mp hu
          rintro (rfl | rfl) <;> exact absurd hc (by decide)
        rw [numericReference, if_neg hx]
    have hdigits : digitReference 10 decimalDigit u = digitReference 10 decimalDigit w :=
      digitReference_congr inReference_of_decimal h []
    rw [List.nil_append, List.nil_append, hdecimal h.left, hdecimal h.right]
    exact hdigits
  | cons c p =>
    rw [List.cons_append, List.cons_append, numericReference, numericReference,
      digitReference_congr inReference_of_hex h, ← List.cons_append, ← List.cons_append,
      digitReference_congr inReference_of_decimal h]

/-- **A reference does not depend on the text behind it**, up to an equals sign. -/
theorem reference_congr {u w : Text} (h : Alike u w) (p : Text) :
    reference T (p ++ u) = reference T (p ++ w) := by
  cases p with
  | nil =>
    have hnamed : ∀ {u : Text}, Stops u → reference T u = namedReference T u := by
      intro u hu
      cases u with
      | nil => rfl
      | cons c u =>
        have hc : c ≠ '#' := by
          have hc := stops_cons.mp hu
          rintro rfl
          exact absurd hc (by decide)
        rw [reference, if_neg hc]
    rw [List.nil_append, List.nil_append, hnamed h.left, hnamed h.right]
    exact namedReference_congr h []
  | cons c p =>
    rw [List.cons_append, List.cons_append, reference, reference, numericReference_congr h,
      ← List.cons_append, ← List.cons_append, namedReference_congr h]

end CppLaravel.Lib
