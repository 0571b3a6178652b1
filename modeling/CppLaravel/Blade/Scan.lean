import CppLaravel.Http.Message

/-!
# `CppLaravel.Blade.Scan`: the directives of a template (`include/view.hpp`)

The searches of the namespace `blade_detail`: `matching_end`, `find_else`, and what
`render_impl` makes of the first directive behind a position. None of it depends on the values
that are rendered.

A position is a number, or `none` for `npos`. `npos` is the largest `size_t`, so a sum with it
wraps, and so does a difference below zero.
-/

set_option autoImplicit false

namespace CppLaravel.Blade

open CppLaravel.Lib
open CppLaravel.Http

/-- A position and a positive constant: `npos + n` is `n - 1`. -/
def plus (p : Option Nat) (n : Nat) : Nat := p.elim (n - 1) (· + n)

/-- `t.substr(b, e - b)`: a difference below zero is a count beyond the end. -/
def slice (t : Bytes) (b : Nat) (e : Option Nat) : Bytes :=
  match e with
  | some e => if b ≤ e then substr t b (e - b) else t.drop b
  | none => t.drop b

/-- A byte of `" \t\r\n"`. -/
def isBlank (c : UInt8) : Bool := c = 32 ∨ c = 9 ∨ c = 13 ∨ c = 10

/-- `trim`. -/
def trim (s : Bytes) : Bytes := (s.dropWhile isBlank).rdropWhile isBlank

/-- `unquote`. -/
def unquote (s : Bytes) : Bytes :=
  let s := trim s
  if 2 ≤ s.length ∧ (s.head? = some 34 ∨ s.head? = some 39) ∧ s.getLast? = s.head? then
    substr s 1 (s.length - 2)
  else s

/-- The smaller of two positions; `npos` is the largest. -/
def closer (m p : Option Nat) : Option Nat :=
  match p, m with
  | none, m => m
  | some p, none => some p
  | some p, some m => if p < m then some p else some m

/-- `earliest`, and `std::min` of positions. -/
def earliest (ps : List (Option Nat)) : Option Nat := ps.foldl closer none

theorem closer_eq_or (m p : Option Nat) : closer m p = m ∨ closer m p = p := by
  cases p with
  | none => exact .inl rfl
  | some p =>
    cases m with
    | none => exact .inr rfl
    | some m =>
      rw [closer]
      split
      · exact .inr rfl
      · exact .inl rfl

theorem exists_closer_le {m p : Option Nat} {q : Nat} (h : m = some q ∨ p = some q) :
    ∃ n ≤ q, closer m p = some n := by
  cases p <;> cases m <;> simp_all [closer]
  rename_i p m
  split
  · exact ⟨p, by omega, rfl⟩
  · exact ⟨m, by omega, rfl⟩

theorem mem_of_foldl_closer {ps : List (Option Nat)} {m : Option Nat} {n : Nat}
    (h : ps.foldl closer m = some n) : m = some n ∨ some n ∈ ps := by
  induction ps generalizing m with
  | nil => exact .inl h
  | cons p ps ih =>
    rcases ih h with hm | hmem
    · rcases closer_eq_or m p with heq | heq <;> rw [heq] at hm
      · exact .inl hm
      · exact .inr (hm ▸ List.mem_cons_self)
    · exact .inr (List.mem_cons_of_mem p hmem)

theorem exists_foldl_closer_le {ps : List (Option Nat)} {m : Option Nat} {q : Nat}
    (h : m = some q ∨ some q ∈ ps) : ∃ n ≤ q, ps.foldl closer m = some n := by
  induction ps generalizing m q with
  | nil => exact ⟨q, le_refl q, by simpa using h⟩
  | cons p ps ih =>
    rw [List.mem_cons, ← or_assoc] at h
    rcases h with hfirst | hmem
    · obtain ⟨n, hn, heq⟩ := exists_closer_le (hfirst.imp_right Eq.symm)
      obtain ⟨n', hn', heq'⟩ := ih (.inl heq)
      exact ⟨n', hn'.trans hn, heq'⟩
    · exact ih (.inr hmem)

/-- The earliest of several positions is one of them, and none is before it. -/
theorem earliest_eq_some_iff {ps : List (Option Nat)} {n : Nat} :
    earliest ps = some n ↔ some n ∈ ps ∧ ∀ q, some q ∈ ps → n ≤ q := by
  constructor
  · intro h
    refine ⟨(mem_of_foldl_closer h).resolve_left (by simp), fun q hq => ?_⟩
    obtain ⟨n', hle, heq⟩ := exists_foldl_closer_le (m := none) (.inr hq)
    obtain rfl : n = n' := Option.some.inj (h.symm.trans heq)
    exact hle
  · rintro ⟨hmem, hle⟩
    obtain ⟨n', hle', heq⟩ := exists_foldl_closer_le (m := none) (.inr hmem)
    have hn' := hle n' ((mem_of_foldl_closer heq).resolve_left (by simp))
    rw [earliest, heq, Nat.le_antisymm hle' hn']

theorem earliest_eq_none_iff {ps : List (Option Nat)} :
    earliest ps = none ↔ ∀ q, some q ∉ ps := by
  constructor
  · intro h q hq
    obtain ⟨n, -, heq⟩ := exists_foldl_closer_le (m := none) (.inr hq)
    rw [earliest, heq] at h
    cases h
  · intro h
    cases hn : earliest ps with
    | none => rfl
    | some n => exact absurd (earliest_eq_some_iff.mp hn).1 (h n)

/-- The blocks that have an end of their own. -/
inductive BlockKind
  | cond
  | loop
  | named
  deriving DecidableEq

/-- The opening directive of a block. -/
def BlockKind.opening : BlockKind → Bytes
  | cond => bytes "@if("
  | loop => bytes "@foreach("
  | named => bytes "@section("

/-- The closing directive of a block. -/
def BlockKind.closing : BlockKind → Bytes
  | cond => bytes "@endif"
  | loop => bytes "@endforeach"
  | named => bytes "@endsection"

theorem BlockKind.opening_ne_nil (kind : BlockKind) : kind.opening ≠ [] := by
  cases kind <;> decide

theorem BlockKind.closing_ne_nil (kind : BlockKind) : kind.closing ≠ [] := by
  cases kind <;> decide

/-- The loop of `matching_end`. -/
def matchingEnd (t : Bytes) (kind : BlockKind) (i depth : Nat) : Option Nat :=
  if i < t.length then
    match _hc : find t kind.closing i with
    | none => none
    | some c =>
        match _ho : (find t kind.opening i).filter (· < c) with
      | some o => matchingEnd t kind (o + kind.opening.length) (depth + 1)
      | none =>
        if depth - 1 = 0 then some c else matchingEnd t kind (c + kind.closing.length) (depth - 1)
  else none
termination_by t.length - i
decreasing_by
  · have ho := (Option.filter_eq_some_iff.mp _ho).1
    have hi := le_of_find ho
    have hpos := List.length_pos_iff.mpr kind.opening_ne_nil
    omega
  · have hi := le_of_find _hc
    have hpos := List.length_pos_iff.mpr kind.closing_ne_nil
    omega

/-- The loop of `find_else`. -/
def findElse (t : Bytes) (limit : Option Nat) (i : Nat) (depth : Int) : Option Nat :=
  if limit.all (i < ·) then
    let fi := find t (bytes "@if(") i
    let fe := find t (bytes "@endif") i
    let el := find t (bytes "@else") i
    match _hn : earliest [fi, fe, el] with
    | none => none
    | some n =>
      if ¬ limit.all (n < ·) then none
      else if fi = some n then findElse t limit (n + 4) (depth + 1)
      else if fe = some n then findElse t limit (n + 6) (depth - 1)
      else if depth = 0 then some n
      else findElse t limit (n + 5) depth
  else none
termination_by t.length - i
decreasing_by
  all_goals
    have hmem := (earliest_eq_some_iff.mp _hn).1
    have hfound : i ≤ n ∧ n < t.length := by
      simp only [List.mem_cons, List.not_mem_nil, or_false] at hmem
      obtain h | h | h := hmem
      all_goals exact ⟨le_of_find h.symm, find_lt (by decide) h.symm⟩
    omega

/-- A directive with its arguments. -/
inductive Directive
  | raw (key : Bytes)
  | escaped (key : Bytes)
  | cond (key thenPart elsePart : Bytes)
  | loop (list inner : Bytes)
  | included (name : Bytes)
  | yield (name : Bytes)
  | named (body : Bytes)

section
variable (tpl : Bytes) (next : Nat)

/-- The branch of `render_impl` at `\x7b!!`: the directive, and the position behind it. -/
def rawAt : Directive × Nat :=
  let e := find tpl (bytes "!!\x7d") next
  (.raw (trim (slice tpl (next + 3) e)), plus e 3)

/-- The branch at two opening braces. -/
def escapedAt : Directive × Nat :=
  let e := find tpl (bytes "\x7d\x7d") next
  (.escaped (trim (slice tpl (next + 2) e)), plus e 2)

/-- The branch at `@if(`. -/
def condAt : Directive × Nat :=
  let condEnd := find tpl (bytes ")") next
  let key := trim (slice tpl (next + 4) condEnd)
  let body := plus condEnd 1
  let stop := matchingEnd tpl .cond body 1
  let els := findElse tpl stop body 0
  let thenPart := slice tpl body (if els = none then stop else els)
  let elsePart := els.elim [] fun els => slice tpl (els + 5) stop
  (.cond key thenPart elsePart, plus stop 6)

/-- The branch at `@foreach(`. -/
def loopAt : Directive × Nat :=
  let condEnd := find tpl (bytes ")") next
  let spec := trim (slice tpl (next + 9) condEnd)
  let list := trim (slice spec 0 (find spec (bytes " as ") 0))
  let body := plus condEnd 1
  let stop := matchingEnd tpl .loop body 1
  (.loop list (slice tpl body stop), plus stop 11)

/-- The branch at `@include(`. -/
def includeAt : Directive × Nat :=
  let close := find tpl (bytes ")") next
  (.included (unquote (slice tpl (next + 9) close)), plus close 1)

/-- The branch at `@yield(`. -/
def yieldAt : Directive × Nat :=
  let close := find tpl (bytes ")") next
  (.yield (unquote (slice tpl (next + 7) close)), plus close 1)

/-- The branch at `@section(`. -/
def namedAt : Directive × Nat :=
  let close := find tpl (bytes ")") next
  let body := plus close 1
  let stop := matchingEnd tpl .named body 1
  (.named (slice tpl body stop), plus stop 11)

end

/-- The first directive from the position `i` on: where it begins, what it is, and the position
behind it. -/
def scan (tpl : Bytes) (i : Nat) : Option (Nat × Directive × Nat) :=
  let pRaw := find tpl (bytes "\x7b!!") i
  let pInt := find tpl (bytes "\x7b\x7b") i
  let pIf := find tpl (bytes "@if(") i
  let pFor := find tpl (bytes "@foreach(") i
  let pInc := find tpl (bytes "@include(") i
  let pYield := find tpl (bytes "@yield(") i
  let pSec := find tpl (bytes "@section(") i
  (earliest [pRaw, pInt, pIf, pFor, pInc, pYield, pSec]).map fun next =>
    (next,
      if some next = pRaw then rawAt tpl next
      else if some next = pInt then escapedAt tpl next
      else if some next = pIf then condAt tpl next
      else if some next = pFor then loopAt tpl next
      else if some next = pInc then includeAt tpl next
      else if some next = pYield then yieldAt tpl next
      else namedAt tpl next)

end CppLaravel.Blade
