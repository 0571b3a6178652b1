import Mathlib.Data.List.Basic
import Mathlib.Data.List.Infix

/-!
# `CppLaravel.Lib.Regex`: regular expressions with captures, matched by backtracking

`Regex` has the constructs of ECMAScript whose captures happen once: assertions, symbols, greedy
repetition of one symbol, sequences and groups. `run` is the backtracking matcher: a choice is given
up when what follows fails on it. `Parses` says what a parse is, with no order among the choices.

* `exists_parses_of_run`: what the matcher finds is a parse.
* `run_isSome_of_parses`: where there is a parse that the rest accepts, the matcher finds one.
* `fullMatch_eq_some_iff`: where there is one parse only, the matcher finds that one.
* `parses_foldl_seq`: the parses of a long sequence, read from its start.
-/

set_option autoImplicit false

namespace CppLaravel.Lib

variable {α β : Type*}

/-- A regular expression. `many p least` is as many symbols of `p` as possible, and no fewer than
`least`. -/
inductive Regex (α : Type*) where
  | empty
  | start
  | stop
  | sym (p : α → Bool)
  | many (p : α → Bool) (least : Nat)
  | seq (r s : Regex α)
  | group (r : Regex α)

namespace Regex

/-- The greedy loop: the longest choice first. -/
def manyLoop (p : α → Bool) (k : List α → Option β) : Nat → List α → Option β
  | least, [] => if least = 0 then k [] else none
  | least, a :: s =>
    if p a then
      (manyLoop p k (least - 1) s).or (if least = 0 then k (a :: s) else none)
    else if least = 0 then k (a :: s) else none

/-- Match a prefix of the rest of a text of `n` symbols. What follows gets the rest behind it and
what was captured, a group before the groups within it. -/
def run (n : Nat) : Regex α → List α → (List α → List (List α) → Option β) → Option β
  | empty, s, k => k s []
  | start, s, k => if s.length = n then k s [] else none
  | stop, s, k => if s.length = 0 then k s [] else none
  | sym _, [], _ => none
  | sym p, a :: s, k => if p a then k s [] else none
  | many p least, s, k => manyLoop p (fun t => k t []) least s
  | seq r r', s, k => run n r s fun t cs => run n r' t fun u cs' => k u (cs ++ cs')
  | group r, s, k => run n r s fun t cs => k t (s.take (s.length - t.length) :: cs)

/-- The captures of a match of the whole text. -/
def fullMatch (r : Regex α) (s : List α) : Option (List (List α)) :=
  run s.length r s fun t cs => if t.length = 0 then some cs else none

/-- A parse of a prefix of the rest `s`: what it leaves, and what it captures. -/
inductive Parses (n : Nat) : Regex α → List α → List α → List (List α) → Prop
  | empty (s : List α) : Parses n .empty s s []
  | start {s : List α} : s.length = n → Parses n .start s s []
  | stop : Parses n .stop [] [] []
  | sym {p : α → Bool} {a : α} (s : List α) : p a → Parses n (.sym p) (a :: s) s []
  | many {p : α → Bool} {least : Nat} {u : List α} (s : List α) :
      (∀ a ∈ u, p a) → least ≤ u.length → Parses n (.many p least) (u ++ s) s []
  | seq {r r' : Regex α} {s t u : List α} {cs cs' : List (List α)} :
      Parses n r s t cs → Parses n r' t u cs' → Parses n (.seq r r') s u (cs ++ cs')
  | group {r : Regex α} {u s : List α} {cs : List (List α)} :
      Parses n r (u ++ s) s cs → Parses n (.group r) (u ++ s) s (u :: cs)

variable {n : Nat} {p : α → Bool}

/-- What is left is the end of the text. -/
theorem Parses.suffix {r : Regex α} {s t : List α} {cs : List (List α)} (h : Parses n r s t cs) :
    t <:+ s := by
  induction h with
  | empty s => exact List.suffix_rfl
  | start _ => exact List.suffix_rfl
  | stop => exact List.suffix_rfl
  | sym s _ => exact List.suffix_cons _ s
  | many s _ _ => exact List.suffix_append _ s
  | seq _ _ ih ih' => exact ih'.trans ih
  | group _ ih => exact ih

/-! ### The loop -/

/-- The loop stops behind symbols of `p`, at least `least` of them. -/
theorem exists_of_manyLoop {k : List α → Option β} {least : Nat} {s : List α} {b : β}
    (h : manyLoop p k least s = some b) :
    ∃ u t, s = u ++ t ∧ (∀ a ∈ u, p a) ∧ least ≤ u.length ∧ k t = some b := by
  induction s generalizing least with
  | nil =>
    rw [manyLoop] at h
    split at h
    · exact ⟨[], [], rfl, by simp, by omega, h⟩
    · cases h
  | cons a s ih =>
    -- The choice to stop here.
    have hstop : (if least = 0 then k (a :: s) else none) = some b →
        ∃ u t, a :: s = u ++ t ∧ (∀ a ∈ u, p a) ∧ least ≤ u.length ∧ k t = some b := by
      intro h
      split at h
      · exact ⟨[], a :: s, rfl, by simp, by omega, h⟩
      · cases h
    rw [manyLoop] at h
    split at h
    · rename_i ha
      rcases Option.or_eq_some_iff.mp h with h | ⟨-, h⟩
      · obtain ⟨u, t, rfl, hu, hleast, ht⟩ := ih h
        refine ⟨a :: u, t, rfl, ?_, ?_, ht⟩
        · simpa using ⟨ha, hu⟩
        · simp only [List.length_cons]
          omega
      · exact hstop h
    · exact hstop h

/-- The loop finds something where one of its choices does. -/
theorem manyLoop_isSome {k : List α → Option β} {least : Nat} {u t : List α}
    (hu : ∀ a ∈ u, p a) (hleast : least ≤ u.length) (ht : (k t).isSome) :
    (manyLoop p k least (u ++ t)).isSome := by
  induction u generalizing least with
  | nil =>
    obtain rfl : least = 0 := by simpa using hleast
    cases t with
    | nil => simpa [manyLoop] using ht
    | cons a t =>
      rw [List.nil_append, manyLoop]
      split <;> simp [ht]
  | cons a u ih =>
    have ha : p a := hu a List.mem_cons_self
    have htail : (manyLoop p k (least - 1) (u ++ t)).isSome :=
      ih (fun x hx => hu x (List.mem_cons_of_mem a hx))
      (by simp only [List.length_cons] at hleast; omega)
    rw [List.cons_append, manyLoop, if_pos ha, Option.isSome_or, htail, Bool.true_or]

/-! ### The matcher -/

/-- What the matcher finds is a parse. -/
theorem exists_parses_of_run {r : Regex α} {s : List α} {k : List α → List (List α) → Option β}
    {b : β} (h : run n r s k = some b) : ∃ t cs, Parses n r s t cs ∧ k t cs = some b := by
  induction r generalizing s k with
  | empty => exact ⟨s, [], .empty s, h⟩
  | start =>
    rw [run] at h
    split at h
    · exact ⟨s, [], .start ‹_›, h⟩
    · cases h
  | stop =>
    rw [run] at h
    split at h
    · rename_i hs
      obtain rfl := List.length_eq_zero_iff.mp hs
      exact ⟨[], [], .stop, h⟩
    · cases h
  | sym p =>
    cases s with
    | nil => cases h
    | cons a s =>
      rw [run] at h
      split at h
      · exact ⟨s, [], .sym s ‹_›, h⟩
      · cases h
  | many p least =>
    obtain ⟨u, t, rfl, hu, hleast, ht⟩ := exists_of_manyLoop h
    exact ⟨t, [], .many t hu hleast, ht⟩
  | seq r r' ih ih' =>
    -- The continuation of the first expression is the match of the second.
    obtain ⟨t, cs, hr, h⟩ := ih h
    obtain ⟨u, cs', hr', h⟩ := ih' h
    exact ⟨u, cs ++ cs', .seq hr hr', h⟩
  | group r ih =>
    obtain ⟨t, cs, hr, h⟩ := ih h
    -- What the group captures is what it has read of the text.
    obtain ⟨u, rfl⟩ := hr.suffix
    rw [List.length_append, Nat.add_sub_cancel, List.take_left] at h
    exact ⟨t, u :: cs, .group hr, h⟩

/-- Where there is a parse that the rest accepts, the matcher finds one. -/
theorem run_isSome_of_parses {r : Regex α} {s t : List α} {cs : List (List α)}
    (h : Parses n r s t cs) {k : List α → List (List α) → Option β} (hk : (k t cs).isSome) :
    (run n r s k).isSome := by
  induction h generalizing k with
  | empty s => exact hk
  | start hs => rwa [run, if_pos hs]
  | stop => exact hk
  | sym s hp => rwa [run, if_pos hp]
  | many s hu hleast => exact manyLoop_isSome hu hleast hk
  | seq _ _ ih ih' => exact ih (ih' hk)
  | group _ ih =>
    refine ih ?_
    rwa [List.length_append, Nat.add_sub_cancel, List.take_left]

/-- A parse of the whole text. -/
def Accepts (r : Regex α) (s : List α) (cs : List (List α)) : Prop := Parses s.length r s [] cs

theorem accepts_of_fullMatch {r : Regex α} {s : List α} {cs : List (List α)}
    (h : r.fullMatch s = some cs) : r.Accepts s cs := by
  obtain ⟨t, cs', hr, h⟩ := exists_parses_of_run h
  split at h
  · rename_i ht
    obtain rfl := List.length_eq_zero_iff.mp ht
    obtain rfl := Option.some.inj h
    exact hr
  · cases h

theorem fullMatch_isSome_iff {r : Regex α} {s : List α} :
    (r.fullMatch s).isSome ↔ ∃ cs, r.Accepts s cs := by
  constructor
  · intro h
    obtain ⟨cs, hcs⟩ := Option.isSome_iff_exists.mp h
    exact ⟨cs, accepts_of_fullMatch hcs⟩
  · rintro ⟨cs, hr⟩
    exact run_isSome_of_parses hr rfl

/-- Where there is one parse only, the matcher finds that one. -/
theorem fullMatch_eq_some_iff {r : Regex α} {s : List α}
    (hunique : ∀ cs cs', r.Accepts s cs → r.Accepts s cs' → cs = cs') {cs : List (List α)} :
    r.fullMatch s = some cs ↔ r.Accepts s cs := by
  constructor
  · exact accepts_of_fullMatch
  · intro h
    obtain ⟨cs', hcs'⟩ := Option.isSome_iff_exists.mp (fullMatch_isSome_iff.mpr ⟨cs, h⟩)
    rw [hcs', hunique cs cs' h (accepts_of_fullMatch hcs')]

/-! ### Sequences -/

/-- A parse of several expressions, one behind the other. -/
def ParsesSeq (n : Nat) : List (Regex α) → List α → List α → List (List α) → Prop
  | [], s, t, cs => s = t ∧ cs = []
  | r :: rs, s, u, cs =>
    ∃ t cs₁ cs₂, Parses n r s t cs₁ ∧ ParsesSeq n rs t u cs₂ ∧ cs = cs₁ ++ cs₂

theorem parses_foldl_seq {rs : List (Regex α)} {r : Regex α} {s u : List α} {cs : List (List α)} :
    Parses n (rs.foldl seq r) s u cs ↔ ParsesSeq n (r :: rs) s u cs := by
  induction rs generalizing r cs with
  | nil => simp [ParsesSeq]
  | cons r' rs ih =>
    rw [List.foldl_cons, ih]
    constructor
    · rintro ⟨t, cs₁, cs₂, h, htail, rfl⟩
      cases h with
      | seq hr hr' => exact ⟨_, _, _, hr, ⟨_, _, _, hr', htail, rfl⟩, List.append_assoc _ _ _⟩
    · rintro ⟨t, cs₁, cs₂, hr, ⟨t', cs₃, cs₄, hr', htail, rfl⟩, rfl⟩
      exact ⟨t', _, cs₄, .seq hr hr', htail, (List.append_assoc _ _ _).symm⟩

theorem parsesSeq_empty {rs : List (Regex α)} {s u : List α} {cs : List (List α)} :
    ParsesSeq n (.empty :: rs) s u cs ↔ ParsesSeq n rs s u cs := by
  constructor
  · rintro ⟨t, cs₁, cs₂, h, htail, rfl⟩
    cases h
    exact htail
  · intro h
    exact ⟨s, [], cs, .empty s, h, rfl⟩

theorem parsesSeq_start {rs : List (Regex α)} {s u : List α} {cs : List (List α)} :
    ParsesSeq n (.start :: rs) s u cs ↔ s.length = n ∧ ParsesSeq n rs s u cs := by
  constructor
  · rintro ⟨t, cs₁, cs₂, h, htail, rfl⟩
    cases h
    exact ⟨‹_›, htail⟩
  · rintro ⟨hs, h⟩
    exact ⟨s, [], cs, .start hs, h, rfl⟩

theorem parsesSeq_stop {s u : List α} {cs : List (List α)} :
    ParsesSeq n [.stop] s u cs ↔ s = [] ∧ u = [] ∧ cs = [] := by
  constructor
  · rintro ⟨t, cs₁, cs₂, h, ⟨rfl, rfl⟩, rfl⟩
    cases h
    exact ⟨rfl, rfl, rfl⟩
  · rintro ⟨rfl, rfl, rfl⟩
    exact ⟨[], [], [], .stop, ⟨rfl, rfl⟩, rfl⟩

/-- Symbols that stand for themselves. -/
theorem parsesSeq_text [DecidableEq α] {text : List α} {rs : List (Regex α)} {s u : List α}
    {cs : List (List α)} :
    ParsesSeq n (text.map (fun a => .sym (· = a)) ++ rs) s u cs ↔
      ∃ t, s = text ++ t ∧ ParsesSeq n rs t u cs := by
  induction text generalizing s cs with
  | nil => simp
  | cons a text ih =>
    constructor
    · rintro ⟨t, cs₁, cs₂, h, htail, rfl⟩
      cases h with
      | sym t ha =>
        obtain rfl := of_decide_eq_true ha
        obtain ⟨t', rfl, htail'⟩ := ih.mp htail
        exact ⟨t', rfl, htail'⟩
    · rintro ⟨t, rfl, htail⟩
      exact ⟨text ++ t, [], cs, .sym _ (decide_eq_true rfl), ih.mpr ⟨t, rfl, htail⟩, rfl⟩

/-- A captured repetition, and what follows it. -/
theorem parsesSeq_group_many {least : Nat} {rs : List (Regex α)} {s u : List α}
    {cs : List (List α)} :
    ParsesSeq n (.group (.seq .empty (.many p least)) :: rs) s u cs ↔
      ∃ v t cs', s = v ++ t ∧ (∀ a ∈ v, p a) ∧ least ≤ v.length ∧ ParsesSeq n rs t u cs' ∧
        cs = v :: cs' := by
  constructor
  · rintro ⟨t, cs₁, cs', h, htail, rfl⟩
    cases h with
    | @group _ v _ cs h =>
      generalize hs : v ++ t = s at h
      cases h with
      | seq hempty hmany =>
        cases hempty
        cases hmany with
        | many _ hp hleast =>
          obtain rfl := List.append_cancel_right hs
          exact ⟨v, t, cs', rfl, hp, hleast, htail, rfl⟩
  · rintro ⟨v, t, cs', rfl, hp, hleast, htail, rfl⟩
    exact ⟨t, [v], cs', .group (.seq (.empty _) (.many t hp hleast)), htail, rfl⟩

end Regex

end CppLaravel.Lib
