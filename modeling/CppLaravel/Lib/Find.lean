import Mathlib.Data.List.Basic
import Mathlib.Data.List.Infix

/-!
# `CppLaravel.Lib.Find`: the first occurrence of a pattern

`find s pat pos` is the position of the first occurrence of `pat` in `s` at or after `pos`,
as `std::string::find` has it. `firstAt` is the search from the start, and `seek` the same
search seen as a parser sees it: it answers with the rest of the text from the occurrence on.

* `firstAt_eq_some_iff`: the position found is an occurrence, and the first one.
* `firstAt_take_iff`: what a search finds in a prefix of a text is what it finds in the text,
  as far as the prefix reaches.
* `find_eq`: a search from a position is a search in the rest of the text.
* `seek_single`: the search for one symbol skips what does not contain it.
-/

set_option autoImplicit false

namespace CppLaravel.Lib

variable {α : Type*}

/-- The part of a text of `n` symbols from `pos` on, as far as there are so many. -/
def substr (s : List α) (pos n : Nat) : List α := (s.drop pos).take n

/-- What stands behind the symbol at a position. -/
theorem drop_succ_of_drop {s t : List α} {x : α} {k : Nat} (h : s.drop k = x :: t) :
    s.drop (k + 1) = t := by
  rw [← List.tail_drop, h]
  rfl

variable [DecidableEq α]

/-- The position of the first occurrence of `pat`. -/
def firstAt (pat : List α) : List α → Option Nat
  | [] => if pat = [] then some 0 else none
  | x :: s => if pat <+: x :: s then some 0 else (firstAt pat s).map (· + 1)

/-- The position of the first occurrence of `pat` at or after `pos`. -/
def find (s pat : List α) (pos : Nat) : Option Nat :=
  if pos ≤ s.length then (firstAt pat (s.drop pos)).map (pos + ·) else none

/-- The text from the first occurrence of `pat` on. -/
def seek (pat s : List α) : Option (List α) := (firstAt pat s).map s.drop

/-! ### What is found -/

theorem firstAt_of_isPrefix {pat s : List α} (h : pat <+: s) : firstAt pat s = some 0 := by
  cases s with
  | nil => simpa [firstAt] using h
  | cons x s => simp [firstAt, h]

theorem firstAt_cons_of_not {pat : List α} {x : α} {s : List α} (h : ¬ pat <+: x :: s) :
    firstAt pat (x :: s) = (firstAt pat s).map (· + 1) := by
  simp [firstAt, h]

/-- The position found is that of the first occurrence. -/
theorem firstAt_eq_some_iff {pat s : List α} {k : Nat} :
    firstAt pat s = some k ↔
      k ≤ s.length ∧ pat <+: s.drop k ∧ ∀ i < k, ¬ pat <+: s.drop i := by
  induction s generalizing k with
  | nil =>
    unfold firstAt
    by_cases hpat : pat = []
    · subst hpat
      rw [if_pos rfl, Option.some.injEq, List.length_nil, Nat.le_zero]
      constructor
      · rintro rfl
        exact ⟨rfl, List.nil_prefix, fun i hi => absurd hi (Nat.not_lt_zero i)⟩
      · exact fun h => h.1.symm
    · simp [hpat]
  | cons x s ih =>
    by_cases hx : pat <+: x :: s
    · rw [firstAt_of_isPrefix hx, Option.some.injEq]
      constructor
      · rintro rfl
        exact ⟨Nat.zero_le _, hx, fun i hi => absurd hi (Nat.not_lt_zero i)⟩
      · intro h
        -- An occurrence at the start leaves no room for a later first one.
        by_contra hk
        exact h.2.2 0 (by omega) hx
    · rw [firstAt_cons_of_not hx, Option.map_eq_some_iff]
      constructor
      · rintro ⟨k', hk', rfl⟩
        obtain ⟨hle, hat, hfirst⟩ := ih.mp hk'
        refine ⟨Nat.succ_le_succ hle, hat, fun i hi => ?_⟩
        cases i with
        | zero => exact hx
        | succ i => exact hfirst i (by omega)
      · intro ⟨hle, hat, hfirst⟩
        cases k with
        | zero => exact absurd hat hx
        | succ k =>
          have hk := ih.mpr ⟨Nat.le_of_succ_le_succ hle, hat,
            fun i hi => hfirst (i + 1) (by omega)⟩
          exact ⟨k, hk, rfl⟩

/-- A text in which nothing is found has no occurrence. -/
theorem firstAt_eq_none_iff {pat s : List α} :
    firstAt pat s = none ↔ ∀ i, i ≤ s.length → ¬ pat <+: s.drop i := by
  constructor
  · intro h i
    induction i using Nat.strong_induction_on with
    | _ i ih =>
      intro hi hat
      have hsome := firstAt_eq_some_iff.mpr
        ⟨hi, hat, fun i' hi' => ih i' hi' (by omega)⟩
      rw [h] at hsome
      cases hsome
  · intro h
    cases hk : firstAt pat s with
    | none => rfl
    | some k =>
      obtain ⟨hle, hat, -⟩ := firstAt_eq_some_iff.mp hk
      exact absurd hat (h k hle)

theorem firstAt_length_le {pat s : List α} {k : Nat} (h : firstAt pat s = some k) :
    k + pat.length ≤ s.length := by
  obtain ⟨hle, hat, -⟩ := firstAt_eq_some_iff.mp h
  have := hat.length_le
  rw [List.length_drop] at this
  omega

/-- In a prefix of a text the same occurrence is found, if it lies inside the prefix. -/
theorem firstAt_take_iff {p s : List α} {n k : Nat} (hn : n ≤ s.length) :
    firstAt p (s.take n) = some k ↔ firstAt p s = some k ∧ k + p.length ≤ n := by
  have hpre : ∀ i, i ≤ n → (p <+: (s.take n).drop i ↔
      p <+: s.drop i ∧ i + p.length ≤ n) := by
    intro i hi
    rw [List.drop_take, List.prefix_take_iff]
    exact and_congr Iff.rfl (by omega)
  rw [firstAt_eq_some_iff, firstAt_eq_some_iff, List.length_take, Nat.min_eq_left hn]
  constructor
  · intro ⟨hk, hat, hfirst⟩
    obtain ⟨hat', hin⟩ := (hpre k hk).mp hat
    refine ⟨⟨hk.trans hn, hat', fun i hi h => hfirst i hi ?_⟩, hin⟩
    exact (hpre i (by omega)).mpr ⟨h, by omega⟩
  · intro ⟨⟨hk, hat, hfirst⟩, hin⟩
    refine ⟨by omega, (hpre k (by omega)).mpr ⟨hat, hin⟩, fun i hi h => ?_⟩
    exact hfirst i hi ((hpre i (by omega)).mp h).1

theorem firstAt_append {pat s t : List α} {k : Nat} (h : firstAt pat s = some k) :
    firstAt pat (s ++ t) = some k := by
  have hs : (s ++ t).take s.length = s := List.take_left
  have htake := firstAt_take_iff (p := pat) (s := s ++ t) (n := s.length) (k := k) (by simp)
  rw [hs] at htake
  exact (htake.mp h).1

/-- A search skips the positions at which there is no occurrence. -/
theorem firstAt_skip {pat s : List α} {n : Nat} (hn : n ≤ s.length)
    (h : ∀ i < n, ¬ pat <+: s.drop i) : firstAt pat s = (firstAt pat (s.drop n)).map (n + ·) := by
  induction n generalizing s with
  | zero => simp
  | succ n ih =>
    cases s with
    | nil => cases hn
    | cons x s =>
      have hx : ¬ pat <+: x :: s := h 0 (Nat.succ_pos n)
      have hs := ih (s := s) (Nat.le_of_succ_le_succ hn) fun i hi => h (i + 1) (by omega)
      rw [firstAt_cons_of_not hx, hs, Option.map_map]
      congr 1
      funext k
      show n + k + 1 = n + 1 + k
      omega

/-! ### Searching from a position -/

theorem find_zero (s pat : List α) : find s pat 0 = firstAt pat s := by
  simp [find]

/-- A search from a position is a search in the rest of the text. -/
theorem find_eq {s pat : List α} {pos : Nat} (h : pos ≤ s.length) :
    find s pat pos = (firstAt pat (s.drop pos)).map (pos + ·) :=
  if_pos h

theorem le_of_find {s pat : List α} {pos k : Nat} (h : find s pat pos = some k) : pos ≤ k := by
  unfold find at h
  split at h
  · obtain ⟨k', -, rfl⟩ := Option.map_eq_some_iff.mp h
    omega
  · cases h

theorem find_lt {s pat : List α} {pos k : Nat} (hpat : pat ≠ []) (h : find s pat pos = some k) :
    k < s.length := by
  unfold find at h
  split at h
  · obtain ⟨k', hk', rfl⟩ := Option.map_eq_some_iff.mp h
    have hlen := firstAt_length_le hk'
    have hpos : 0 < pat.length := List.length_pos_iff.mpr hpat
    rw [List.length_drop] at hlen
    omega
  · cases h

/-- Nothing is found at the end. -/
theorem find_eq_none_of_length_le {s pat : List α} {pos : Nat} (hpat : pat ≠ [])
    (h : s.length ≤ pos) : find s pat pos = none := by
  cases hk : find s pat pos with
  | none => rfl
  | some k =>
    have hle := le_of_find hk
    have hlt := find_lt hpat hk
    omega

/-- What is not found is not found later either. -/
theorem find_none_of_le {s pat : List α} {i j : Nat} (hij : i ≤ j) (h : find s pat i = none) :
    find s pat j = none := by
  by_cases hj : j ≤ s.length
  · rw [find_eq (hij.trans hj), Option.map_eq_none_iff, firstAt_eq_none_iff] at h
    rw [find_eq hj, Option.map_eq_none_iff, firstAt_eq_none_iff]
    intro k hk
    rw [List.length_drop] at hk
    have hat := h (j - i + k) (by rw [List.length_drop]; omega)
    rw [List.drop_drop] at hat ⊢
    rwa [show j + k = i + (j - i + k) by omega]
  · exact if_neg hj

/-- A search that begins at an occurrence ends there. -/
theorem find_here {s pat : List α} {i : Nat} (hi : i ≤ s.length) (h : pat <+: s.drop i) :
    find s pat i = some i := by
  rw [find_eq hi, firstAt_of_isPrefix h]
  rfl

/-- A search that does not begin at an occurrence goes on behind the first symbol. -/
theorem find_succ {s pat : List α} {i : Nat} (hi : i < s.length) (h : ¬ pat <+: s.drop i) :
    find s pat i = find s pat (i + 1) := by
  have hdrop := List.drop_eq_getElem_cons hi
  rw [find_eq (Nat.le_of_lt hi), find_eq hi, hdrop, firstAt_cons_of_not (hdrop ▸ h),
    Option.map_map]
  congr 1
  funext k
  show i + (k + 1) = i + 1 + k
  omega

/-- What is found is an occurrence. -/
theorem prefix_drop_of_find {s pat : List α} {pos k : Nat} (h : find s pat pos = some k) :
    pat <+: s.drop k := by
  unfold find at h
  split at h
  · obtain ⟨k', hk', rfl⟩ := Option.map_eq_some_iff.mp h
    rw [← List.drop_drop]
    exact (firstAt_eq_some_iff.mp hk').2.1
  · cases h

/-- Where a search ends at the position at which it begins. -/
theorem find_eq_self_iff {s pat : List α} {i : Nat} (hi : i ≤ s.length) :
    find s pat i = some i ↔ pat <+: s.drop i :=
  ⟨prefix_drop_of_find, find_here hi⟩

/-- What a search finds, as the rest of the text. -/
theorem seek_of_find {s pat : List α} {pos : Nat} (h : pos ≤ s.length) :
    (find s pat pos).map s.drop = seek pat (s.drop pos) := by
  rw [find_eq h, seek, Option.map_map]
  congr 1
  funext k
  simp [List.drop_drop]

/-- What a parser finds, as a position. -/
theorem find_of_seek {s pat t : List α} {i : Nat} (hpos : i ≤ s.length)
    (h : seek pat (s.drop i) = some t) :
    ∃ k, find s pat i = some k ∧ s.drop k = t ∧ k ≤ s.length := by
  rw [← seek_of_find hpos] at h
  obtain ⟨k, hk, rfl⟩ := Option.map_eq_some_iff.mp h
  refine ⟨k, hk, rfl, ?_⟩
  rw [find_eq hpos] at hk
  obtain ⟨k', hk', rfl⟩ := Option.map_eq_some_iff.mp hk
  have hlen := firstAt_length_le hk'
  rw [List.length_drop] at hlen
  omega

/-! ### Searching as a parser does -/

theorem seek_of_isPrefix {pat s : List α} (h : pat <+: s) : seek pat s = some s := by
  rw [seek, firstAt_of_isPrefix h]
  rfl

theorem seek_cons_of_not {pat : List α} {x : α} {s : List α} (h : ¬ pat <+: x :: s) :
    seek pat (x :: s) = seek pat s := by
  rw [seek, firstAt_cons_of_not h, seek, Option.map_map]
  rfl

/-- A search skips what does not contain the first symbol of its pattern. -/
theorem firstAt_append_of_not_mem {p : α} {q a : List α} (h : p ∉ a) (s : List α) :
    firstAt (p :: q) (a ++ s) = (firstAt (p :: q) s).map (a.length + ·) := by
  induction a with
  | nil => simp
  | cons x a ih =>
    rw [List.mem_cons, not_or] at h
    have hx : ¬ p :: q <+: x :: (a ++ s) := fun hpre =>
      h.1 (List.cons_prefix_cons.mp hpre).1
    rw [List.cons_append, firstAt_cons_of_not hx, ih h.2, Option.map_map]
    congr 1
    funext k
    show a.length + k + 1 = a.length + 1 + k
    omega

theorem seek_append_of_not_mem {p : α} {q a : List α} (h : p ∉ a) (s : List α) :
    seek (p :: q) (a ++ s) = seek (p :: q) s := by
  rw [seek, firstAt_append_of_not_mem h, seek, Option.map_map]
  congr 1
  funext k
  exact List.drop_length_add_append k

theorem seek_cons_of_ne {p x : α} (h : p ≠ x) (ps s : List α) :
    seek (p :: ps) (x :: s) = seek (p :: ps) s :=
  seek_append_of_not_mem (a := [x]) (by simpa using h) s

/-- The search for one symbol. -/
theorem firstAt_single {c : α} {a : List α} (h : c ∉ a) (b : List α) :
    firstAt [c] (a ++ c :: b) = some a.length := by
  have hhere : [c] <+: c :: b := ⟨b, rfl⟩
  rw [firstAt_append_of_not_mem h, firstAt_of_isPrefix hhere]
  rfl

theorem seek_single {c : α} {a : List α} (h : c ∉ a) (b : List α) :
    seek [c] (a ++ c :: b) = some (c :: b) := by
  have hhere : [c] <+: c :: b := ⟨b, rfl⟩
  rw [seek_append_of_not_mem h, seek_of_isPrefix hhere]

/-- A symbol that a text contains is found inside it, whatever follows. -/
theorem firstAt_single_of_mem {c : α} {a : List α} (h : c ∈ a) (b : List α) :
    ∃ k < a.length, firstAt [c] (a ++ b) = some k := by
  obtain ⟨u, v, rfl, hu⟩ := List.eq_append_cons_of_mem h
  refine ⟨u.length, by simp, ?_⟩
  rw [List.append_assoc, List.cons_append]
  exact firstAt_single hu (v ++ b)

/-- The search for a symbol that is not there. -/
theorem firstAt_single_eq_none_iff {c : α} {s : List α} : firstAt [c] s = none ↔ c ∉ s := by
  constructor
  · intro h hmem
    obtain ⟨k, -, hk⟩ := firstAt_single_of_mem hmem []
    rw [List.append_nil, h] at hk
    cases hk
  · intro h
    rw [firstAt_eq_none_iff]
    intro i _ hat
    exact h (List.mem_of_mem_drop (hat.subset List.mem_cons_self))

/-- A symbol is found from a position on if it stands there or later. -/
theorem find_single_ne_none_iff {c : α} {s : List α} {pos : Nat} (h : pos ≤ s.length) :
    find s [c] pos ≠ none ↔ c ∈ s.drop pos := by
  rw [find_eq h, ne_eq, Option.map_eq_none_iff, firstAt_single_eq_none_iff, not_not]

/-- The first occurrence of a symbol divides the text. -/
theorem firstAt_single_eq_some {c : α} {s : List α} {k : Nat} (h : firstAt [c] s = some k) :
    ∃ a b, s = a ++ c :: b ∧ c ∉ a ∧ k = a.length := by
  have hmem : c ∈ s := by
    by_contra hno
    rw [firstAt_single_eq_none_iff.mpr hno] at h
    cases h
  obtain ⟨a, b, rfl, ha⟩ := List.eq_append_cons_of_mem hmem
  rw [firstAt_single ha, Option.some.injEq] at h
  exact ⟨a, b, rfl, ha, h.symm⟩

end CppLaravel.Lib
