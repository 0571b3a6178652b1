import CppLaravel.Lib.Find

/-!
# `CppLaravel.Lib.Escaped`: strings between quotes, escaped with a backslash

An `Escaping` says which symbols are written behind a backslash, and as what. `write` is the
text of a string, `string` the same between quotes, and `scan` reads it back.

A search for a quoted key that does not know about strings stops where a string ends the way
the key looks: `Imitates key s`.

* `write_prefix_iff`: two texts agree up to the closing quote exactly if the strings are
  equal.
* `seek_string`: the search for a key passes a string that does not imitate it and stops at
  the end of one that does.
* `scan_write`: what is read back of a string, symbol by symbol.
-/

set_option autoImplicit false

namespace CppLaravel.Lib

variable {α : Type*}

/-- A way to write strings: `code c` stands behind a backslash for the symbol `c`. Quotes and
backslashes are written so, and no two symbols in the same way. -/
structure Escaping (α : Type*) where
  quote : α
  backslash : α
  code : α → Option α
  quote_ne : quote ≠ backslash
  code_quote : code quote = some quote
  code_backslash : code backslash = some backslash
  inj : ∀ c d e, code c = some e → code d = some e → c = d

namespace Escaping

variable (E : Escaping α)

/-- The text of a string. -/
def write : List α → List α
  | [] => []
  | c :: s =>
    match E.code c with
    | none => c :: write s
    | some e => E.backslash :: e :: write s

/-- A string between quotes. -/
def string (s : List α) : List α := E.quote :: (E.write s ++ [E.quote])

/-- The pattern that finds a key. -/
def quoted (key : List α) : List α := E.quote :: (key ++ [E.quote])

/-- The text of the string `s` ends with the quoted key: it is the key, or ends with a quote
and the key. -/
def Imitates (key s : List α) : Prop := E.quote :: key <:+ E.quote :: s

/-- A string without symbols that are escaped. -/
def Plain (s : List α) : Prop := ∀ c ∈ s, E.code c = none

variable {E}

/-! ### Writing -/

theorem write_some {c e : α} (h : E.code c = some e) (s : List α) :
    E.write (c :: s) = E.backslash :: e :: E.write s := by
  rw [write, h]

theorem write_none {c : α} (h : E.code c = none) (s : List α) :
    E.write (c :: s) = c :: E.write s := by
  rw [write, h]

theorem write_append (s t : List α) : E.write (s ++ t) = E.write s ++ E.write t := by
  induction s with
  | nil => rfl
  | cons c s ih =>
    cases hc : E.code c with
    | none => rw [List.cons_append, write_none hc, write_none hc, ih, List.cons_append]
    | some e =>
      rw [List.cons_append, write_some hc, write_some hc, ih, List.cons_append, List.cons_append]

/-- A string without such symbols is written as it is. -/
theorem write_of_plain {s : List α} (h : E.Plain s) : E.write s = s := by
  induction s with
  | nil => rfl
  | cons c s ih =>
    rw [write_none (h c List.mem_cons_self), ih fun x hx => h x (List.mem_cons_of_mem _ hx)]

/-- A symbol that never stands for another is in the text exactly if it is in the string. -/
theorem mem_write {b : α} (hb : b ≠ E.backslash) (hcode : ∀ c, E.code c = some b → c = b)
    (hself : ∀ e, E.code b = some e → e = b) {s : List α} : b ∈ E.write s ↔ b ∈ s := by
  induction s with
  | nil => rfl
  | cons c s ih =>
    cases hc : E.code c with
    | none => rw [write_none hc, List.mem_cons, List.mem_cons, ih]
    | some e =>
      rw [write_some hc, List.mem_cons, List.mem_cons, List.mem_cons, ih]
      have hiff : b = e ↔ b = c := by
        constructor
        · rintro rfl
          exact (hcode c hc).symm
        · rintro rfl
          exact (hself e hc).symm
      simp [hb, hiff]

/-- A string and what follows it. -/
theorem string_append (s rest : List α) :
    E.string s ++ rest = E.quote :: (E.write s ++ E.quote :: rest) := by
  simp [string]

theorem ne_quote_of_none {c : α} (h : E.code c = none) : c ≠ E.quote := by
  rintro rfl
  rw [E.code_quote] at h
  cases h

theorem ne_backslash_of_none {c : α} (h : E.code c = none) : c ≠ E.backslash := by
  rintro rfl
  rw [E.code_backslash] at h
  cases h

/-- The first quote that is not behind a backslash ends the string, so two texts agree up to
it exactly if the strings are equal. -/
theorem write_prefix_iff (k s x rest : List α) :
    E.write k ++ E.quote :: x <+: E.write s ++ E.quote :: rest ↔ k = s ∧ x <+: rest := by
  -- Symbol by symbol of both strings; a text that is escaped starts with a backslash.
  induction k generalizing s with
  | nil =>
    cases s with
    | nil =>
      rw [write, List.nil_append, List.nil_append, List.cons_prefix_cons]
      simp
    | cons c s =>
      have hne : ¬ E.write [] ++ E.quote :: x <+: E.write (c :: s) ++ E.quote :: rest := by
        intro h
        cases hc : E.code c with
        | none =>
          rw [write_none hc] at h
          exact ne_quote_of_none hc (List.cons_prefix_cons.mp h).1.symm
        | some e =>
          rw [write_some hc] at h
          exact E.quote_ne (List.cons_prefix_cons.mp h).1
      simp [hne]
  | cons a k ih =>
    cases s with
    | nil =>
      have hne : ¬ E.write (a :: k) ++ E.quote :: x <+: E.write [] ++ E.quote :: rest := by
        intro h
        cases ha : E.code a with
        | none =>
          rw [write_none ha] at h
          exact ne_quote_of_none ha (List.cons_prefix_cons.mp h).1
        | some e =>
          rw [write_some ha] at h
          exact E.quote_ne (List.cons_prefix_cons.mp h).1.symm
      simp [hne]
    | cons c s =>
      cases ha : E.code a with
      | none =>
        cases hc : E.code c with
        | none =>
          rw [write_none ha, write_none hc, List.cons_append, List.cons_append,
            List.cons_prefix_cons, ih, List.cons.injEq, and_assoc]
        | some e =>
          rw [write_none ha, write_some hc]
          constructor
          · exact fun h => absurd (List.cons_prefix_cons.mp h).1 (ne_backslash_of_none ha)
          · rintro ⟨h, -⟩
            rw [(List.cons.inj h).1, hc] at ha
            cases ha
      | some e =>
        cases hc : E.code c with
        | none =>
          rw [write_some ha, write_none hc]
          constructor
          · exact fun h => absurd (List.cons_prefix_cons.mp h).1.symm (ne_backslash_of_none hc)
          · rintro ⟨h, -⟩
            rw [(List.cons.inj h).1, hc] at ha
            cases ha
        | some e' =>
          have hsame : e = e' ↔ a = c := by
            constructor
            · rintro rfl
              exact E.inj a c e ha hc
            · rintro rfl
              exact Option.some.inj (ha.symm.trans hc)
          rw [write_some ha, write_some hc, List.cons_append, List.cons_append, List.cons_append,
            List.cons_append, List.cons_prefix_cons, List.cons_prefix_cons, ih, hsame,
            List.cons.injEq, and_assoc, and_iff_right rfl]

/-- From the start of a string the key and its closing quote are read exactly if the string
is the key. -/
theorem key_prefix_iff {key : List α} (hkey : E.Plain key) (s rest : List α) :
    key ++ [E.quote] <+: E.write s ++ E.quote :: rest ↔ key = s := by
  have h := write_prefix_iff (E := E) key s [] rest
  rw [write_of_plain hkey] at h
  simpa using h

/-! ### Searching -/

variable [DecidableEq α]

instance (key s : List α) : Decidable (E.Imitates key s) :=
  inferInstanceAs (Decidable (_ <:+ _))

instance (s : List α) : Decidable (E.Plain s) := inferInstanceAs (Decidable (∀ _ ∈ _, _))

omit [DecidableEq α] in
theorem imitates_iff {key s : List α} :
    E.Imitates key s ↔ key = s ∨ E.quote :: key <:+ s := by
  rw [Imitates, List.suffix_cons_iff, List.cons.injEq]
  simp

/-- The search for a key passes every symbol but a quote. -/
theorem seek_quoted_cons {key : List α} {x : α} (h : E.quote ≠ x) (t : List α) :
    seek (E.quoted key) (x :: t) = seek (E.quoted key) t :=
  seek_cons_of_ne h (key ++ [E.quote]) t

omit [DecidableEq α] in
/-- A text that starts with another symbol is not the rest of a key. -/
theorem not_key_prefix (key : List α) (x : α) (h : (key ++ [E.quote]).head? ≠ some x)
    (t : List α) : ¬ key ++ [E.quote] <+: x :: t := by
  intro hpre
  obtain ⟨u, hu⟩ := hpre
  cases hkey : key ++ [E.quote] with
  | nil => exact absurd hkey (by simp)
  | cons k ks =>
    rw [hkey, List.cons_append, List.cons.injEq] at hu
    rw [hkey, hu.1] at h
    exact h rfl

/-- At the opening quote of a string the search stops exactly if the string is the key. -/
theorem seek_opening_quote {key : List α} (hkey : E.Plain key) (s rest : List α) :
    seek (E.quoted key) (E.quote :: (E.write s ++ E.quote :: rest)) =
      if key = s then some (E.quoted key ++ rest)
      else seek (E.quoted key) (E.write s ++ E.quote :: rest) := by
  by_cases hs : key = s
  · subst hs
    have hhere : E.quoted key <+: E.quote :: (E.write key ++ E.quote :: rest) :=
      List.cons_prefix_cons.mpr ⟨rfl, (key_prefix_iff hkey key rest).mpr rfl⟩
    rw [seek_of_isPrefix hhere, if_pos rfl, write_of_plain hkey]
    simp [quoted]
  · have hnot : ¬ E.quoted key <+: E.quote :: (E.write s ++ E.quote :: rest) := fun h =>
      hs ((key_prefix_iff hkey s rest).mp (List.cons_prefix_cons.mp h).2)
    rw [seek_cons_of_not hnot, if_neg hs]

omit [DecidableEq α] in
theorem suffix_cons_of_ne {key s : List α} {c : α} (h : E.quote ≠ c) :
    E.quote :: key <:+ c :: s ↔ E.quote :: key <:+ s := by
  rw [List.suffix_cons_iff, List.cons.injEq]
  simp [h]

/-- Inside a string only its end can look like the key. -/
theorem seek_write {key : List α} (hkey : E.Plain key) (s : List α) {rest : List α}
    (hrest : ¬ key ++ [E.quote] <+: rest) :
    seek (E.quoted key) (E.write s ++ E.quote :: rest) =
      if E.quote :: key <:+ s then some (E.quoted key ++ rest)
      else seek (E.quoted key) rest := by
  induction s with
  | nil =>
    have hnot : ¬ E.quoted key <+: E.quote :: rest := fun h =>
      hrest (List.cons_prefix_cons.mp h).2
    rw [if_neg (by simp)]
    exact seek_cons_of_not hnot
  | cons c s ih =>
    cases hc : E.code c with
    | some e =>
      rw [write_some hc]
      show seek (E.quoted key) (E.backslash :: e :: (E.write s ++ E.quote :: rest)) = _
      rw [seek_quoted_cons E.quote_ne]
      by_cases hquote : c = E.quote
      · -- An escaped quote starts the key exactly if the key is the rest of the string.
        subst hquote
        rw [E.code_quote, Option.some.injEq] at hc
        subst hc
        have hiff : E.quote :: key <:+ E.quote :: s ↔ key = s ∨ E.quote :: key <:+ s :=
          imitates_iff
        rw [seek_opening_quote hkey, ih]
        by_cases hs : key = s
        · rw [if_pos hs, if_pos (hiff.mpr (.inl hs))]
        · rw [if_neg hs, if_congr (hiff.trans (or_iff_right hs)) rfl rfl]
      · -- Any other escape has no quote in it, so the search passes both symbols.
        have he : E.quote ≠ e := by
          rintro rfl
          exact hquote (E.inj c E.quote E.quote hc E.code_quote)
        rw [seek_quoted_cons he, ih, if_congr (suffix_cons_of_ne (Ne.symm hquote)) rfl rfl]
    | none =>
      -- A symbol that stands for itself is no quote.
      have hquote := (ne_quote_of_none hc).symm
      rw [write_none hc, List.cons_append, seek_quoted_cons hquote, ih,
        if_congr (suffix_cons_of_ne hquote) rfl rfl]

/-- The search for a key at a string: it stops at the string's end if the string imitates
the key, and passes the string otherwise. -/
theorem seek_string {key : List α} (hkey : E.Plain key) (s : List α) {rest : List α}
    (hrest : ¬ key ++ [E.quote] <+: rest) :
    seek (E.quoted key) (E.string s ++ rest) =
      if E.Imitates key s then some (E.quoted key ++ rest) else seek (E.quoted key) rest := by
  rw [string_append, seek_opening_quote hkey, seek_write hkey s hrest]
  by_cases hs : key = s
  · rw [if_pos hs, if_pos (imitates_iff.mpr (.inl hs))]
  · rw [if_neg hs, if_congr (imitates_iff.trans (or_iff_right hs)) rfl rfl]

end Escaping

/-! ### Reading -/

variable [DecidableEq α] {quote backslash : α} {decode : α → α}

/-- Reads a string behind its opening quote, with `decode` behind a backslash: the content,
and the text from the closing quote on. A backslash at the very end stands for itself. -/
def scan (quote backslash : α) (decode : α → α) : List α → List α × List α
  | [] => ([], [])
  | [c] => if c = quote then ([], [c]) else ([c], [])
  | c :: d :: t =>
    if c = backslash then
      let r := scan quote backslash decode t
      (decode d :: r.1, r.2)
    else if c = quote then ([], c :: d :: t)
    else
      let r := scan quote backslash decode (d :: t)
      (c :: r.1, r.2)

theorem scan_length (t : List α) : (scan quote backslash decode t).2.length ≤ t.length := by
  fun_induction scan quote backslash decode t with
  | case1 => exact Nat.le_refl _
  | case2 => exact Nat.le_refl _
  | case3 => exact Nat.zero_le _
  | case4 d t r ih => exact ih.trans (Nat.le_add_right _ 2)
  | case5 => exact Nat.le_refl _
  | case6 c d t _ _ r ih => exact ih.trans (Nat.le_succ _)

/-- At a quote the string ends. -/
theorem scan_quote (hne : quote ≠ backslash) (rest : List α) :
    scan quote backslash decode (quote :: rest) = ([], quote :: rest) := by
  cases rest with
  | nil => rw [scan, if_pos rfl]
  | cons d t => rw [scan, if_neg hne, if_pos rfl]

/-- A symbol that is not special is read as it is. -/
theorem scan_other {c : α} (hq : c ≠ quote) (hb : c ≠ backslash) {t : List α} (ht : t ≠ []) :
    scan quote backslash decode (c :: t) =
      (c :: (scan quote backslash decode t).1, (scan quote backslash decode t).2) := by
  cases t with
  | nil => exact absurd rfl ht
  | cons d t => rw [scan, if_neg hb, if_neg hq]

namespace Escaping

variable (E : Escaping α)

/-- What is read back for a symbol. -/
def readBack (decode : α → α) (c : α) : α := (E.code c).elim c decode

variable {E}

/-- **What is read back of a string.** -/
theorem scan_write (s rest : List α) :
    scan E.quote E.backslash decode (E.write s ++ E.quote :: rest) =
      (s.map (E.readBack decode), E.quote :: rest) := by
  induction s with
  | nil => exact scan_quote E.quote_ne rest
  | cons c s ih =>
    cases hc : E.code c with
    | none =>
      rw [write_none hc, List.cons_append,
        scan_other (ne_quote_of_none hc) (ne_backslash_of_none hc) (by simp), ih, List.map_cons,
        readBack, hc]
      rfl
    | some e =>
      rw [write_some hc, List.cons_append, List.cons_append, scan, if_pos rfl, ih,
        List.map_cons, readBack, hc]
      rfl

end Escaping

end CppLaravel.Lib
