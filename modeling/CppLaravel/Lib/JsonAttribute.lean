import CppLaravel.Lib.CharacterReference
import CppLaravel.Lib.Json
import Mathlib.Data.List.TakeWhile

/-!
# `CppLaravel.Lib.JsonAttribute`: an object of strings as the value of an attribute

An object that is written between single quotes, with nothing escaped for HTML. The object has
the fewest characters of all texts that are read as its entries, and what HTML does to a value
only makes it shorter: a quote cuts it, a reference shrinks it. So the entries come back exactly
if nothing of the sort happens (`reads_attribute_iff`).
-/

set_option autoImplicit false

namespace CppLaravel.Lib.Json

/-! ### The characters of an object -/

/-- A character that no part of an object's text but its strings has. -/
structure Foreign (b : Char) : Prop where
  code : escaping.code b = none
  not_letter : b ∉ ['n', 'r', 't']
  not_structural : b ∉ ['{', '}', ',', ':']

theorem foreign_apostrophe : Foreign '\'' where
  code := rfl
  not_letter := by decide
  not_structural := by decide

theorem foreign_zero : Foreign '\x00' where
  code := rfl
  not_letter := by decide
  not_structural := by decide

theorem code_mem {c e : Char} (h : escaping.code c = some e) : e = c ∨ e ∈ ['n', 'r', 't'] := by
  simp only [escaping] at h
  grind

theorem mem_string {b : Char} (hb : Foreign b) {s : Text} : b ∈ escaping.string s ↔ b ∈ s := by
  have hquote : b ≠ escaping.quote := Escaping.ne_quote_of_none hb.code
  have hcode : ∀ c, escaping.code c = some b → c = b := fun c hc =>
    ((code_mem hc).resolve_right hb.not_letter).symm
  have hself : ∀ e, escaping.code b = some e → e = b := by
    intro e he
    rw [hb.code] at he
    cases he
  have hwrite := Escaping.mem_write (E := escaping) (Escaping.ne_backslash_of_none hb.code)
    hcode hself (s := s)
  simp [Escaping.string, hquote, hwrite]

theorem mem_entry {b : Char} (hb : Foreign b) {e : Text × Text} :
    b ∈ entry e ↔ b ∈ e.1 ∨ b ∈ e.2 := by
  have hcolon : b ≠ ':' := fun h => hb.not_structural (by simp [h])
  rw [entry, List.mem_append, List.mem_cons, mem_string hb, mem_string hb, or_iff_right hcolon]

theorem mem_entries {b : Char} (hb : Foreign b) {es : List (Text × Text)} :
    b ∈ [','].intercalate (es.map entry) ↔ ∃ e ∈ es, b ∈ e.1 ∨ b ∈ e.2 := by
  have hcomma : b ≠ ',' := fun h => hb.not_structural (by simp [h])
  induction es with
  | nil => simp
  | cons e es ih =>
    cases es with
    | nil =>
      show b ∈ entry e ++ [] ↔ _
      simp [mem_entry hb]
    | cons e' es =>
      show b ∈ entry e ++ ',' :: [','].intercalate ((e' :: es).map entry) ↔ _
      rw [List.mem_append, List.mem_cons, mem_entry hb, or_iff_right hcomma]
      exact (or_congr_right ih).trans (by simp only [List.mem_cons, exists_eq_or_imp])

theorem mem_object {b : Char} (hb : Foreign b) {es : List (Text × Text)} :
    b ∈ object es ↔ ∃ e ∈ es, b ∈ e.1 ∨ b ∈ e.2 := by
  have hbrace : b ≠ '{' ∧ b ≠ '}' :=
    ⟨fun h => hb.not_structural (by simp [h]), fun h => hb.not_structural (by simp [h])⟩
  rw [object, List.mem_cons, List.mem_append, mem_entries hb, List.mem_singleton,
    or_iff_right hbrace.1, or_iff_left hbrace.2]

/-! ### The references in an object -/

variable {T : Names}

theorem code_of_inReference {c : Char} (h : inReference c) : escaping.code c = none := by
  cases hc : escaping.code c with
  | none => rfl
  | some e =>
    have hcases : c = '"' ∨ c = '\\' ∨ c = '\n' ∨ c = '\r' ∨ c = '\t' := by
      simp only [escaping] at hc
      grind
    rcases hcases with rfl | rfl | rfl | rfl | rfl <;> exact absurd h (by decide)

/-- What a string starts with, up to an equals sign, is the same in its text. -/
theorem alike_write {q : Text} (hq : Stops q) (t : Text) :
    Alike q (escaping.write q ++ '"' :: t) := by
  cases q with
  | nil => exact ⟨hq, stops_cons.mpr (by decide), by simp [Escaping.write]⟩
  | cons c q =>
    cases hc : escaping.code c with
    | none =>
      rw [Escaping.write_none hc]
      exact ⟨hq, stops_cons.mpr (stops_cons.mp hq), Iff.rfl⟩
    | some e =>
      have hne : c ≠ '=' := by
        rintro rfl
        cases hc
      rw [Escaping.write_some hc]
      refine ⟨hq, stops_cons.mpr (by decide), ?_⟩
      simp [hne, escaping]

/-- An ampersand starts a reference in the text of a string exactly if it does in the
string. -/
theorem reference_write (s t : Text) :
    reference T (escaping.write s ++ '"' :: t) = reference T s := by
  have hplain : escaping.Plain (s.takeWhile inReference) := fun c hc =>
    code_of_inReference (List.mem_takeWhile_imp hc)
  have hstops : Stops (s.dropWhile inReference) := by
    intro c hc
    have hnot := List.head?_dropWhile_not inReference s
    rw [hc] at hnot
    simpa using hnot
  calc reference T (escaping.write s ++ '"' :: t)
      = reference T (s.takeWhile inReference
          ++ (escaping.write (s.dropWhile inReference) ++ '"' :: t)) := by
        conv_lhs => rw [← List.takeWhile_append_dropWhile (p := inReference) (l := s)]
        rw [Escaping.write_append, Escaping.write_of_plain hplain, List.append_assoc]
    _ = reference T (s.takeWhile inReference ++ s.dropWhile inReference) :=
        (reference_congr (alike_write hstops t) _).symm
    _ = reference T s := by rw [List.takeWhile_append_dropWhile]

theorem inert_write (s t : Text) :
    Inert T (escaping.write s ++ '"' :: t) ↔ Inert T s ∧ Inert T t := by
  induction s with
  | nil =>
    show Inert T ('"' :: t) ↔ _
    rw [inert_cons_of_ne (by decide)]
    exact (and_iff_right inert_nil).symm
  | cons c s ih =>
    cases hc : escaping.code c with
    | none =>
      rw [Escaping.write_none hc, List.cons_append, inert_cons, inert_cons, reference_write, ih,
        and_assoc]
    | some e =>
      have hamp : c ≠ '&' := by
        rintro rfl
        cases hc
      have he : e ≠ '&' := by
        rintro rfl
        exact (code_mem hc).elim (fun h => hamp h.symm) (by decide)
      rw [Escaping.write_some hc, List.cons_append, List.cons_append,
        inert_cons_of_ne (by decide), inert_cons_of_ne he, inert_cons_of_ne hamp, ih]

theorem inert_string (s t : Text) :
    Inert T (escaping.string s ++ t) ↔ Inert T s ∧ Inert T t := by
  rw [Escaping.string_append, inert_cons_of_ne (by decide)]
  exact inert_write s t

theorem inert_entry (e : Text × Text) (t : Text) :
    Inert T (entry e ++ t) ↔ (Inert T e.1 ∧ Inert T e.2) ∧ Inert T t := by
  rw [entry, List.append_assoc, List.cons_append, inert_string, inert_cons_of_ne (by decide),
    inert_string, and_assoc]

theorem inert_entries (es : List (Text × Text)) (t : Text) :
    Inert T ([','].intercalate (es.map entry) ++ t) ↔
      (∀ e ∈ es, Inert T e.1 ∧ Inert T e.2) ∧ Inert T t := by
  induction es with
  | nil => simp
  | cons e es ih =>
    cases es with
    | nil =>
      show Inert T (entry e ++ [] ++ t) ↔ _
      rw [List.append_nil, inert_entry, List.forall_mem_singleton]
    | cons e' es =>
      show Inert T (entry e ++ ',' :: [','].intercalate ((e' :: es).map entry) ++ t) ↔ _
      rw [List.append_assoc, List.cons_append, inert_entry, inert_cons_of_ne (by decide), ih,
        List.forall_mem_cons (l := e' :: es), and_assoc, and_assoc, and_assoc]

theorem inert_object (es : List (Text × Text)) :
    Inert T (object es) ↔ ∀ e ∈ es, Inert T e.1 ∧ Inert T e.2 := by
  rw [object, inert_cons_of_ne (by decide), inert_entries, inert_cons_of_ne (by decide)]
  exact and_iff_left inert_nil

/-! ### The value -/

/-- A string that comes through: no quote ends the value, no character is missing its escape,
no ampersand starts a reference. -/
structure Harmless (T : Names) (s : Text) : Prop where
  no_apostrophe : '\'' ∉ s
  written : ∀ c ∈ s, ¬ Unwritten c
  inert : Inert T s

theorem takeWhile_of_not_mem {t rest : Text} (h : '\'' ∉ t) :
    (t ++ '\'' :: rest).takeWhile (· ≠ '\'') = t := by
  have hall : ∀ c ∈ t, decide (c ≠ '\'') = true := fun c hc =>
    decide_eq_true fun heq => h (heq ▸ hc)
  rw [List.takeWhile_append_of_pos hall, List.takeWhile_cons_of_neg (by decide), List.append_nil]

theorem singleQuoted_of_not_mem {t rest : Text} (h : '\'' ∉ t) :
    singleQuoted T (t ++ '\'' :: rest) = some (decodeReferences T t, rest) := by
  have hall : ∀ c ∈ t, decide (c ≠ '\'') = true := fun c hc =>
    decide_eq_true fun heq => h (heq ▸ hc)
  rw [singleQuoted, if_pos (by simp), takeWhile_of_not_mem h, List.dropWhile_append_of_pos hall,
    List.dropWhile_cons_of_neg (by decide), List.tail_cons]

theorem length_takeWhile_lt {t : Text} (h : '\'' ∈ t) (rest : Text) :
    ((t ++ '\'' :: rest).takeWhile (· ≠ '\'')).length < t.length := by
  obtain ⟨u, w, rfl, hu⟩ := List.eq_append_cons_of_mem h
  rw [List.append_assoc, List.cons_append, takeWhile_of_not_mem hu, List.length_append,
    List.length_cons]
  omega

theorem length_takeWhile_le (t rest : Text) :
    ((t ++ '\'' :: rest).takeWhile (· ≠ '\'')).length ≤ t.length := by
  by_cases h : '\'' ∈ t
  · exact (length_takeWhile_lt h rest).le
  · rw [takeWhile_of_not_mem h]

/-- **Harmless entries come back**, and the value ends where it was ended. -/
theorem singleQuoted_object {es : List (Text × Text)}
    (h : ∀ e ∈ es, Harmless T e.1 ∧ Harmless T e.2) (rest : Text) :
    singleQuoted T (object es ++ '\'' :: rest) = some (object es, rest) := by
  have hzero : ∀ {s : Text}, Harmless T s → '\x00' ∉ s := fun hs hmem =>
    hs.written _ hmem ⟨by decide, rfl⟩
  have hnone : '\'' ∉ object es := by
    rw [mem_object foreign_apostrophe]
    rintro ⟨e, he, hmem | hmem⟩
    · exact (h e he).1.no_apostrophe hmem
    · exact (h e he).2.no_apostrophe hmem
  have hvalid : '\x00' ∉ object es := by
    rw [mem_object foreign_zero]
    rintro ⟨e, he, hmem | hmem⟩
    · exact hzero (h e he).1 hmem
    · exact hzero (h e he).2 hmem
  have hinert : Inert T (object es) :=
    (inert_object es).mpr fun e he => ⟨(h e he).1.inert, (h e he).2.inert⟩
  rw [singleQuoted_of_not_mem hnone, decodeReferences_of_inert hinert hvalid]

/-- **Only harmless entries come back.** -/
theorem harmless_of_reads {es : List (Text × Text)} (hnodup : es.Nodup) {rest value rest' : Text}
    (hvalue : singleQuoted T (object es ++ '\'' :: rest) = some (value, rest'))
    (hreads : Reads value es) : ∀ e ∈ es, Harmless T e.1 ∧ Harmless T e.2 := by
  rw [singleQuoted, if_pos (by simp)] at hvalue
  obtain ⟨rfl, -⟩ := Prod.mk.inj (Option.some.inj hvalue)
  -- Every step from the object to the value that is read can only lose characters.
  have hleast := size_le_of_reads hreads hnodup
  have hdecode := length_decodeReferences_le (T := T)
    ((object es ++ '\'' :: rest).takeWhile (· ≠ '\''))
  have hcut := length_takeWhile_le (object es) rest
  have hobject := length_object es
  have hwritten := size_le es
  have hnone : '\'' ∉ object es := by
    intro hmem
    have hlt := length_takeWhile_lt hmem rest
    omega
  have hinert : Inert T (object es) := by
    by_contra hnot
    have hlt := length_lt_of_not_inert hnot
    rw [takeWhile_of_not_mem hnone] at hleast
    omega
  have hescaped : ∀ e ∈ es, ∀ c, c ∈ e.1 ∨ c ∈ e.2 → ¬ Unwritten c := by
    intro e he c hc hun
    have hlt := size_lt he hc hun
    omega
  rw [mem_object foreign_apostrophe] at hnone
  intro e he
  have hboth := (inert_object es).mp hinert e he
  exact ⟨⟨fun hmem => hnone ⟨e, he, .inl hmem⟩, fun c hc => hescaped e he c (.inl hc), hboth.1⟩,
    ⟨fun hmem => hnone ⟨e, he, .inr hmem⟩, fun c hc => hescaped e he c (.inr hc), hboth.2⟩⟩

end CppLaravel.Lib.Json
