import CppLaravel.Lib.Escaped
import CppLaravel.Lib.Text
import Mathlib.Algebra.GroupWithZero.Nat
import Mathlib.Algebra.Order.BigOperators.Group.List
import Mathlib.Algebra.Order.Group.Nat
import Mathlib.Data.List.Nodup
import Mathlib.Data.List.Perm.Subperm

/-!
# `CppLaravel.Lib.Json`: objects of strings as JSON texts

The grammar of JSON, by what a text is read as: a string has its characters, every other value
is only recognised. `Reads t es` says that the text `t` is an object whose entries are the
strings `es`; of members with the same key the last one counts.

`object` writes such an object, with a backslash before the quote, the backslash, and the
letters of a newline, a return and a tab, and every other character as it is.

* `reads_object`: what is written is read back, if no other control character is in it.
* `size_le_of_reads`: no text for the entries is shorter than the one that writes each
  character in the shortest way.
* `size_lt`: which is shorter than the one that `object` writes it in only by such a control
  character.
-/

set_option autoImplicit false

namespace CppLaravel.Lib.Json

/-! ### The grammar -/

/-- Whitespace. -/
def Blank (t : Text) : Prop := ∀ c ∈ t, c = ' ' ∨ c = '\t' ∨ c = '\n' ∨ c = '\r'

/-- The number that four hexadecimal digits write. -/
def hex4 : Text → Option Nat
  | [a, b, c, d] =>
    match hexDigit a, hexDigit b, hexDigit c, hexDigit d with
    | some a, some b, some c, some d => some (((a * 16 + b) * 16 + c) * 16 + d)
    | _, _, _, _ => none
  | _ => none

/-- The character that a letter behind a backslash stands for. -/
def letter (e : Char) : Option Char :=
  if e = '"' ∨ e = '\\' ∨ e = '/' then some e
  else if e = 'b' then some (Char.ofNat 8)
  else if e = 'f' then some (Char.ofNat 12)
  else if e = 'n' then some '\n'
  else if e = 'r' then some '\r'
  else if e = 't' then some '\t'
  else none

/-- The ways to write a character in a string. The number of a surrogate alone writes none. -/
inductive Symbol : Text → Char → Prop
  | plain {c : Char} : 32 ≤ c.toNat → c ≠ '"' → c ≠ '\\' → Symbol [c] c
  | letter {e c : Char} : letter e = some c → Symbol ['\\', e] c
  | number {t : Text} {c : Char} : hex4 t = some c.toNat → Symbol ('\\' :: 'u' :: t) c
  | surrogates {t t' : Text} {n n' : Nat} {c : Char} : hex4 t = some n → hex4 t' = some n' →
      0xD800 ≤ n → n < 0xDC00 → 0xDC00 ≤ n' → n' < 0xE000 →
      c.toNat = 0x10000 + (n - 0xD800) * 0x400 + (n' - 0xDC00) →
      Symbol ('\\' :: 'u' :: (t ++ '\\' :: 'u' :: t')) c

/-- The text between the quotes of a string. -/
inductive Content : Text → Text → Prop
  | nil : Content [] []
  | cons {t ts s : Text} {c : Char} : Symbol t c → Content ts s → Content (t ++ ts) (c :: s)

/-- A text between quotes. -/
def quoted (t : Text) : Text := '"' :: (t ++ ['"'])

def Digits (t : Text) : Prop := t ≠ [] ∧ ∀ c ∈ t, (decimalDigit c).isSome

/-- A number: a sign, the digits without a zero before others, a fraction, an exponent. -/
inductive Number : Text → Prop
  | mk {sign int frac exp : Text} : sign = [] ∨ sign = ['-'] →
      Digits int → (int.head? = some '0' → int = ['0']) →
      (frac = [] ∨ ∃ ds, Digits ds ∧ frac = '.' :: ds) →
      (exp = [] ∨ ∃ e s ds, (e = 'e' ∨ e = 'E') ∧ (s = [] ∨ s = ['+'] ∨ s = ['-']) ∧
        Digits ds ∧ exp = e :: (s ++ ds)) →
      Number (sign ++ (int ++ (frac ++ exp)))

mutual

/-- A value: a string with what it is read as, or any other. -/
inductive Value : Text → Option Text → Prop
  | string {t s : Text} : Content t s → Value (quoted t) (some s)
  | null : Value "null".toList none
  | true : Value "true".toList none
  | false : Value "false".toList none
  | number {t : Text} : Number t → Value t none
  | emptyArray {w : Text} : Blank w → Value ('[' :: (w ++ [']'])) none
  | array {t : Text} : Elements t → Value ('[' :: (t ++ [']'])) none
  | object {t : Text} {ms : List (Text × Option Text)} : Object t ms → Value t none

inductive Elements : Text → Prop
  | one {w t w' : Text} {v : Option Text} : Blank w → Value t v → Blank w' →
      Elements (w ++ (t ++ w'))
  | cons {w t w' ts : Text} {v : Option Text} : Blank w → Value t v → Blank w' → Elements ts →
      Elements (w ++ (t ++ (w' ++ ',' :: ts)))

inductive Object : Text → List (Text × Option Text) → Prop
  | empty {w : Text} : Blank w → Object ('{' :: (w ++ ['}'])) []
  | members {t : Text} {ms : List (Text × Option Text)} : Members t ms →
      Object ('{' :: (t ++ ['}'])) ms

inductive Members : Text → List (Text × Option Text) → Prop
  | one {t : Text} {m : Text × Option Text} : Member t m → Members t [m]
  | cons {t ts : Text} {m : Text × Option Text} {ms : List (Text × Option Text)} : Member t m →
      Members ts ms → Members (t ++ ',' :: ts) (m :: ms)

inductive Member : Text → Text × Option Text → Prop
  | mk {w k w₁ w₂ t w₃ key : Text} {v : Option Text} : Blank w → Content k key → Blank w₁ →
      Blank w₂ → Value t v → Blank w₃ →
      Member (w ++ (quoted k ++ (w₁ ++ ':' :: (w₂ ++ (t ++ w₃))))) (key, v)

end

/-- What the last member with a key has. -/
def last (ms : List (Text × Option Text)) (k : Text) : Option (Option Text) :=
  (ms.reverse.find? fun m => m.1 = k).map Prod.snd

/-- The text is an object with exactly these entries. -/
def Reads (t : Text) (es : List (Text × Text)) : Prop :=
  ∃ ms w t' w', Blank w ∧ Object t' ms ∧ Blank w' ∧ t = w ++ (t' ++ w') ∧
    ∀ k x, last ms k = some x ↔ ∃ v, x = some v ∧ (k, v) ∈ es

theorem mem_of_last {ms : List (Text × Option Text)} {k : Text} {x : Option Text}
    (h : last ms k = some x) : (k, x) ∈ ms := by
  obtain ⟨⟨k', x'⟩, hfind, rfl⟩ := Option.map_eq_some_iff.mp h
  have hkey : k' = k := by simpa using List.find?_some hfind
  subst hkey
  exact List.mem_reverse.mp (List.mem_of_find?_eq_some hfind)

/-- Where no two members have the same key, each of them counts. -/
theorem last_iff_mem {ms : List (Text × Option Text)} (h : (ms.map Prod.fst).Nodup) (k : Text)
    (x : Option Text) : last ms k = some x ↔ (k, x) ∈ ms := by
  constructor
  · exact mem_of_last
  · intro hmem
    cases hlast : last ms k with
    | none =>
      have hnone := List.find?_eq_none.mp (Option.map_eq_none_iff.mp hlast) (k, x)
        (List.mem_reverse.mpr hmem)
      simp at hnone
    | some y =>
      have hsame := List.inj_on_of_nodup_map h (mem_of_last hlast) hmem rfl
      rw [(Prod.mk.inj hsame).2]

theorem Reads.congr {t : Text} {es es' : List (Text × Text)} (h : Reads t es)
    (hmem : ∀ e, e ∈ es ↔ e ∈ es') : Reads t es' := by
  obtain ⟨ms, w, t', w', hw, hobject, hw', heq, hlast⟩ := h
  refine ⟨ms, w, t', w', hw, hobject, hw', heq, fun k x => ?_⟩
  simp only [hlast, hmem]

/-! ### Writing -/

/-- How strings are written. -/
def escaping : Escaping Char where
  quote := '"'
  backslash := '\\'
  code c :=
    if c = '"' ∨ c = '\\' then some c
    else if c = '\n' then some 'n'
    else if c = '\r' then some 'r'
    else if c = '\t' then some 't'
    else none
  quote_ne := by decide
  code_quote := rfl
  code_backslash := rfl
  inj := by
    intro c d e hc hd
    grind

/-- An entry of an object. -/
def entry (e : Text × Text) : Text := escaping.string e.1 ++ ':' :: escaping.string e.2

/-- An object. -/
def object (es : List (Text × Text)) : Text :=
  '{' :: ([','].intercalate (es.map entry) ++ ['}'])

/-- The characters that may not stand in a string and are not written in another way. -/
def Unwritten (c : Char) : Prop := c.toNat < 32 ∧ escaping.code c = none

theorem symbol_of_code {c e : Char} (h : escaping.code c = some e) : Symbol ['\\', e] c := by
  refine .letter ?_
  have hcases : c = '"' ∧ e = '"' ∨ c = '\\' ∧ e = '\\' ∨ c = '\n' ∧ e = 'n' ∨
      c = '\r' ∧ e = 'r' ∨ c = '\t' ∧ e = 't' := by
    simp only [escaping] at h
    grind
  rcases hcases with ⟨rfl, rfl⟩ | ⟨rfl, rfl⟩ | ⟨rfl, rfl⟩ | ⟨rfl, rfl⟩ | ⟨rfl, rfl⟩ <;> rfl

/-- A string is read as what was written. -/
theorem content_write {s : Text} (h : ∀ c ∈ s, ¬ Unwritten c) :
    Content (escaping.write s) s := by
  induction s with
  | nil => exact .nil
  | cons c s ih =>
    have hrest := ih fun d hd => h d (List.mem_cons_of_mem _ hd)
    cases hc : escaping.code c with
    | none =>
      rw [Escaping.write_none hc]
      have hplain : 32 ≤ c.toNat :=
        Nat.not_lt.mp fun hlt => h c List.mem_cons_self ⟨hlt, hc⟩
      exact .cons (.plain hplain (Escaping.ne_quote_of_none hc) (Escaping.ne_backslash_of_none hc))
        hrest
    | some e =>
      rw [Escaping.write_some hc]
      exact .cons (symbol_of_code hc) hrest

theorem blank_nil : Blank [] := by
  intro c hc
  cases hc

theorem member_entry {e : Text × Text} (hk : ∀ c ∈ e.1, ¬ Unwritten c)
    (hv : ∀ c ∈ e.2, ¬ Unwritten c) : Member (entry e) (e.1, some e.2) := by
  have h := Member.mk blank_nil (content_write hk) blank_nil blank_nil
    (.string (content_write hv)) blank_nil
  rwa [List.append_nil] at h

theorem members_entries {e : Text × Text} {es : List (Text × Text)}
    (h : ∀ e' ∈ e :: es, (∀ c ∈ e'.1, ¬ Unwritten c) ∧ ∀ c ∈ e'.2, ¬ Unwritten c) :
    Members ([','].intercalate ((e :: es).map entry)) ((e :: es).map fun e => (e.1, some e.2)) := by
  induction es generalizing e with
  | nil =>
    have he := h e List.mem_cons_self
    show Members (entry e ++ []) _
    rw [List.append_nil]
    exact .one (member_entry he.1 he.2)
  | cons e' es ih =>
    have he := h e List.mem_cons_self
    exact .cons (member_entry he.1 he.2) (ih fun x hx => h x (List.mem_cons_of_mem _ hx))

/-- **What is written is read back.** -/
theorem reads_object {es : List (Text × Text)} (hkeys : (es.map Prod.fst).Nodup)
    (h : ∀ e ∈ es, (∀ c ∈ e.1, ¬ Unwritten c) ∧ ∀ c ∈ e.2, ¬ Unwritten c) :
    Reads (object es) es := by
  refine ⟨es.map fun e => (e.1, some e.2), [], object es, [], blank_nil, ?_, blank_nil, ?_, ?_⟩
  · cases es with
    | nil => exact .empty blank_nil
    | cons e es => exact .members (members_entries h)
  · rw [List.append_nil, List.nil_append]
  · intro k x
    have hnodup : ((es.map fun e => (e.1, some e.2)).map Prod.fst).Nodup := by
      rwa [List.map_map]
    rw [last_iff_mem hnodup, List.mem_map]
    constructor
    · rintro ⟨⟨k', v⟩, hmem, heq⟩
      obtain ⟨rfl, rfl⟩ := Prod.mk.inj heq
      exact ⟨v, rfl, hmem⟩
    · rintro ⟨v, rfl, hmem⟩
      exact ⟨(k, v), hmem, rfl⟩

/-! ### Lengths -/

/-- The number of characters that `object` writes for one. -/
def written (c : Char) : Nat := if (escaping.code c).isSome then 2 else 1

/-- The least number of characters that write one. -/
def least (c : Char) : Nat := if c.toNat < 32 ∨ c = '"' ∨ c = '\\' then 2 else 1

/-- The length of an entry and its separator. -/
def entrySize (f : Char → Nat) (e : Text × Text) : Nat := (e.1.map f).sum + (e.2.map f).sum + 6

/-- The length of an object, with so many characters for each one. The empty one has two. -/
def size (f : Char → Nat) (es : List (Text × Text)) : Nat :=
  max 1 (es.map (entrySize f)).sum + 1

theorem length_write (s : Text) : (escaping.write s).length = (s.map written).sum := by
  induction s with
  | nil => rfl
  | cons c s ih =>
    cases hc : escaping.code c with
    | none =>
      have hw : written c = 1 := by rw [written, hc]; rfl
      rw [Escaping.write_none hc, List.length_cons, List.map_cons, List.sum_cons, hw, ih]
      omega
    | some e =>
      have hw : written c = 2 := by rw [written, hc]; rfl
      rw [Escaping.write_some hc, List.length_cons, List.length_cons, List.map_cons,
        List.sum_cons, hw, ih]
      omega

theorem length_entry (e : Text × Text) : (entry e).length + 1 = entrySize written e := by
  simp only [entry, Escaping.string, List.length_append, List.length_cons, List.length_nil,
    length_write, entrySize]
  omega

theorem length_entries (e : Text × Text) (es : List (Text × Text)) :
    ([','].intercalate ((e :: es).map entry)).length + 1
      = ((e :: es).map (entrySize written)).sum := by
  induction es generalizing e with
  | nil =>
    show (entry e ++ []).length + 1 = entrySize written e + 0
    rw [List.append_nil, length_entry, Nat.add_zero]
  | cons e' es ih =>
    have hrest := ih e'
    have hlen := length_entry e
    show (entry e ++ ',' :: [','].intercalate ((e' :: es).map entry)).length + 1
      = entrySize written e + ((e' :: es).map (entrySize written)).sum
    rw [List.length_append, List.length_cons]
    omega

theorem length_object (es : List (Text × Text)) : (object es).length = size written es := by
  cases es with
  | nil => rfl
  | cons e es =>
    have hlen := length_entries e es
    have hpos : 1 ≤ ((e :: es).map (entrySize written)).sum := by omega
    rw [object, size, Nat.max_eq_right hpos, List.length_cons, List.length_append,
      List.length_singleton]
    omega

theorem least_le_of_symbol {t : Text} {c : Char} (h : Symbol t c) : least c ≤ t.length := by
  have htwo : least c ≤ 2 := by rw [least]; split <;> omega
  cases h with
  | plain hc hquote hbackslash =>
    have hone : least c = 1 := by
      rw [least, if_neg]
      simp [hquote, hbackslash, hc]
    exact hone.le
  | letter => exact htwo
  | number => exact htwo.trans (by simp)
  | surrogates => exact htwo.trans (by simp)

theorem least_le_of_content {t s : Text} (h : Content t s) : (s.map least).sum ≤ t.length := by
  induction h with
  | nil => exact Nat.le_refl 0
  | cons hsymbol _ ih =>
    have hle := least_le_of_symbol hsymbol
    rw [List.map_cons, List.sum_cons, List.length_append]
    omega

/-- What a member takes at least, with its separator: nothing is known of a value that is not a
string. -/
def memberSize (m : Text × Option Text) : Nat :=
  match m.2 with
  | none => 1
  | some v => entrySize least (m.1, v)

theorem memberSize_le {t : Text} {m : Text × Option Text} (h : Member t m) :
    memberSize m ≤ t.length + 1 := by
  cases h with
  | mk _ hkey _ _ hvalue _ =>
    have hk := least_le_of_content hkey
    cases hvalue with
    | string hcontent =>
      have hv := least_le_of_content hcontent
      simp only [memberSize, entrySize, quoted, List.length_append, List.length_cons,
        List.length_nil]
      omega
    | _ => simp [memberSize]

theorem memberSizes_le {t : Text} {ms : List (Text × Option Text)} (h : Members t ms) :
    (ms.map memberSize).sum ≤ t.length + 1 := by
  induction ms generalizing t with
  | nil => exact Nat.zero_le _
  | cons m ms ih =>
    cases h with
    | one hm =>
      have hle := memberSize_le hm
      simpa using hle
    | cons hm hms =>
      have hle := memberSize_le hm
      have hrest := ih hms
      rw [List.map_cons, List.sum_cons, List.length_append, List.length_cons]
      omega

theorem memberSizes_le_of_object {t : Text} {ms : List (Text × Option Text)} (h : Object t ms) :
    max 1 (ms.map memberSize).sum + 1 ≤ t.length := by
  cases h with
  | empty => simp
  | members hms =>
    have hle := memberSizes_le hms
    rw [List.length_cons, List.length_append, List.length_singleton]
    omega

/-- **No text for the entries is shorter** than the sum of what their characters need: each of
them is a member of the text. -/
theorem size_le_of_reads {t : Text} {es : List (Text × Text)} (h : Reads t es)
    (hnodup : es.Nodup) : size least es ≤ t.length := by
  obtain ⟨ms, w, t', w', -, hobject, -, rfl, hlast⟩ := h
  have hsub : es.map (fun e => (e.1, some e.2)) ⊆ ms := by
    intro m hm
    obtain ⟨⟨k, v⟩, hmem, rfl⟩ := List.mem_map.mp hm
    exact mem_of_last ((hlast k (some v)).mpr ⟨v, rfl, hmem⟩)
  have hinj : Function.Injective fun e : Text × Text => (e.1, some e.2) := by
    rintro ⟨k, v⟩ ⟨k', v'⟩ heq
    simpa using heq
  obtain ⟨l, hperm, hsublist⟩ := ((List.nodup_map_iff hinj).mpr hnodup).subperm hsub
  have hsum : (es.map (entrySize least)).sum ≤ (ms.map memberSize).sum := by
    calc (es.map (entrySize least)).sum
        = ((es.map fun e => (e.1, some e.2)).map memberSize).sum := by rw [List.map_map]; rfl
      _ = (l.map memberSize).sum := ((hperm.map memberSize).sum_eq).symm
      _ ≤ (ms.map memberSize).sum := (hsublist.map memberSize).sum_le_sum fun _ _ => Nat.zero_le _
  have hle := memberSizes_le_of_object hobject
  rw [size, List.length_append, List.length_append]
  omega

theorem written_le_least (c : Char) : written c ≤ least c := by
  rw [written, least]
  split
  · rename_i hcode
    obtain ⟨e, he⟩ := Option.isSome_iff_exists.mp hcode
    have hspecial : c = '"' ∨ c = '\\' ∨ c = '\n' ∨ c = '\r' ∨ c = '\t' := by
      simp only [escaping] at he
      grind
    rcases hspecial with rfl | rfl | rfl | rfl | rfl <;> decide
  · split <;> omega

theorem written_lt_least {c : Char} (h : Unwritten c) : written c < least c := by
  have hw : written c = 1 := by rw [written, h.2]; rfl
  rw [hw, least, if_pos (.inl h.1)]
  omega

theorem entrySize_le (e : Text × Text) : entrySize written e ≤ entrySize least e := by
  have hk := List.sum_le_sum fun c (_ : c ∈ e.1) => written_le_least c
  have hv := List.sum_le_sum fun c (_ : c ∈ e.2) => written_le_least c
  rw [entrySize, entrySize]
  omega

theorem size_le (es : List (Text × Text)) : size written es ≤ size least es := by
  have hsum := List.sum_le_sum fun e (_ : e ∈ es) => entrySize_le e
  rw [size, size]
  omega

/-- **A control character that is written as it is** is written in fewer characters than any
text for the entries has. -/
theorem size_lt {es : List (Text × Text)} {e : Text × Text} (he : e ∈ es) {c : Char}
    (hc : c ∈ e.1 ∨ c ∈ e.2) (hun : Unwritten c) : size written es < size least es := by
  have hstrict : ∀ s : Text, c ∈ s → (s.map written).sum < (s.map least).sum := fun s hs =>
    List.sum_lt_sum _ _ (fun c _ => written_le_least c) ⟨c, hs, written_lt_least hun⟩
  have hlt : entrySize written e < entrySize least e := by
    have hk := List.sum_le_sum fun c (_ : c ∈ e.1) => written_le_least c
    have hv := List.sum_le_sum fun c (_ : c ∈ e.2) => written_le_least c
    rw [entrySize, entrySize]
    rcases hc with hc | hc
    · have hs := hstrict e.1 hc
      omega
    · have hs := hstrict e.2 hc
      omega
  have hsum : (es.map (entrySize written)).sum < (es.map (entrySize least)).sum :=
    List.sum_lt_sum _ _ (fun e _ => entrySize_le e) ⟨e, he, hlt⟩
  have hpos : entrySize written e ≤ (es.map (entrySize written)).sum :=
    List.single_le_sum (fun _ _ => Nat.zero_le _) _ (List.mem_map.mpr ⟨e, he, rfl⟩)
  have hsix : 6 ≤ entrySize written e := Nat.le_add_left _ _
  rw [size, size]
  omega

end CppLaravel.Lib.Json
