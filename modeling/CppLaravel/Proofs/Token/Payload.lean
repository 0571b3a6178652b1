import CppLaravel.Lib.Escaped
import CppLaravel.Token.Payload

/-!
# `CppLaravel.Proofs.Token.Payload`: what the extractors find in a payload

The payload is a sequence of JSON strings with other bytes between them. A search for a
quoted key stops at the first string that ends the way the key looks: `Imitates key s` says
that the string `s`, as it is written, does so. The strings are those of `jsonEscaping`.

* `seek_jsonString`: the search for a key passes a string that does not imitate it and stops
  at the end of one that does.
* `seek_jsonTail`: the same for a list of strings.
* `extractInt_of_seek`, `extractString_of_seek`: the extractors as searches for a rest of
  the text, without positions.
* `scanString_jsonEscape`: a string is read back whatever bytes it holds.
* `readInt_jsonEscape`, `readInt_intToString`: a number is read up to the first byte that is
  not part of it.
-/

set_option autoImplicit false

namespace CppLaravel.Token

open CppLaravel.Lib

/-! ### Strings that look like a key -/

/-- The text of the string `s` ends with the quoted key: it is the key, or ends with a quote
and the key. -/
def Imitates (key s : Bytes) : Prop := quote :: key <:+ quote :: s

instance (key s : Bytes) : Decidable (Imitates key s) :=
  inferInstanceAs (Decidable (_ <:+ _))

/-- A key without bytes that are escaped. -/
def PlainKey (key : Bytes) : Prop := quote ∉ key ∧ backslash ∉ key

instance (key : Bytes) : Decidable (PlainKey key) := inferInstanceAs (Decidable (_ ∧ _))

/-- How the strings of the payload are escaped. -/
def jsonEscaping : Escaping UInt8 where
  quote := quote
  backslash := backslash
  code c := if c = quote ∨ c = backslash then some c else none
  quote_ne := by decide
  code_quote := by decide
  code_backslash := by decide
  inj := by
    intro c d e hc hd
    rw [Option.ite_none_right_eq_some, Option.some.injEq] at hc hd
    rw [hc.2, hd.2]

theorem jsonEscape_eq (s : Bytes) : jsonEscape s = jsonEscaping.write s := by
  induction s with
  | nil => rfl
  | cons c s ih =>
    rw [jsonEscape, Escaping.write, ← ih]
    by_cases hc : c = quote ∨ c = backslash
    · have hcode : jsonEscaping.code c = some c := if_pos hc
      rw [if_pos hc, hcode]
      rfl
    · have hcode : jsonEscaping.code c = none := if_neg hc
      rw [if_neg hc, hcode]

theorem jsonString_eq (s : Bytes) : jsonString s = jsonEscaping.string s := by
  rw [jsonString, jsonEscape_eq]
  rfl

theorem plain_iff {s : Bytes} : jsonEscaping.Plain s ↔ PlainKey s := by
  have hcode : ∀ c, jsonEscaping.code c = none ↔ c ≠ quote ∧ c ≠ backslash := by
    intro c
    show (if c = quote ∨ c = backslash then some c else none) = none ↔ _
    simp
  rw [PlainKey, Escaping.Plain]
  simp only [hcode]
  exact ⟨fun h => ⟨fun hq => (h _ hq).1 rfl, fun hb => (h _ hb).2 rfl⟩,
    fun h c hc => ⟨fun he => h.1 (he ▸ hc), fun he => h.2 (he ▸ hc)⟩⟩

/-- An escaped byte is two bytes. -/
theorem jsonEscape_special {c : UInt8} (h : c = quote ∨ c = backslash) (s : Bytes) :
    jsonEscape (c :: s) = backslash :: c :: jsonEscape s :=
  if_pos h

theorem jsonEscape_append (s t : Bytes) : jsonEscape (s ++ t) = jsonEscape s ++ jsonEscape t := by
  rw [jsonEscape_eq, jsonEscape_eq, jsonEscape_eq, Escaping.write_append]

/-- Bytes other than quotes and backslashes are written as they are. -/
theorem jsonEscape_of_plain {s : Bytes} (h : PlainKey s) : jsonEscape s = s := by
  rw [jsonEscape_eq, Escaping.write_of_plain (plain_iff.mpr h)]

/-- A byte other than a backslash is in the text of a string exactly if it is in the
string. -/
theorem mem_jsonEscape {b : UInt8} (hb : b ≠ backslash) {s : Bytes} :
    b ∈ jsonEscape s ↔ b ∈ s := by
  have hcode : ∀ c e, jsonEscaping.code c = some e → c = e := fun c e hc =>
    Option.some.inj (Option.ite_none_right_eq_some.mp hc).2
  rw [jsonEscape_eq, Escaping.mem_write hb (fun c => hcode c b) fun e he => (hcode b e he).symm]

/-- A string of the payload and what follows it. -/
theorem jsonString_append (s rest : Bytes) :
    jsonString s ++ rest = quote :: (jsonEscape s ++ quote :: rest) := by
  simp [jsonString]

/-- The search for a key passes every byte but a quote. -/
theorem seek_quoted_cons {key : Bytes} {x : UInt8} (h : quote ≠ x) (t : Bytes) :
    seek (quoted key) (x :: t) = seek (quoted key) t :=
  seek_cons_of_ne h (key ++ [quote]) t

/-- A text that starts with another byte is not the rest of a key. -/
theorem not_key_prefix (key : Bytes) (x : UInt8) (h : (key ++ [quote]).head? ≠ some x)
    (t : Bytes) : ¬ key ++ [quote] <+: x :: t :=
  Escaping.not_key_prefix (E := jsonEscaping) key x h t

/-- The search for a key at a string: it stops at the string's end if the string imitates
the key, and passes the string otherwise. -/
theorem seek_jsonString {key : Bytes} (hkey : PlainKey key) (s : Bytes) {rest : Bytes}
    (hrest : ¬ key ++ [quote] <+: rest) :
    seek (quoted key) (jsonString s ++ rest) =
      if Imitates key s then some (quoted key ++ rest) else seek (quoted key) rest := by
  rw [jsonString_eq]
  exact Escaping.seek_string (plain_iff.mpr hkey) s hrest

/-! ### The list of abilities -/

/-- The elements of the array behind the first one, or all of them with a comma in front. -/
def jsonTail (as : List Bytes) : Bytes := as.flatMap fun b => comma :: jsonString b

theorem jsonTail_cons (a : Bytes) (as : List Bytes) :
    jsonTail (a :: as) = comma :: (jsonString a ++ jsonTail as) := rfl

/-- The search for a key over a list of strings: it stops at the first one that imitates the
key. -/
theorem seek_jsonTail (key : Bytes) (hkey : PlainKey key)
    (hcomma : (key ++ [quote]).head? ≠ some comma)
    (hbracket : (key ++ [quote]).head? ≠ some rbracket) (as : List Bytes) (rest : Bytes) :
    seek (quoted key) (jsonTail as ++ rbracket :: rest) =
      match as.dropWhile fun a => ¬ Imitates key a with
      | [] => seek (quoted key) rest
      | _ :: later => some (quoted key ++ (jsonTail later ++ rbracket :: rest)) := by
  induction as with
  | nil => exact seek_quoted_cons (by decide) _
  | cons a as ih =>
    have htext : jsonTail (a :: as) ++ rbracket :: rest
        = comma :: (jsonString a ++ (jsonTail as ++ rbracket :: rest)) := by
      rw [jsonTail_cons, List.cons_append, List.append_assoc]
    -- Behind a string stands a comma or the closing bracket, not the rest of a key.
    have hrest : ¬ key ++ [quote] <+: jsonTail as ++ rbracket :: rest := by
      cases as with
      | nil => exact not_key_prefix key rbracket hbracket rest
      | cons b bs => exact not_key_prefix key comma hcomma _
    rw [htext, seek_quoted_cons (by decide), seek_jsonString hkey a hrest, List.dropWhile_cons]
    by_cases ha : Imitates key a
    · simp [ha]
    · simp [ha, ih]

/-- The first element has no comma in front, which no search for a key minds. -/
theorem seek_jsonElements {key : Bytes} (as : List Bytes) (rest : Bytes) :
    seek (quoted key) (jsonElements as ++ rest) = seek (quoted key) (jsonTail as ++ rest) := by
  cases as with
  | nil => rfl
  | cons a as => exact (seek_quoted_cons (by decide) _).symm

/-- What stands behind the first colon of a string. -/
def afterColon (a : Bytes) : Bytes := (a.dropWhile (· ≠ colon)).tail

/-- The search for a colon over a list of strings without one. -/
theorem seek_colon_of_find?_none {as : List Bytes} (h : as.find? (colon ∈ ·) = none)
    (rest : Bytes) : seek [colon] (jsonTail as ++ rest) = seek [colon] rest := by
  refine seek_append_of_not_mem ?_ rest
  intro hmem
  obtain ⟨a, ha, hmem⟩ := List.mem_flatMap.mp hmem
  have hnot := List.find?_eq_none.mp h a ha
  have hcomma : colon ≠ comma := by decide
  have hquote : colon ≠ quote := by decide
  simp only [jsonString, List.mem_cons, List.mem_append, List.not_mem_nil, or_false,
    mem_jsonEscape (b := colon) (by decide), hcomma, hquote, false_or] at hmem
  simp [hmem] at hnot

/-- The first colon of a string, and the text behind it. -/
theorem eq_append_afterColon {a : Bytes} (h : colon ∈ a) :
    ∃ u, colon ∉ u ∧ a = u ++ colon :: afterColon a := by
  obtain ⟨u, v, rfl, hu⟩ := List.eq_append_cons_of_mem h
  have hall : ∀ x ∈ u, decide (x ≠ colon) = true := by
    intro x hx
    refine decide_eq_true ?_
    rintro rfl
    exact hu hx
  have hdrop : (u ++ colon :: v).dropWhile (· ≠ colon) = colon :: v := by
    rw [List.dropWhile_append_of_pos hall]
    exact List.dropWhile_cons_of_neg (by simp)
  refine ⟨u, hu, ?_⟩
  rw [afterColon, hdrop]
  rfl

/-- The search for a colon over a list of strings stops in the first string with a colon. -/
theorem seek_colon_of_find?_some {as : List Bytes} {a : Bytes}
    (h : as.find? (colon ∈ ·) = some a) (rest : Bytes) :
    ∃ more, seek [colon] (jsonTail as ++ rest)
      = some (colon :: (jsonEscape (afterColon a) ++ quote :: more)) := by
  obtain ⟨ha, before, after, rfl, hbefore⟩ := List.find?_eq_some_iff_append.mp h
  have hnone : before.find? (colon ∈ ·) = none :=
    List.find?_eq_none.mpr fun b hb => by simpa using hbefore b hb
  obtain ⟨u, hu, hsplit⟩ := eq_append_afterColon (of_decide_eq_true ha)
  -- The strings before have no colon, nor has this one up to `u`.
  have htext : jsonTail (before ++ a :: after) ++ rest
      = jsonTail before ++ ((comma :: quote :: jsonEscape u) ++
        colon :: (jsonEscape (afterColon a) ++ quote :: (jsonTail after ++ rest))) := by
    have hcolon : jsonEscape (colon :: afterColon a) = colon :: jsonEscape (afterColon a) := rfl
    have hstring : jsonString a
        = quote :: jsonEscape u ++ colon :: (jsonEscape (afterColon a) ++ [quote]) := by
      rw [jsonString]
      nth_rewrite 1 [hsplit]
      rw [jsonEscape_append, hcolon]
      simp
    rw [jsonTail, List.flatMap_append, ← jsonTail, ← jsonTail, jsonTail_cons, hstring]
    simp
  have hnot : colon ∉ comma :: quote :: jsonEscape u := by
    simp only [List.mem_cons, mem_jsonEscape (b := colon) (by decide), not_or]
    exact ⟨by decide, by decide, hu⟩
  refine ⟨jsonTail after ++ rest, ?_⟩
  rw [htext, seek_colon_of_find?_none hnone, seek_single hnot]

/-! ### Reading a string -/

theorem scanString_eq (t : Bytes) : scanString t = scan quote backslash id t := by
  fun_induction scanString t with
  | case1 => rfl
  | case2 => rfl
  | case3 c h => rw [scan, if_neg h]
  | case4 d t r ih => rw [scan, if_pos rfl, ← ih]; rfl
  | case5 => rfl
  | case6 c d t hb hq r ih => rw [scan, if_neg hb, if_neg hq, ← ih]

/-- A string is read back, and the reader stops at its closing quote. -/
theorem scanString_jsonEscape (s rest : Bytes) :
    scanString (jsonEscape s ++ quote :: rest) = (s, quote :: rest) := by
  have hback : s.map (jsonEscaping.readBack id) = s := by
    have hself : jsonEscaping.readBack id = id := by
      funext c
      rw [Escaping.readBack]
      show (if c = quote ∨ c = backslash then some c else none).elim c id = c
      split <;> rfl
    rw [hself, List.map_id]
  have hscan : scan quote backslash id (jsonEscaping.write s ++ quote :: rest) =
    (s.map (jsonEscaping.readBack id), quote :: rest) :=
    Escaping.scan_write (E := jsonEscaping) s rest
  rw [scanString_eq, jsonEscape_eq, hscan, hback]

/-! ### Reading a number -/

/-- The bytes a number can have, with the blanks before it. -/
def isNumberByte (c : UInt8) : Bool := c = 32 || c = 45 || c = 43 || isDigit c

/-- A number ends before any byte that it cannot have. -/
theorem numberText_append {c : UInt8} (hc : isNumberByte c = false) (s rest : Bytes) :
    numberText (s ++ c :: rest) = numberText s := by
  simp only [isNumberByte, Bool.or_eq_false_iff, decide_eq_false_iff_not] at hc
  obtain ⟨⟨⟨hblank, hminus⟩, hplus⟩, hdigit⟩ := hc
  have hdigits : ∀ t : Bytes, (t ++ c :: rest).takeWhile isDigit = t.takeWhile isDigit := by
    intro t
    induction t with
    | nil => simp [hdigit]
    | cons d t ih => simp [List.takeWhile_cons, ih]
  -- The blanks, the sign and the digits all stop at `c`.
  have hblanks : (s ++ c :: rest).dropWhile (· = 32) = s.dropWhile (· = 32) ++ c :: rest := by
    induction s with
    | nil => simp [hblank]
    | cons d s ih =>
      rw [List.cons_append, List.dropWhile_cons, List.dropWhile_cons]
      split
      · exact ih
      · rfl
  unfold numberText
  rw [hblanks]
  cases s.dropWhile (· = 32) with
  | nil => simp [hminus, hplus, hdigit]
  | cons d t =>
    have hcons := hdigits (d :: t)
    simp only [List.cons_append] at hcons ⊢
    rw [hdigits t, hcons]

theorem readInt_append {c : UInt8} (hc : isNumberByte c = false) (s rest : Bytes) :
    readInt (s ++ c :: rest) = readInt s := by
  rw [readInt, readInt, numberText_append hc]

/-- A string up to its first byte that is escaped. -/
theorem plain_or_split (s : Bytes) : PlainKey s ∨
    ∃ u c v, s = u ++ c :: v ∧ PlainKey u ∧ (c = quote ∨ c = backslash) := by
  induction s with
  | nil => exact .inl (by decide)
  | cons c s ih =>
    by_cases hc : c = quote ∨ c = backslash
    · exact .inr ⟨[], c, s, rfl, by decide, hc⟩
    · rw [not_or] at hc
      rcases ih with ⟨hq, hb⟩ | ⟨u, d, v, rfl, ⟨hq, hb⟩, hd⟩
      · exact .inl ⟨by simp [Ne.symm hc.1, hq], by simp [Ne.symm hc.2, hb]⟩
      · exact .inr ⟨c :: u, d, v, rfl,
          ⟨by simp [Ne.symm hc.1, hq], by simp [Ne.symm hc.2, hb]⟩, hd⟩

/-- A number inside a string is read as if it stood outside: it ends before the first byte
that is escaped. -/
theorem readInt_jsonEscape (s more : Bytes) :
    readInt (jsonEscape s ++ quote :: more) = readInt s := by
  rw [readInt_append (by decide)]
  rcases plain_or_split s with hplain | ⟨u, c, v, rfl, hplain, hc⟩
  · rw [jsonEscape_of_plain hplain]
  · have hnumber : isNumberByte c = false := by
      rcases hc with rfl | rfl
      · decide
      · decide
    rw [jsonEscape_append, jsonEscape_of_plain hplain, jsonEscape_special hc,
      readInt_append (by decide), readInt_append hnumber]

/-- The text of an integer is collected whole. -/
theorem numberText_intToString (v : Int) : numberText (intToString v) = intToString v := by
  cases v with
  | ofNat n =>
    -- The first character is a digit, so there is no blank and no sign to skip.
    obtain ⟨c, s, hcs⟩ := List.exists_cons_of_ne_nil (natToString_ne_nil n)
    have hdigits : ∀ d ∈ c :: s, isDigit d = true := fun d hd =>
      isDigit_of_mem_natToString (n := n) (hcs ▸ hd)
    have hc : isDigit c = true := hdigits c (List.mem_cons_self ..)
    have hblank : c ≠ 32 := by
      rintro rfl
      exact absurd hc (by decide)
    have hsign : ¬ (c = 45 ∨ c = 43) := by
      rintro (rfl | rfl)
      · exact absurd hc (by decide)
      · exact absurd hc (by decide)
    show numberText (natToString n) = natToString n
    rw [hcs, numberText, List.dropWhile_cons_of_neg (by simpa using hblank)]
    show (if c = 45 ∨ c = 43 then _ else _) = _
    rw [if_neg hsign, List.takeWhile_eq_self_iff.mpr hdigits]
  | negSucc n =>
    show 45 :: (natToString (n + 1)).takeWhile isDigit = 45 :: natToString (n + 1)
    rw [takeWhile_natToString]

/-- A number of the payload is read back, whatever follows it. -/
theorem readInt_intToString (v : Int64) {c : UInt8} (hc : isNumberByte c = false)
    (rest : Bytes) : readInt (intToString v.toInt ++ c :: rest) = v := by
  have hne : intToString v.toInt ≠ [] := by
    cases v.toInt with
    | ofNat n => exact natToString_ne_nil n
    | negSucc n => exact List.cons_ne_nil _ _
  rw [readInt_append hc, readInt, numberText_intToString]
  show (if intToString v.toInt = [] then 0 else _) = _
  rw [if_neg hne, stoll_intToString]
  rfl

/-! ### The extractors without positions -/

/-- `extract_int` reads behind the first colon after the first occurrence of the key. -/
theorem extractInt_of_seek {j key s t : Bytes} (hs : seek (quoted key) j = some s)
    (ht : seek [colon] s = some (colon :: t)) : extractInt j key = readInt t := by
  obtain ⟨k, hk, rfl, hkj⟩ := find_of_seek (i := 0) (Nat.zero_le j.length) hs
  obtain ⟨c, hc, hct, -⟩ := find_of_seek hkj ht
  simp only [extractInt, hk, hc, drop_succ_of_drop hct]

/-- `extract_string` reads behind the first quote after that colon. -/
theorem extractString_of_seek {j key s t u : Bytes} (hs : seek (quoted key) j = some s)
    (ht : seek [colon] s = some (colon :: t)) (hu : seek [quote] t = some (quote :: u)) :
    extractString j key = (scanString u).1 := by
  obtain ⟨k, hk, rfl, hkj⟩ := find_of_seek (i := 0) (Nat.zero_le j.length) hs
  obtain ⟨c, hc, hct, hcj⟩ := find_of_seek hkj ht
  have hlt : c < j.length := by
    by_contra hge
    rw [List.drop_eq_nil_of_le (by omega)] at hct
    cases hct
  have htail : j.drop (c + 1) = t := drop_succ_of_drop hct
  obtain ⟨q1, hq1, hq1u, -⟩ := find_of_seek (s := j) hlt (htail ▸ hu)
  simp only [extractString, hk, hc, hq1, drop_succ_of_drop hq1u]

/-! ### The payload as a sequence of strings -/

/-- The payload behind the array of abilities. -/
def timesText (c : Claims) : Bytes :=
  comma :: (jsonString (bytes "iat") ++ colon :: (intToString c.iat.toInt ++
    comma :: (jsonString (bytes "exp") ++ colon :: (intToString c.exp.toInt ++ [125]))))

/-- The payload with its keys as the strings they are. -/
theorem claimsJson_eq (c : Claims) : claimsJson c =
    123 :: (jsonString (bytes "sub") ++ colon :: (jsonString c.sub ++
      comma :: (jsonString (bytes "abilities") ++ colon :: lbracket :: (jsonElements c.abilities ++
        rbracket :: timesText c)))) := by
  have hsub : bytes "\x7b\"sub\":" = 123 :: (jsonString (bytes "sub") ++ [colon]) := by decide
  have habilities : bytes ",\"abilities\":["
      = comma :: (jsonString (bytes "abilities") ++ [colon, lbracket]) := by decide
  have hiat : bytes "],\"iat\":"
      = rbracket :: comma :: (jsonString (bytes "iat") ++ [colon]) := by decide
  have hexp : bytes ",\"exp\":" = comma :: (jsonString (bytes "exp") ++ [colon]) := by decide
  have hclose : bytes "\x7d" = [125] := by decide
  rw [claimsJson, timesText, hsub, habilities, hiat, hexp, hclose]
  simp only [List.append_assoc, List.cons_append, List.nil_append]

end CppLaravel.Token
