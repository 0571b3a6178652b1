import CppLaravel.Session.Middleware

/-!
# `CppLaravel.Proofs.Http.Form`: forms are read back

`Renders m body` says that the body is an `application/x-www-form-urlencoded` text of the map: its
pairs in some order, and every byte of a key or value literal, as `%XX`, or a space as `+`.

* `urlDecode_of_encodes`: decoding a key or a value gives it back, whatever the choices were.
* `pairsLoop_eq`: the loop over the positions takes the pieces between the separators one by one.
* `parseForm_of_renders`: the parser returns the map.
-/

set_option autoImplicit false

namespace CppLaravel.Http

open CppLaravel.Lib CppLaravel.Session

/-! ### Renderings -/

/-- A byte that may stand for itself: a letter, a digit, or one of `-._~*`. -/
def isUnreserved (c : UInt8) : Bool :=
  (48 ≤ c ∧ c ≤ 57) ∨ (65 ≤ c ∧ c ≤ 90) ∨ (97 ≤ c ∧ c ≤ 122) ∨ c ∈ bytes "-._~*"

/-- The byte is the hexadecimal digit of the number, in upper or in lower case. -/
def IsHexDigit (n : Nat) (c : UInt8) : Prop :=
  (bytes "0123456789ABCDEF")[n]? = some c ∨ (bytes "0123456789abcdef")[n]? = some c

/-- The ways to write a byte of a key or a value. -/
inductive EncodesByte : UInt8 → Bytes → Prop
  | literal {c : UInt8} : isUnreserved c = true → EncodesByte c [c]
  | percent {c h l : UInt8} : IsHexDigit (c.toNat / 16) h → IsHexDigit (c.toNat % 16) l →
      EncodesByte c [37, h, l]
  | plus : EncodesByte 32 [43]

/-- A key or a value, byte by byte. -/
inductive Encodes : Bytes → Bytes → Prop
  | nil : Encodes [] []
  | cons {c : UInt8} {s t u : Bytes} : EncodesByte c t → Encodes s u → Encodes (c :: s) (t ++ u)

/-- A pair. -/
def EncodesPair (kv : Bytes × Bytes) (text : Bytes) : Prop :=
  ∃ k v, Encodes kv.1 k ∧ Encodes kv.2 v ∧ text = k ++ 61 :: v

/-- A map: its pairs in some order. -/
def Renders (m : StringMap) (body : Bytes) : Prop :=
  ∃ entries texts, Visits entries m ∧ List.Forall₂ EncodesPair entries texts ∧
    body = List.intercalate [38] texts

/-! ### Keys and values -/

theorem hexValue_of_isHexDigit {n : Nat} {c : UInt8} (h : IsHexDigit n c) :
    n < 16 ∧ hexValue c = some (UInt8.ofNat n) := by
  have hupper : ∀ n : Fin 16,
      (bytes "0123456789ABCDEF")[n.val]?.bind hexValue = some (UInt8.ofNat n.val) := by
    decide
  have hlower : ∀ n : Fin 16,
      (bytes "0123456789abcdef")[n.val]?.bind hexValue = some (UInt8.ofNat n.val) := by
    decide
  have hn : n < 16 := by
    rcases h with h | h
    · exact (List.getElem?_eq_some_iff.mp h).1
    · exact (List.getElem?_eq_some_iff.mp h).1
  refine ⟨hn, ?_⟩
  rcases h with h | h
  · have hvalue := hupper ⟨n, hn⟩
    rwa [h] at hvalue
  · have hvalue := hlower ⟨n, hn⟩
    rwa [h] at hvalue

/-- The two digits of a byte. -/
theorem shift_or_digits : ∀ c : UInt8,
    (UInt8.ofNat (c.toNat / 16) <<< 4) ||| UInt8.ofNat (c.toNat % 16) = c :=
  byte_of_fin (by decide +kernel)

/-- A byte of a rendering is none of the three that the parser looks for. -/
theorem EncodesByte.plain {c : UInt8} {t : Bytes} (h : EncodesByte c t) :
    ∀ x ∈ t, x ≠ 38 ∧ x ≠ 61 ∧ x ≠ 32 := by
  have hdigit : ∀ x, (hexValue x).isSome = true → x ≠ 38 ∧ x ≠ 61 ∧ x ≠ 32 := by
    intro x h
    refine ⟨?_, ?_, ?_⟩ <;> rintro rfl <;> exact absurd h (by decide)
  have hunreserved : ∀ x, isUnreserved x = true → x ≠ 38 ∧ x ≠ 61 ∧ x ≠ 32 := by
    intro x h
    refine ⟨?_, ?_, ?_⟩ <;> rintro rfl <;> exact absurd h (by decide)
  intro x hx
  cases h with
  | literal hc =>
    rw [List.mem_singleton.mp hx]
    exact hunreserved c hc
  | plus =>
    rw [List.mem_singleton.mp hx]
    decide
  | percent hh hl =>
    rw [List.mem_cons, List.mem_cons, List.mem_singleton] at hx
    rcases hx with rfl | rfl | rfl
    · decide
    · exact hdigit _ (by rw [(hexValue_of_isHexDigit hh).2]; rfl)
    · exact hdigit _ (by rw [(hexValue_of_isHexDigit hl).2]; rfl)

theorem Encodes.plain {s t : Bytes} (h : Encodes s t) : ∀ x ∈ t, x ≠ 38 ∧ x ≠ 61 ∧ x ≠ 32 := by
  induction h with
  | nil =>
    intro x hx
    cases hx
  | cons hc _ ih =>
    intro x hx
    rcases List.mem_append.mp hx with hx | hx
    · exact hc.plain x hx
    · exact ih x hx

/-- The decoder takes one byte off the text. -/
theorem urlDecode_of_encodesByte {c : UInt8} {t : Bytes} (h : EncodesByte c t) (rest : Bytes) :
    urlDecode true (t ++ rest) = c :: urlDecode true rest := by
  cases h with
  | literal hc =>
    have hplain : ∀ x, isUnreserved x = true → x ≠ 43 ∧ x ≠ 37 := by
      intro x h
      constructor <;> rintro rfl <;> exact absurd h (by decide)
    obtain ⟨hplus, hpercent⟩ := hplain c hc
    rw [List.singleton_append, urlDecode.eq_def]
    dsimp only
    rw [if_neg (fun h => hplus h.1), if_neg hpercent]
  | plus =>
    rw [List.singleton_append, urlDecode.eq_def]
    rfl
  | percent hh hl =>
    have hhi := (hexValue_of_isHexDigit hh).2
    have hlo := (hexValue_of_isHexDigit hl).2
    show urlDecode true (37 :: _ :: _ :: rest) = _
    rw [urlDecode, if_neg (by decide), if_pos rfl]
    simp only [hhi, hlo, shift_or_digits]

/-- **Decoding gives the key or the value back.** -/
theorem urlDecode_of_encodes {s t : Bytes} (h : Encodes s t) : urlDecode true t = s := by
  induction h with
  | nil => rfl
  | cons hc _ ih => rw [urlDecode_of_encodesByte hc, ih]

/-! ### Pairs -/

/-- There is nothing to trim. -/
theorem trimSpaces_of_plain {s : Bytes} (h : ∀ x ∈ s, x ≠ 32) : trimSpaces s = s := by
  have hdrop : s.dropWhile (· = 32) = s := by
    cases s with
    | nil => rfl
    | cons x s => rw [List.dropWhile_cons_of_neg (by simpa using h x List.mem_cons_self)]
  rw [trimSpaces, hdrop, List.rdropWhile_eq_self_iff]
  intro hne
  simpa using h _ (List.getLast_mem hne)

/-- A pair is stored, decoded. -/
theorem addPair_of_encodesPair {kv : Bytes × Bytes} {text : Bytes} (h : EncodesPair kv text)
    (out : StringMap) : addPair true out text = out.insert kv.1 kv.2 := by
  obtain ⟨k, v, hk, hv, rfl⟩ := h
  have heq : find (k ++ 61 :: v) [61] 0 = some k.length := by
    rw [find_zero]
    exact firstAt_single (fun hmem => (hk.plain 61 hmem).2.1 rfl) v
  have hkey : substr (k ++ 61 :: v) 0 k.length = k := by
    rw [substr, List.drop_zero]
    exact List.take_left
  have hvalue : (k ++ 61 :: v).drop (k.length + 1) = v := by
    rw [← List.drop_drop, List.drop_left]
    rfl
  unfold addPair
  simp only [heq, hkey, hvalue, trimSpaces_of_plain fun x hx => (hk.plain x hx).2.2,
    trimSpaces_of_plain fun x hx => (hv.plain x hx).2.2, if_true, urlDecode_of_encodes hk,
    urlDecode_of_encodes hv]

theorem EncodesPair.piece {kv : Bytes × Bytes} {text : Bytes} (h : EncodesPair kv text) :
    text ≠ [] ∧ 38 ∉ text := by
  obtain ⟨k, v, hk, hv, rfl⟩ := h
  refine ⟨by simp, fun hmem => ?_⟩
  rcases List.mem_append.mp hmem with hmem | hmem
  · exact (hk.plain 38 hmem).1 rfl
  · rcases List.mem_cons.mp hmem with heq | hmem
    · cases heq
    · exact (hv.plain 38 hmem).1 rfl

/-- **The loop over the positions** takes the pieces one by one. -/
theorem pairsLoop_eq (s : Bytes) (decode : Bool) {texts : List Bytes}
    (h : ∀ t ∈ texts, t ≠ [] ∧ 38 ∉ t) (i : Nat) (out : StringMap)
    (hi : s.drop i = List.intercalate [38] texts) :
    pairsLoop s 38 decode i out = texts.foldl (addPair decode) out := by
  -- On the pieces that are left; the loop stands at the first of them.
  induction texts generalizing i out with
  | nil =>
    have hend : s.length ≤ i := List.drop_eq_nil_iff.mp hi
    rw [pairsLoop, if_neg (by omega)]
    rfl
  | cons t ts ih =>
    obtain ⟨hne, hsep⟩ := h t List.mem_cons_self
    have hpos := List.length_pos_iff.mpr hne
    cases ts with
    | nil =>
      have hi : s.drop i = t := by simpa [List.intercalate] using hi
      have hlt : i < s.length := by
        rw [← hi, List.length_drop] at hpos
        omega
      have hnone : find s [38] i = none := by
        rw [find_eq (by omega), hi, ← List.append_nil t, firstAt_append_of_not_mem hsep]
        rfl
      rw [pairsLoop, if_pos hlt]
      split
      · rw [hi]
        rfl
      · rename_i next hnext
        rw [hnone] at hnext
        cases hnext
    | cons u us =>
      have hi : s.drop i = t ++ 38 :: List.intercalate [38] (u :: us) := by
        rw [hi, List.intercalate_cons_cons]
        simp
      have hlen := congrArg List.length hi
      rw [List.length_drop, List.length_append, List.length_cons] at hlen
      have hsome : find s [38] i = some (i + t.length) := by
        rw [find_eq (by omega), hi, firstAt_single hsep]
        rfl
      have hpiece : substr s i (i + t.length - i) = t := by
        rw [substr, Nat.add_sub_cancel_left, hi]
        exact List.take_left
      have hrest : s.drop (i + t.length + 1) = List.intercalate [38] (u :: us) := by
        rw [Nat.add_assoc, ← List.drop_drop, hi, ← List.drop_drop, List.drop_left]
        rfl
      rw [pairsLoop, if_pos (by omega)]
      split
      · rename_i hnext
        rw [hsome] at hnext
        cases hnext
      · rename_i next hnext
        rw [hsome] at hnext
        obtain rfl := Option.some.inj hnext
        rw [hpiece, List.foldl_cons]
        exact ih (fun t ht => h t (List.mem_cons_of_mem _ ht)) _ _ hrest

theorem pieces_of_encodesPair {entries : List (Bytes × Bytes)} {texts : List Bytes}
    (h : List.Forall₂ EncodesPair entries texts) : ∀ t ∈ texts, t ≠ [] ∧ 38 ∉ t := by
  induction h with
  | nil =>
    intro t ht
    cases ht
  | cons hpair _ ih =>
    intro t ht
    rcases List.mem_cons.mp ht with rfl | ht
    · exact hpair.piece
    · exact ih t ht

/-- The pairs of a rendering are stored one after the other. -/
theorem foldl_addPair {entries : List (Bytes × Bytes)} {texts : List Bytes}
    (h : List.Forall₂ EncodesPair entries texts) (out : StringMap) :
    texts.foldl (addPair true) out = insertAll out entries := by
  induction h generalizing out with
  | nil => rfl
  | cons hpair _ ih => rw [List.foldl_cons, addPair_of_encodesPair hpair, ih, insertAll_cons]

/-- **A form is read back**, however it is rendered. -/
theorem parseForm_of_renders {m : StringMap} {body : Bytes} (h : Renders m body) :
    parseForm body = m := by
  obtain ⟨entries, texts, hvisits, htexts, rfl⟩ := h
  have hloop := pairsLoop_eq (List.intercalate [38] texts) true (pieces_of_encodesPair htexts) 0 ∅
    List.drop_zero
  rw [parseForm, parsePairs, hloop, foldl_addPair htexts, hvisits.insertAll_eq]

/-- A key with a space, and a value with a separator. -/
theorem parseForm_of_renders_applies :
    parseForm (bytes "a+b=%26%3d") = Finmap.singleton (bytes "a b") (bytes "&=") := by
  refine parseForm_of_renders ⟨[(bytes "a b", bytes "&=")], [bytes "a+b=%26%3d"],
    visits_singleton _ _, .cons ⟨bytes "a+b", bytes "%26%3d", ?_, ?_, rfl⟩ .nil, rfl⟩
  · exact .cons (.literal (by decide)) (.cons .plus (.cons (.literal (by decide)) .nil))
  · exact .cons (t := [37, 50, 54]) (.percent (.inl (by decide)) (.inl (by decide)))
      (.cons (t := [37, 51, 100]) (.percent (.inl (by decide)) (.inr (by decide))) .nil)

end CppLaravel.Http
