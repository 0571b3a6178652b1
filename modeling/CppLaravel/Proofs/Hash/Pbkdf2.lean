import CppLaravel.Hash.Pbkdf2
import CppLaravel.Lib.Components

/-!
# `CppLaravel.Proofs.Hash.Pbkdf2`: which stored hashes can be checked

`answers_iff` says for which stored texts `check` returns: all but those that get as far as `unhex`
with two characters that `std::stoi` does not read (`HexPairs`). `unhex_hex` is the round trip
behind the other half of the law, that a password checks against its own hash.
-/

set_option autoImplicit false

namespace CppLaravel.Pbkdf2

open CppLaravel.Lib CppLaravel.Http

/-! ### Two characters -/

/-- A digit is no blank and no sign. -/
theorem not_blank_of_isHexDigit :
    ∀ c : UInt8, isHexDigit c = true → isSpace c = false ∧ c ≠ 45 ∧ c ≠ 43 := by
  intro c h
  unfold isHexDigit hexValue at h
  unfold isSpace
  grind

theorem hexValue_lt : ∀ c : UInt8, ((hexValue c).getD 0).toNat < 16 :=
  byte_of_fin (by decide +kernel)

/-- Two digits write a small number. -/
theorem hexDigitsValue_lt {ds : Bytes} (h : ds.length ≤ 2) : hexDigitsValue ds < 256 := by
  match ds with
  | [] => decide
  | [c] =>
    have hc := hexValue_lt c
    show 16 * 0 + _ < 256
    omega
  | [c, d] =>
    have hc := hexValue_lt c
    have hd := hexValue_lt d
    show 16 * (16 * 0 + _) + _ < 256
    omega

/-- Two characters are too few for a prefix and a digit. -/
theorem skipHexPrefix_of_short {s : Bytes} (h : s.length ≤ 2) : skipHexPrefix s = s := by
  unfold skipHexPrefix
  split
  · simp only [List.length_cons] at h
    omega
  · rfl

/-- A short text is read if it begins with a digit. -/
theorem readHex_cons (negative : Bool) (c : UInt8) {t : Bytes} (h : t.length ≤ 1) :
    (readHex negative (c :: t)).isSome ↔ isHexDigit c = true := by
  have hshort : (c :: t).length ≤ 2 := Nat.succ_le_succ h
  have hlength : ((c :: t).takeWhile isHexDigit).length ≤ 2 :=
    (List.takeWhile_prefix isHexDigit).length_le.trans hshort
  have hvalue := hexDigitsValue_lt hlength
  have hrange : inInt32 (if negative then -(hexDigitsValue ((c :: t).takeWhile isHexDigit) : Int)
      else hexDigitsValue ((c :: t).takeWhile isHexDigit)) := by
    rw [inInt32]
    split <;> omega
  rw [readHex, skipHexPrefix_of_short hshort]
  dsimp only
  rw [if_pos hrange]
  by_cases hc : isHexDigit c = true
  · rw [List.takeWhile_cons_of_pos hc, if_neg (List.cons_ne_nil _ _)]
    exact iff_of_true rfl hc
  · rw [List.takeWhile_cons_of_neg hc, if_pos rfl]
    exact iff_of_false Bool.false_ne_true hc

/-- Two characters that `std::stoi` reads in base sixteen: the first is a digit, or it is a blank or
a sign and the second is one. -/
def HexPair (a b : UInt8) : Prop :=
  isHexDigit a = true ∨ (isSpace a = true ∨ a = 45 ∨ a = 43) ∧ isHexDigit b = true

theorem stoiHex_isSome_iff (a b : UInt8) : (stoiHex [a, b]).isSome ↔ HexPair a b := by
  have ha := not_blank_of_isHexDigit a
  have hb := not_blank_of_isHexDigit b
  by_cases hspace : isSpace a = true
  · -- A blank is skipped, so the second character decides.
    have hpair : HexPair a b ↔ isHexDigit b = true := by
      have hno : ¬ isHexDigit a = true := fun h => by
        rw [(ha h).1] at hspace
        cases hspace
      exact (or_iff_right hno).trans (and_iff_right (.inl hspace))
    rw [hpair, stoiHex, List.dropWhile_cons_of_pos hspace]
    by_cases hspace' : isSpace b = true
    · rw [List.dropWhile_cons_of_pos hspace']
      refine iff_of_false Bool.false_ne_true fun h => ?_
      rw [(hb h).1] at hspace'
      cases hspace'
    · rw [List.dropWhile_cons_of_neg hspace']
      by_cases hminus : b = 45
      · exact iff_of_false (by rw [hminus]; decide) fun h => (hb h).2.1 hminus
      · by_cases hplus : b = 43
        · exact iff_of_false (by rw [hplus]; decide) fun h => (hb h).2.2 hplus
        · rw [splitSign, if_neg hminus, if_neg hplus]
          exact readHex_cons false b (Nat.zero_le 1)
  · rw [stoiHex, List.dropWhile_cons_of_neg hspace]
    -- A sign is skipped once, and then the digits begin.
    by_cases hminus : a = 45
    · have hpair : HexPair a b ↔ isHexDigit b = true :=
        (or_iff_right fun h => (ha h).2.1 hminus).trans (and_iff_right (.inr (.inl hminus)))
      rw [hpair, splitSign, if_pos hminus]
      exact readHex_cons true b (Nat.zero_le 1)
    · by_cases hplus : a = 43
      · have hpair : HexPair a b ↔ isHexDigit b = true :=
          (or_iff_right fun h => (ha h).2.2 hplus).trans (and_iff_right (.inr (.inr hplus)))
        rw [hpair, splitSign, if_neg hminus, if_pos hplus]
        exact readHex_cons false b (Nat.zero_le 1)
      · have hpair : HexPair a b ↔ isHexDigit a = true := by
          refine or_iff_left ?_
          rintro ⟨hblank | hsign | hsign, -⟩
          · exact hspace hblank
          · exact hminus hsign
          · exact hplus hsign
        rw [hpair, splitSign, if_neg hminus, if_neg hplus]
        exact readHex_cons false a (Nat.le_refl 1)

/-! ### Texts of pairs -/

/-- All pairs of a text can be read; a single character at the end is not looked at. -/
def HexPairs : Bytes → Prop
  | a :: b :: s => HexPair a b ∧ HexPairs s
  | _ => True

/-- `unhex` throws at a pair that is none. -/
theorem unhex_isSome_iff (s : Bytes) : (unhex s).isSome ↔ HexPairs s := by
  induction s using unhex.induct with
  | case1 a b s hnone =>
    have hpair : ¬ HexPair a b := by
      rw [← stoiHex_isSome_iff, hnone]
      exact Bool.false_ne_true
    rw [unhex, hnone]
    exact iff_of_false Bool.false_ne_true fun h => hpair h.1
  | case2 a b s v hsome ih =>
    have hpair : HexPair a b := by
      rw [← stoiHex_isSome_iff, hsome]
      rfl
    rw [unhex, hsome]
    dsimp only
    rw [Option.isSome_map, ih]
    exact (and_iff_right hpair).symm
  | case3 s hshort =>
    rw [unhex, HexPairs]
    · exact iff_of_true rfl trivial
    · exact hshort
    · exact hshort

/-- Two characters of `hex` are read as the byte they stand for. -/
theorem stoiHex_hexDigit :
    ∀ b : UInt8, stoiHex [hexDigit (b >>> 4), hexDigit (b &&& 0xF)] = some (b.toNat : Int) :=
  byte_of_fin (by decide +kernel)

/-- **`unhex` undoes `hex`.** -/
theorem unhex_hex (d : Bytes) : unhex (hex d) = some d := by
  induction d with
  | nil => rfl
  | cons b d ih =>
    have hbyte : UInt8.ofNat ((b.toNat : Int) % 256).toNat = b := by
      have hlt := b.toNat_lt
      have hmod : ((b.toNat : Int) % 256).toNat = b.toNat := by omega
      rw [hmod, UInt8.ofNat_toNat]
    show unhex (hexDigit (b >>> 4) :: hexDigit (b &&& 0xF) :: hex d) = _
    rw [unhex, stoiHex_hexDigit]
    dsimp only
    rw [ih, hbyte, Option.map_some]

/-- `hex` writes no `$`. -/
theorem dollar_notMem_hex (d : Bytes) : (36 : UInt8) ∉ hex d := by
  have hdigit : ∀ n, 36 ≠ hexDigit n := by
    intro n
    rw [hexDigit]
    cases h : (bytes "0123456789abcdef")[n.toNat]? with
    | none => decide
    | some x =>
      rintro rfl
      exact absurd (List.mem_of_getElem? h) (by decide)
  intro h
  obtain ⟨b, -, hb⟩ := List.mem_flatMap.mp h
  rw [List.mem_cons, List.mem_singleton] at hb
  exact hb.elim (hdigit _) (hdigit _)

/-! ### Stored hashes -/

/-- A text of the form in which hashes are stored. -/
def stored (count saltText expectedText : Bytes) : Bytes :=
  bytes "pbkdf2$" ++ count ++ bytes "$" ++ saltText ++ bytes "$" ++ expectedText

theorem stored_eq_intercalate (count saltText expectedText : Bytes) :
    stored count saltText expectedText =
      [36].intercalate [bytes "pbkdf2", count, saltText, expectedText] := by
  have hscheme : bytes "pbkdf2$" = bytes "pbkdf2" ++ [36] := by decide
  have hdollar : bytes "$" = [36] := by decide
  simp only [stored, hscheme, hdollar, List.intercalate_cons_cons, List.intercalate_singleton,
    List.append_assoc]

/-- The parts of a stored text. -/
theorem split_stored {count saltText expectedText : Bytes} (hcount : (36 : UInt8) ∉ count)
    (hsalt : (36 : UInt8) ∉ saltText) (hexpected : (36 : UInt8) ∉ expectedText) :
    split (stored count saltText expectedText) 36 =
      [bytes "pbkdf2", count, saltText, expectedText] := by
  rw [split, stored_eq_intercalate]
  refine List.splitOn_intercalate 36 ?_ (List.cons_ne_nil _ _)
  simp only [List.forall_mem_cons]
  exact ⟨by decide, hcount, hsalt, hexpected, nofun⟩

/-- A text with the parts of a stored one is one. -/
theorem eq_stored_of_split {hashed count saltText expectedText : Bytes}
    (h : split hashed 36 = [bytes "pbkdf2", count, saltText, expectedText]) :
    hashed = stored count saltText expectedText ∧ (36 : UInt8) ∉ count ∧
      (36 : UInt8) ∉ saltText ∧ (36 : UInt8) ∉ expectedText := by
  have hplain : ∀ part ∈ [bytes "pbkdf2", count, saltText, expectedText], (36 : UInt8) ∉ part := by
    rw [← h]
    exact fun part hpart => notMem_of_mem_splitOn hpart
  have hjoin : [36].intercalate (split hashed 36) = hashed := List.intercalate_splitOn 36
  rw [h, ← stored_eq_intercalate] at hjoin
  exact ⟨hjoin.symm, hplain _ (by simp), hplain _ (by simp), hplain _ (by simp)⟩

section
variable (kdf : Kdf) (plain : Bytes)

/-- What `check` makes of a stored text with a number that `std::stoi` reads. -/
theorem check_of_split {hashed count saltText expectedText : Bytes} {iters : Int}
    (h : split hashed 36 = [bytes "pbkdf2", count, saltText, expectedText])
    (hcount : stoi count = some iters) :
    check kdf plain hashed =
      match unhex saltText with
      | none => none
      | some salt =>
        match unhex expectedText with
        | none => none
        | some expected => some (constantTimeEqual (derive kdf plain salt iters) expected) := by
  rw [check, h]
  dsimp only
  rw [if_neg (not_not.mpr rfl)]
  generalize stoi count = number at hcount ⊢
  subst hcount
  rfl

/-- The comparison tells texts apart. -/
theorem constantTimeEqual_iff {a b : Bytes} : constantTimeEqual a b = true ↔ a = b := same_iff

/-- A password checks against its own hash. -/
theorem check_make {iterations : Int} (hpos : 1 ≤ iterations) (hlt : iterations < 2 ^ 31)
    (salt : Bytes) : check kdf plain (make kdf iterations salt plain) = some true := by
  obtain ⟨n, rfl⟩ : ∃ n : Nat, iterations = n := ⟨iterations.toNat, by omega⟩
  have hdollar : (36 : UInt8) ∉ natToString n := not_mem_natToString (by decide) n
  have hsplit := split_stored hdollar (dollar_notMem_hex salt)
    (dollar_notMem_hex (derive kdf plain salt n))
  have hmake : make kdf n salt plain = stored (natToString n) (hex salt)
      (hex (derive kdf plain salt n)) := rfl
  have hcount : stoi (natToString n) = some (n : Int) := stoi_natToString (by omega)
  rw [hmake, check_of_split kdf plain hsplit hcount, unhex_hex, unhex_hex]
  exact congrArg some (constantTimeEqual_iff.mpr rfl)

/-- Where the number of a stored text can be read, the rest of it can be, too. -/
def Decodable (hashed : Bytes) : Prop :=
  ∀ count saltText expectedText : Bytes, (36 : UInt8) ∉ count → (36 : UInt8) ∉ saltText →
    (36 : UInt8) ∉ expectedText → hashed = stored count saltText expectedText →
    (stoi count).isSome → HexPairs saltText ∧ HexPairs expectedText

/-- `check` returns, whatever is stored, unless `unhex` meets a pair that is none. -/
theorem check_isSome_iff (hashed : Bytes) :
    (check kdf plain hashed).isSome ↔ Decodable hashed := by
  constructor
  · rintro hreturns count saltText expectedText hdollar hdollar' hdollar'' rfl hcount
    obtain ⟨iters, hcount⟩ := Option.isSome_iff_exists.mp hcount
    rw [check_of_split kdf plain (split_stored hdollar hdollar' hdollar'') hcount] at hreturns
    -- Both texts are decoded, so both have to be read.
    rw [← unhex_isSome_iff, ← unhex_isSome_iff]
    cases hsalt : unhex saltText with
    | none =>
      rw [hsalt] at hreturns
      cases hreturns
    | some salt =>
      cases hexpected : unhex expectedText with
      | none =>
        rw [hsalt, hexpected] at hreturns
        cases hreturns
      | some expected => exact ⟨rfl, rfl⟩
  · intro hdecodable
    rw [check]
    split
    · -- Four parts: the condition speaks of the text that they make up.
      rename_i scheme count saltText expectedText hsplit
      by_cases hscheme : scheme = bytes "pbkdf2"
      · subst hscheme
        rw [if_neg (not_not.mpr rfl)]
        cases hcount : stoi count with
        | none => rfl
        | some iters =>
          obtain ⟨hstored, hdollar, hdollar', hdollar''⟩ := eq_stored_of_split hsplit
          obtain ⟨hsalt, hexpected⟩ := hdecodable count saltText expectedText hdollar hdollar'
            hdollar'' hstored (by rw [hcount]; rfl)
          obtain ⟨salt, hsalt⟩ := Option.isSome_iff_exists.mp ((unhex_isSome_iff _).mpr hsalt)
          obtain ⟨expected, hexpected⟩ :=
            Option.isSome_iff_exists.mp ((unhex_isSome_iff _).mpr hexpected)
          simp only [hsalt, hexpected, Option.isSome_some]
      · rw [if_pos hscheme]
        rfl
    · rfl

/-- What a hasher is asked for: `check` returns an answer, and a password checks against every hash
that `make` makes of it. -/
structure Answers (kdf : Kdf) (plain hashed : Bytes) : Prop where
  returns : (check kdf plain hashed).isSome
  accepts : ∀ iterations : Int, 1 ≤ iterations → iterations < 2 ^ 31 → ∀ salt : Bytes,
    check kdf plain (make kdf iterations salt plain) = some true

/-- **`check` answers, unless the salt or the hash has a pair of characters that is no number.** For
every key derivation, every password and every stored text: `check` returns, and accepts what
`make` makes of the password, if and only if the text is not of the stored form, or its number of
iterations cannot be read, or all pairs of its salt and of its hash can be. -/
theorem answers_iff (hashed : Bytes) : Answers kdf plain hashed ↔ Decodable hashed := by
  rw [← check_isSome_iff kdf plain hashed]
  constructor
  · intro hanswers
    exact hanswers.returns
  · intro hreturns
    exact ⟨hreturns, fun _ hpos hlt salt => check_make kdf plain hpos hlt salt⟩

end

/-- A stored salt of `zz`. -/
theorem throws_at_zz : ¬ Answers (fun _ _ _ => none) (bytes "x") (bytes "pbkdf2$1$zz$00") := by
  intro hanswers
  have hthrows : check (fun _ _ _ => none) (bytes "x") (bytes "pbkdf2$1$zz$00") = none := by
    decide
  have hreturns := hanswers.returns
  rw [hthrows] at hreturns
  cases hreturns

end CppLaravel.Pbkdf2
