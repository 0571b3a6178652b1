import Mathlib.Data.List.Basic

/-!
# `CppLaravel.Lib.Text`: texts, their bytes and digits

`utf8` writes a text, `decode` reads bytes the way a browser does: what is well formed is read
back (`decode_utf8`), and a replacement character stands for every longest beginning of a
character that is not.
-/

set_option autoImplicit false

namespace CppLaravel.Lib

/-- A text: its characters in order. -/
abbrev Text := List Char

/-- A decimal digit. -/
def decimalDigit (c : Char) : Option Nat :=
  if '0' ≤ c ∧ c ≤ '9' then some (c.toNat - 48) else none

/-- A hexadecimal digit. -/
def hexDigit (c : Char) : Option Nat :=
  if '0' ≤ c ∧ c ≤ '9' then some (c.toNat - 48)
  else if 'a' ≤ c ∧ c ≤ 'f' then some (c.toNat - 87)
  else if 'A' ≤ c ∧ c ≤ 'F' then some (c.toNat - 55)
  else none

/-- The bytes of a text. -/
def utf8 (s : Text) : List UInt8 := s.flatMap String.utf8EncodeChar

/-- What is read in the place of something malformed. -/
def replacement : Char := '\uFFFD'

/-- Can this byte follow that lead byte? -/
def follows (lead b : UInt8) : Bool :=
  if lead < 0xC2 ∨ 0xF4 < lead then false
  else if lead = 0xE0 then 0xA0 ≤ b ∧ b ≤ 0xBF
  else if lead = 0xED then 0x80 ≤ b ∧ b ≤ 0x9F
  else if lead = 0xF0 then 0x90 ≤ b ∧ b ≤ 0xBF
  else if lead = 0xF4 then 0x80 ≤ b ∧ b ≤ 0x8F
  else 0x80 ≤ b ∧ b ≤ 0xBF

/-- The number of bytes behind a lead byte that belong to a character which is not
complete. -/
def broken (lead : UInt8) : List UInt8 → Nat
  | [] => 0
  | b :: s => if follows lead b then 1 + (s.takeWhile fun c => 0x80 ≤ c ∧ c ≤ 0xBF).length else 0

/-- The text that is read of bytes. -/
def decode : List UInt8 → Text
  | [] => []
  | b :: s =>
    match (b :: s).toByteArray.utf8DecodeChar? 0 with
    | some c => c :: decode (s.drop (c.utf8Size - 1))
    | none => replacement :: decode (s.drop (broken b s))
termination_by s => s.length
decreasing_by all_goals simp only [List.length_drop, List.length_cons]; omega

@[simp] theorem utf8_nil : utf8 [] = [] := rfl

theorem utf8_cons (c : Char) (s : Text) : utf8 (c :: s) = String.utf8EncodeChar c ++ utf8 s :=
  rfl

theorem utf8_append (s t : Text) : utf8 (s ++ t) = utf8 s ++ utf8 t := List.flatMap_append

/-- An ASCII character is one byte. -/
theorem utf8_ascii {c : Char} (h : c.toNat < 128) (s : Text) :
    utf8 (c :: s) = UInt8.ofNat c.toNat :: utf8 s := by
  have hv : c.val.toNat ≤ 0x7f := Nat.le_of_lt_succ h
  rw [utf8_cons, String.utf8EncodeChar, if_pos hv]
  rfl

/-- The bytes of another character are none of ASCII. -/
theorem high_of_mem_encode {c : Char} (h : 128 ≤ c.toNat) {b : UInt8}
    (hb : b ∈ String.utf8EncodeChar c) : 128 ≤ b.toNat := by
  have hv : ¬ c.val.toNat ≤ 0x7f := Nat.not_le.mpr h
  have hbyte : ∀ n k, 128 ≤ k → k + n < 256 → 128 ≤ (UInt8.ofNat (n + k)).toNat := by
    intro n k hk hlt
    rw [UInt8.toNat_ofNat', Nat.mod_eq_of_lt (by omega)]
    omega
  rw [String.utf8EncodeChar, if_neg hv] at hb
  split at hb
  · simp only [List.mem_cons, List.not_mem_nil, or_false] at hb
    rcases hb with rfl | rfl
    · exact hbyte _ _ (by omega) (by omega)
    · exact hbyte _ _ (by omega) (by omega)
  · split at hb
    · simp only [List.mem_cons, List.not_mem_nil, or_false] at hb
      rcases hb with rfl | rfl | rfl
      · exact hbyte _ _ (by omega) (by omega)
      · exact hbyte _ _ (by omega) (by omega)
      · exact hbyte _ _ (by omega) (by omega)
    · simp only [List.mem_cons, List.not_mem_nil, or_false] at hb
      rcases hb with rfl | rfl | rfl | rfl
      · exact hbyte _ _ (by omega) (by omega)
      · exact hbyte _ _ (by omega) (by omega)
      · exact hbyte _ _ (by omega) (by omega)
      · exact hbyte _ _ (by omega) (by omega)

/-- The first character is read, and then the rest. -/
theorem decode_encode_append (c : Char) (rest : List UInt8) :
    decode (String.utf8EncodeChar c ++ rest) = c :: decode rest := by
  cases he : String.utf8EncodeChar c with
  | nil => exact absurd he String.utf8EncodeChar_ne_nil
  | cons b s =>
    have hlen : (b :: s).length = c.utf8Size := by
      rw [← he, String.length_utf8EncodeChar]
    have hread : (b :: (s ++ rest)).toByteArray.utf8DecodeChar? 0 = some c := by
      rw [← List.cons_append, ← he, List.toByteArray_append]
      exact ByteArray.utf8DecodeChar?_utf8EncodeChar_append
    have hdrop : (s ++ rest).drop (c.utf8Size - 1) = rest := by
      rw [← hlen]
      exact List.drop_left
    rw [List.cons_append, decode, hread]
    show c :: decode ((s ++ rest).drop (c.utf8Size - 1)) = c :: decode rest
    rw [hdrop]

/-- **What is well formed is read back**, whatever follows it. -/
theorem decode_utf8 (s : Text) (rest : List UInt8) :
    decode (utf8 s ++ rest) = s ++ decode rest := by
  induction s with
  | nil => rfl
  | cons c s ih => rw [utf8_cons, List.append_assoc, decode_encode_append, ih, List.cons_append]

theorem utf8_injective : Function.Injective utf8 := by
  intro s t h
  have hs := decode_utf8 s []
  rw [h, decode_utf8] at hs
  exact (List.append_cancel_right hs).symm

end CppLaravel.Lib
