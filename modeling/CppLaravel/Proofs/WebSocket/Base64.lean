import CppLaravel.Lib.BitGroups
import CppLaravel.Proofs.Token.Base64Url
import CppLaravel.WebSocket.Base64

/-!
# `CppLaravel.Proofs.WebSocket.Base64`: the two base64 texts

`rfc4648` is the text by the book: the bits of the bytes in groups of six, the last one filled up
with zeros, each group a character.

* `b64urlEncode_eq`: `b64url_encode` writes that text, from whatever its accumulator holds.
* `base64From_eq`: the loop of `base64` is the same loop with the other two characters.
* `base64_codecs`: both encoders, and the decoder.
-/

set_option autoImplicit false

namespace CppLaravel.WebSocket

open CppLaravel.Lib CppLaravel.Token

/-! ### The text by the book -/

/-- The character of a group of six bits; the last two differ between the alphabets. -/
def rfcDigit (c62 c63 : UInt8) (n : Nat) : UInt8 :=
  if n < 26 then UInt8.ofNat (65 + n)
  else if n < 52 then UInt8.ofNat (97 + (n - 26))
  else if n < 62 then UInt8.ofNat (48 + (n - 52))
  else if n = 62 then c62
  else c63

/-- The bits of the bytes. -/
def bitString (s : Bytes) : List Bool := s.flatMap fun b => bitsBE 8 b.toNat

/-- The text without padding. -/
def rfc4648 (c62 c63 : UInt8) (s : Bytes) : Bytes :=
  (bitGroups 6 (bitString s)).map (rfcDigit c62 c63)

/-- The text with padding: a multiple of four characters. -/
def padded (text : Bytes) : Bytes := text ++ List.replicate ((4 - text.length % 4) % 4) 61

/-- Three bytes are four groups. -/
theorem bitGroups_three (a b c : UInt8) (rest : Bytes) :
    bitGroups 6 (bitString (a :: b :: c :: rest)) =
      a.toNat / 4 :: (a.toNat * 16 + b.toNat / 16) % 64 :: (b.toNat * 4 + c.toNat / 64) % 64 ::
        c.toNat % 64 :: bitGroups 6 (bitString rest) := by
  have ha := a.toNat_lt
  have hb := b.toNat_lt
  have hc := c.toNat_lt
  obtain ⟨n, hn⟩ : ∃ n, n = (a.toNat * 2 ^ 8 + b.toNat) * 2 ^ 8 + c.toNat := ⟨_, rfl⟩
  have hbits : bitString (a :: b :: c :: rest) = bitsBE 24 n ++ bitString rest := by
    rw [bitString, List.flatMap_cons, List.flatMap_cons, List.flatMap_cons, ← List.append_assoc,
      bitsBE_append_bitsBE hb, ← List.append_assoc, bitsBE_append_bitsBE hc, ← hn]
    rfl
  -- The 24 bits of the group, six at a time.
  rw [hbits, ← bitsBE_append 6 18 n, ← bitsBE_append 6 12 n, ← bitsBE_append 6 6 n]
  simp only [List.append_assoc, bitGroups_bitsBE_append (w := 6) (by omega)]
  congr 1
  · omega
  · congr 1
    · omega
    · congr 1
      · omega
      · congr 1
        omega

theorem bitGroups_one (a : UInt8) :
    bitGroups 6 (bitString [a]) = [a.toNat / 4, a.toNat * 16 % 64] := by
  have ha := a.toNat_lt
  show bitGroups 6 (bitsBE (6 + 2) a.toNat ++ []) = _
  rw [List.append_nil, ← bitsBE_append, bitGroups_bitsBE_append (by omega),
    bitGroups_bitsBE_short (by omega) (by omega), Nat.mod_eq_of_lt (by omega)]
  rfl

theorem bitGroups_two (a b : UInt8) :
    bitGroups 6 (bitString [a, b])
      = [a.toNat / 4, (a.toNat * 16 + b.toNat / 16) % 64, b.toNat * 4 % 64] := by
  have ha := a.toNat_lt
  have hb := b.toNat_lt
  obtain ⟨n, hn⟩ : ∃ n, n = a.toNat * 2 ^ 8 + b.toNat := ⟨_, rfl⟩
  have hbits : bitString [a, b] = bitsBE 16 n := by
    show bitsBE 8 a.toNat ++ (bitsBE 8 b.toNat ++ []) = _
    rw [List.append_nil, bitsBE_append_bitsBE hb, ← hn]
  rw [hbits, ← bitsBE_append 6 10 n, ← bitsBE_append 6 4 n, bitGroups_bitsBE_append (by omega),
    bitGroups_bitsBE_append (by omega), bitGroups_bitsBE_short (by omega) (by omega)]
  congr 1
  · omega
  · congr 1
    · omega
    · congr 1
      omega

/-! ### The loops write it -/

/-- The characters of the URL alphabet. -/
theorem digit64_eq {x : Int} {n : Nat} (h : x % 64 = n) : digit64 x = rfcDigit 45 95 n := by
  have hall : ∀ n : Fin 64, Token.alphabet.getD n 0 = rfcDigit 45 95 n := by decide +kernel
  have hn : n < 64 := by omega
  rw [digit64, h]
  exact hall ⟨n, hn⟩

/-- The encoder with no bits at hand, whatever is left in its accumulator. -/
theorem encodeFrom_eq : ∀ (s : Bytes) (val : Int), encodeFrom val (-6) s = rfc4648 45 95 s
  | [], _ => by
    rw [rfc4648, bitString, List.flatMap_nil, bitGroups_nil]
    rfl
  | [a], val => by
    have ha := a.toNat_lt
    rw [encodeFrom_one, rfc4648, bitGroups_one, digit64_eq (n := a.toNat / 4) (by omega),
      digit64_eq (n := a.toNat * 16 % 64) (by omega)]
    rfl
  | [a, b], val => by
    have ha := a.toNat_lt
    have hb := b.toNat_lt
    rw [encodeFrom_two, rfc4648, bitGroups_two, digit64_eq (n := a.toNat / 4) (by omega),
      digit64_eq (n := (a.toNat * 16 + b.toNat / 16) % 64) (by omega),
      digit64_eq (n := b.toNat * 4 % 64) (by omega)]
    rfl
  | a :: b :: c :: rest, val => by
    have ha := a.toNat_lt
    have hb := b.toNat_lt
    have hc := c.toNat_lt
    obtain ⟨val', hencode⟩ := encodeFrom_three val a b c rest
    rw [hencode, encodeFrom_eq rest val', rfc4648, rfc4648, bitGroups_three,
      digit64_eq (n := a.toNat / 4) (by omega),
      digit64_eq (n := (a.toNat * 16 + b.toNat / 16) % 64) (by omega),
      digit64_eq (n := (b.toNat * 4 + c.toNat / 64) % 64) (by omega),
      digit64_eq (n := c.toNat % 64) (by omega)]
    rfl

theorem b64urlEncode_eq (s : Bytes) : b64urlEncode s = rfc4648 45 95 s := encodeFrom_eq s 0

/-- The characters of the URL alphabet as those of the standard one. -/
def toStandard (c : UInt8) : UInt8 := if c = 45 then 43 else if c = 95 then 47 else c

theorem digit_eq (x : Int) : digit x = toStandard (digit64 x) := by
  have hall : ∀ n : Fin 64, alphabet.getD n 0 = toStandard (Token.alphabet.getD n 0) := by
    decide +kernel
  have hlt : (x % 64).toNat < 64 := by omega
  exact hall ⟨_, hlt⟩

theorem emit_eq (val bits : Int) :
    emit val bits = ((Token.emit val bits).1.map toStandard, (Token.emit val bits).2) := by
  fun_induction emit val bits with
  | case1 bits h r ih =>
    rw [Token.emit, if_pos h, List.map_cons, digit_eq, show r = emit val (bits - 6) from rfl, ih]
  | case2 bits h =>
    rw [Token.emit, if_neg h]
    rfl

/-- **The loop of `base64`** is that of `b64url_encode`. -/
theorem base64From_eq (s : Bytes) (val bits : Int) :
    base64From val bits s = (encodeFrom val bits s).map toStandard := by
  induction s generalizing val bits with
  | nil =>
    unfold base64From encodeFrom
    by_cases h : -6 < bits
    · rw [if_pos h, if_pos h, List.map_singleton, digit_eq]
    · rw [if_neg h, if_neg h]
      rfl
  | cons c s ih =>
    unfold base64From encodeFrom
    dsimp only
    rw [List.map_append, ih, emit_eq]

/-- Letters and digits are the same in both alphabets. -/
theorem toStandard_rfcDigit (n : Nat) : toStandard (rfcDigit 45 95 n) = rfcDigit 43 47 n := by
  have hall : ∀ n : Fin 63, toStandard (rfcDigit 45 95 n) = rfcDigit 43 47 n := by decide
  by_cases hn : n < 63
  · exact hall ⟨n, hn⟩
  · unfold rfcDigit
    rw [if_neg (by omega), if_neg (by omega), if_neg (by omega), if_neg (by omega),
      if_neg (by omega), if_neg (by omega), if_neg (by omega), if_neg (by omega)]
    rfl

/-- The loop at the end pads the text. -/
theorem padLoop_eq (out : Bytes) : padLoop out = padded out := by
  fun_induction padLoop out with
  | case1 out h ih =>
    have hone : (4 - out.length % 4) % 4 = (4 - (out.length + 1) % 4) % 4 + 1 := by omega
    rw [ih, padded, padded, List.length_append, List.length_singleton, hone,
      List.replicate_succ, List.append_assoc]
    rfl
  | case2 out h =>
    have hnone : (4 - out.length % 4) % 4 = 0 := by omega
    rw [padded, hnone, List.replicate_zero, List.append_nil]

/-- **The codecs.** Decoding inverts encoding, and both encoders write the text by the book, in the
URL alphabet without padding and in the standard alphabet with it. -/
theorem base64_codecs (x : Bytes) :
    b64urlDecode (b64urlEncode x) = x ∧ b64urlEncode x = rfc4648 45 95 x ∧
      base64 x = padded (rfc4648 43 47 x) := by
  refine ⟨decode_encode x, b64urlEncode_eq x, ?_⟩
  rw [base64, base64From_eq, encodeFrom_eq, padLoop_eq, rfc4648, List.map_map]
  congr 2
  funext n
  exact toStandard_rfcDigit n

/-- The third test vector of the alphabet without padding, and with it. -/
example : b64urlEncode [251, 255] = bytes "-_8" ∧ base64 [251, 255] = bytes "+/8=" := by
  decide +kernel

end CppLaravel.WebSocket
