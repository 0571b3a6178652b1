import CppLaravel.Token.Base64Url
import Mathlib.Tactic.IntervalCases

/-!
# `CppLaravel.Proofs.Token.Base64Url`: decoding inverts encoding

* `decode_encode`: `b64url_decode` after `b64url_encode` is the identity on all bytes.
* `not_mem_encode`: an encoded text has no byte outside the alphabet, in particular no dot.

Both loops come back to an empty accumulator after three bytes, or four characters. What
they have shifted out by then is still in `val`, unmasked; the proof is by three bytes at a
time for every such `val`, which no output reads.
-/

set_option autoImplicit false

namespace CppLaravel.Token

/-! ### One character -/

set_option maxRecDepth 2000 in
theorem b64urlVal_alphabet (n : Nat) (h : n < 64) : b64urlVal (alphabet.getD n 0) = n := by
  -- Checked character by character.
  have hall : ∀ n : Fin 64, b64urlVal (alphabet.getD n 0) = (n : Nat) := by decide
  exact hall ⟨n, h⟩

/-- The value of a character is the six bits it stands for. -/
theorem b64urlVal_digit64 (x : Int) : b64urlVal (digit64 x) = x % 64 := by
  have hlt : (x % 64).toNat < 64 := by omega
  rw [digit64, b64urlVal_alphabet _ hlt]
  omega

theorem digit64_mem (x : Int) : digit64 x ∈ alphabet := by
  have hlt : (x % 64).toNat < alphabet.length := by
    show (x % 64).toNat < 64
    omega
  rw [digit64, List.getD, List.getElem?_eq_getElem hlt]
  exact List.getElem_mem hlt

/-- Only the low six bits count. -/
theorem digit64_congr {x y : Int} (h : x % 64 = y % 64) : digit64 x = digit64 y := by
  rw [digit64, digit64, h]

/-- The byte of the low eight bits of a number. -/
def lowByte (x : Int) : UInt8 := UInt8.ofNat (x % 256).toNat

theorem lowByte_congr {x y : Int} (h : x % 256 = y % 256) : lowByte x = lowByte y := by
  rw [lowByte, lowByte, h]

theorem lowByte_toNat (b : UInt8) : lowByte b.toNat = b := by
  have hb := b.toNat_lt
  have hmod : ((b.toNat : Int) % 256).toNat = b.toNat := by omega
  rw [lowByte, hmod, UInt8.ofNat_toNat]

/-! ### One step of each loop

`encodeFrom` is entered with 0, 2 or 4 bits at hand (`bits` is -6, -4 or -2), `decodeFrom`
with 0, 6, 4 or 2 (-8, -2, -4 or -6). -/

theorem emit_neg {val bits : Int} (h : bits < 0) : emit val bits = ([], bits) := by
  rw [emit, if_neg (by omega)]

theorem emit_nonneg {val bits : Int} (h : 0 ≤ bits) :
    emit val bits = (digit64 (val / 2 ^ bits.toNat) :: (emit val (bits - 6)).1,
      (emit val (bits - 6)).2) := by
  rw [emit, if_pos h, Int.shiftRight_eq_div_pow]
  norm_cast

theorem emit_two (val : Int) : emit val 2 = ([digit64 (val / 4)], -4) := by
  rw [emit_nonneg (by decide), emit_neg (by decide)]
  rfl

theorem emit_four (val : Int) : emit val 4 = ([digit64 (val / 16)], -2) := by
  rw [emit_nonneg (by decide), emit_neg (by decide)]
  rfl

theorem emit_six (val : Int) : emit val 6 = ([digit64 (val / 64), digit64 val], -6) := by
  rw [emit_nonneg (by decide), emit_nonneg (by decide), emit_neg (by decide)]
  show ([digit64 (val / 64), digit64 (val / 1)], (-6 : Int)) = _
  rw [Int.ediv_one]

theorem encodeFrom_cons (val bits : Int) (c : UInt8) (rest : Bytes) :
    encodeFrom val bits (c :: rest) = (emit (wrap32 (val * 256 + c.toNat)) (bits + 8)).1 ++
      encodeFrom (wrap32 (val * 256 + c.toNat))
        (emit (wrap32 (val * 256 + c.toNat)) (bits + 8)).2 rest := rfl

/-- The bits at hand at the end go out as one more character. -/
theorem encodeFrom_nil (val bits : Int) (h : -6 < bits) :
    encodeFrom val bits [] = [digit64 (wrap32 (val * 256) / 2 ^ (bits + 8).toNat)] := by
  rw [encodeFrom, if_pos h, Int.shiftRight_eq_div_pow]
  norm_cast

/-- The decoder takes in one character of the alphabet. -/
theorem decodeFrom_digit64 (val bits x : Int) (rest : Bytes) :
    decodeFrom val bits (digit64 x :: rest) =
      if 0 ≤ bits + 6 then
        lowByte (wrap32 (val * 64 + x % 64) / 2 ^ (bits + 6).toNat) ::
          decodeFrom (wrap32 (val * 64 + x % 64)) (bits + 6 - 8) rest
      else decodeFrom (wrap32 (val * 64 + x % 64)) (bits + 6) rest := by
  have hnot : ¬ x % 64 < 0 := by omega
  rw [decodeFrom, b64urlVal_digit64, if_neg hnot]
  simp only [Int.shiftRight_eq_div_pow, lowByte]
  norm_cast

/-! ### Three bytes, four characters

With no bits at hand, three bytes go out as four characters and four characters as three
bytes, and again no bits are at hand. -/

/-- What the encoder writes for one byte at the end. -/
theorem encodeFrom_one (val : Int) (a : UInt8) :
    encodeFrom val (-6) [a] = [digit64 (a.toNat / 4), digit64 (a.toNat * 16)] := by
  have ha := a.toNat_lt
  have h₁ : digit64 (wrap32 (val * 256 + a.toNat) / 4) = digit64 (a.toNat / 4) :=
    digit64_congr (by unfold wrap32; omega)
  have h₂ : digit64 (wrap32 (wrap32 (val * 256 + a.toNat) * 256) / 16)
      = digit64 (a.toNat * 16) :=
    digit64_congr (by unfold wrap32; omega)
  rw [encodeFrom_cons, show (-6 : Int) + 8 = 2 from rfl, emit_two, h₁,
    encodeFrom_nil _ (-4) (by decide), ← h₂]
  rfl

/-- What it writes for two bytes at the end. -/
theorem encodeFrom_two (val : Int) (a b : UInt8) :
    encodeFrom val (-6) [a, b] = [digit64 (a.toNat / 4),
      digit64 (a.toNat * 16 + b.toNat / 16), digit64 (b.toNat * 4)] := by
  have ha := a.toNat_lt
  have hb := b.toNat_lt
  have h₁ : digit64 (wrap32 (val * 256 + a.toNat) / 4) = digit64 (a.toNat / 4) :=
    digit64_congr (by unfold wrap32; omega)
  have h₂ : digit64 (wrap32 (wrap32 (val * 256 + a.toNat) * 256 + b.toNat) / 16)
      = digit64 (a.toNat * 16 + b.toNat / 16) :=
    digit64_congr (by unfold wrap32; omega)
  have h₃ : digit64 (wrap32 (wrap32 (wrap32 (val * 256 + a.toNat) * 256 + b.toNat) * 256) / 64)
      = digit64 (b.toNat * 4) :=
    digit64_congr (by unfold wrap32; omega)
  rw [encodeFrom_cons, show (-6 : Int) + 8 = 2 from rfl, emit_two, h₁, encodeFrom_cons,
    show (-4 : Int) + 8 = 4 from rfl, emit_four, h₂, encodeFrom_nil _ (-2) (by decide), ← h₃]
  rfl

/-- What it writes for three bytes, before it goes on. -/
theorem encodeFrom_three (val : Int) (a b c : UInt8) (rest : Bytes) :
    ∃ val', encodeFrom val (-6) (a :: b :: c :: rest) =
      digit64 (a.toNat / 4) :: digit64 (a.toNat * 16 + b.toNat / 16) ::
        digit64 (b.toNat * 4 + c.toNat / 64) :: digit64 c.toNat ::
          encodeFrom val' (-6) rest := by
  have ha := a.toNat_lt
  have hb := b.toNat_lt
  have hc := c.toNat_lt
  let val₁ := wrap32 (val * 256 + a.toNat)
  let val₂ := wrap32 (val₁ * 256 + b.toNat)
  let val₃ := wrap32 (val₂ * 256 + c.toNat)
  have h₁ : digit64 (val₁ / 4) = digit64 (a.toNat / 4) :=
    digit64_congr (by unfold val₁ wrap32; omega)
  have h₂ : digit64 (val₂ / 16) = digit64 (a.toNat * 16 + b.toNat / 16) :=
    digit64_congr (by unfold val₂ val₁ wrap32; omega)
  have h₃ : digit64 (val₃ / 64) = digit64 (b.toNat * 4 + c.toNat / 64) :=
    digit64_congr (by unfold val₃ val₂ wrap32; omega)
  have h₄ : digit64 val₃ = digit64 c.toNat :=
    digit64_congr (by unfold val₃ wrap32; omega)
  refine ⟨val₃, ?_⟩
  rw [encodeFrom_cons, show (-6 : Int) + 8 = 2 from rfl, emit_two, h₁, encodeFrom_cons,
    show (-4 : Int) + 8 = 4 from rfl, emit_four, h₂, encodeFrom_cons,
    show (-2 : Int) + 8 = 6 from rfl, emit_six, h₃, h₄]
  rfl

/-- What the decoder makes of two characters. -/
theorem decodeFrom_two (val x y : Int) (rest : Bytes) :
    decodeFrom val (-8) (digit64 x :: digit64 y :: rest) =
      lowByte (x % 64 * 4 + y % 64 / 16) ::
        decodeFrom (wrap32 (wrap32 (val * 64 + x % 64) * 64 + y % 64)) (-4) rest := by
  have h : lowByte (wrap32 (wrap32 (val * 64 + x % 64) * 64 + y % 64) / 16)
      = lowByte (x % 64 * 4 + y % 64 / 16) :=
    lowByte_congr (by unfold wrap32; omega)
  rw [decodeFrom_digit64, if_neg (by decide), decodeFrom_digit64, if_pos (by decide), ← h]
  rfl

/-- What it makes of a third one. -/
theorem decodeFrom_three (val x y z : Int) (rest : Bytes) :
    decodeFrom val (-8) (digit64 x :: digit64 y :: digit64 z :: rest) =
      lowByte (x % 64 * 4 + y % 64 / 16) :: lowByte (y % 64 * 16 + z % 64 / 4) ::
        decodeFrom (wrap32 (wrap32 (wrap32 (val * 64 + x % 64) * 64 + y % 64) * 64 + z % 64))
          (-6) rest := by
  have h : lowByte (wrap32 (wrap32 (wrap32 (val * 64 + x % 64) * 64 + y % 64) * 64 + z % 64) / 4)
      = lowByte (y % 64 * 16 + z % 64 / 4) :=
    lowByte_congr (by unfold wrap32; omega)
  rw [decodeFrom_two, decodeFrom_digit64, if_pos (by decide), ← h]
  rfl

/-- What it makes of four characters, before it goes on. -/
theorem decodeFrom_four (val x y z w : Int) (rest : Bytes) :
    ∃ val', decodeFrom val (-8) (digit64 x :: digit64 y :: digit64 z :: digit64 w :: rest) =
      lowByte (x % 64 * 4 + y % 64 / 16) :: lowByte (y % 64 * 16 + z % 64 / 4) ::
        lowByte (z % 64 * 64 + w % 64) :: decodeFrom val' (-8) rest := by
  let val₃ := wrap32 (wrap32 (wrap32 (val * 64 + x % 64) * 64 + y % 64) * 64 + z % 64)
  have h : lowByte (wrap32 (val₃ * 64 + w % 64) / 1) = lowByte (z % 64 * 64 + w % 64) :=
    lowByte_congr (by unfold val₃ wrap32; omega)
  refine ⟨wrap32 (val₃ * 64 + w % 64), ?_⟩
  rw [decodeFrom_three, decodeFrom_digit64, if_pos (by decide), ← h]
  rfl

/-! ### The round trip -/

/-- The loops with no bits at hand, whatever is left in their accumulators. -/
theorem decodeFrom_encodeFrom : ∀ (s : Bytes) (val val' : Int),
    decodeFrom val' (-8) (encodeFrom val (-6) s) = s
  | [], _, _ => rfl
  | [a], val, val' => by
    have ha := a.toNat_lt
    have h₁ : lowByte ((a.toNat / 4 : Int) % 64 * 4 + (a.toNat * 16 : Int) % 64 / 16) = a :=
      (lowByte_congr (by omega)).trans (lowByte_toNat a)
    rw [encodeFrom_one, decodeFrom_two, h₁]
    rfl
  | [a, b], val, val' => by
    have ha := a.toNat_lt
    have hb := b.toNat_lt
    have h₁ : lowByte ((a.toNat / 4 : Int) % 64 * 4
        + (a.toNat * 16 + b.toNat / 16 : Int) % 64 / 16) = a :=
      (lowByte_congr (by omega)).trans (lowByte_toNat a)
    have h₂ : lowByte ((a.toNat * 16 + b.toNat / 16 : Int) % 64 * 16
        + (b.toNat * 4 : Int) % 64 / 4) = b :=
      (lowByte_congr (by omega)).trans (lowByte_toNat b)
    rw [encodeFrom_two, decodeFrom_three, h₁, h₂]
    rfl
  | a :: b :: c :: rest, val, val' => by
    have ha := a.toNat_lt
    have hb := b.toNat_lt
    have hc := c.toNat_lt
    have h₁ : lowByte ((a.toNat / 4 : Int) % 64 * 4
        + (a.toNat * 16 + b.toNat / 16 : Int) % 64 / 16) = a :=
      (lowByte_congr (by omega)).trans (lowByte_toNat a)
    have h₂ : lowByte ((a.toNat * 16 + b.toNat / 16 : Int) % 64 * 16
        + (b.toNat * 4 + c.toNat / 64 : Int) % 64 / 4) = b :=
      (lowByte_congr (by omega)).trans (lowByte_toNat b)
    have h₃ : lowByte ((b.toNat * 4 + c.toNat / 64 : Int) % 64 * 64 + (c.toNat : Int) % 64) = c :=
      (lowByte_congr (by omega)).trans (lowByte_toNat c)
    -- Both loops are back at an empty accumulator, with other garbage in it.
    obtain ⟨val₁, henc⟩ := encodeFrom_three val a b c rest
    rw [henc]
    obtain ⟨val₂, hdec⟩ := decodeFrom_four val' (a.toNat / 4) (a.toNat * 16 + b.toNat / 16)
      (b.toNat * 4 + c.toNat / 64) c.toNat (encodeFrom val₁ (-6) rest)
    rw [hdec, h₁, h₂, h₃, decodeFrom_encodeFrom rest val₁ val₂]

/-- **Decoding inverts encoding**, on all bytes and at every length. -/
theorem decode_encode (s : Bytes) : b64urlDecode (b64urlEncode s) = s :=
  decodeFrom_encodeFrom s 0 0

/-! ### The alphabet -/

theorem emit_subset (val bits : Int) : ∀ c ∈ (emit val bits).1, c ∈ alphabet := by
  fun_induction emit val bits with
  | case1 bits h r ih =>
    intro c hc
    rcases List.mem_cons.mp hc with rfl | hc
    · exact digit64_mem _
    · exact ih c hc
  | case2 bits h =>
    intro c hc
    cases hc

/-- The encoder writes characters of its alphabet only. -/
theorem encodeFrom_subset (s : Bytes) (val bits : Int) :
    ∀ c ∈ encodeFrom val bits s, c ∈ alphabet := by
  induction s generalizing val bits with
  | nil =>
    intro c hc
    unfold encodeFrom at hc
    split at hc
    · rw [List.mem_singleton.mp hc]
      exact digit64_mem _
    · cases hc
  | cons b s ih =>
    intro c hc
    rw [encodeFrom_cons] at hc
    rcases List.mem_append.mp hc with hc | hc
    · exact emit_subset _ _ c hc
    · exact ih _ _ c hc

/-- A byte outside the alphabet is in no encoded text. -/
theorem not_mem_encode {c : UInt8} (hc : c ∉ alphabet) (s : Bytes) : c ∉ b64urlEncode s :=
  fun h => hc (encodeFrom_subset s 0 (-6) c h)

end CppLaravel.Token
