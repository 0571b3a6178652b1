import CppLaravel.Proofs.WebSocket.Codec
import CppLaravel.Proofs.WebSocket.Wire

/-!
# `CppLaravel.Proofs.WebSocket.Encode`: what the encoders write can be read

* `encodeBinary_codec`: the parser takes the frame of `encode_binary` off the front of a buffer,
  waits on every proper prefix of it, and `decode` reads the payload of every frame that the parser
  accepts.
* `textRoundTrips_iff`: `encode_text`, which has no 64-bit length form, is read back for payloads of
  less than `2 ^ 16` bytes only.
* `long_text_is_cut`: the next longer payload is read as an empty one, and the rest of it as frames.
-/

set_option autoImplicit false

namespace CppLaravel.WebSocket

open CppLaravel.Lib

/-! ### The length fields -/

/-- A byte of a number. -/
theorem ofNat_shift (n k : Nat) :
    UInt8.ofNat ((n >>> k) &&& 0xFF) = UInt8.ofNat (n / 2 ^ k % 256) := by
  rw [Nat.shiftRight_eq_div_pow]
  exact congrArg UInt8.ofNat (Nat.and_two_pow_sub_one_eq_mod _ 8)

/-- The 16-bit form, which drops what does not fit. -/
theorem medium_digits (n : Nat) :
    [UInt8.ofNat ((n >>> 8) &&& 0xFF), UInt8.ofNat (n &&& 0xFF)] = toBigEndian 2 (n % 2 ^ 16) := by
  have hlow : UInt8.ofNat (n &&& 0xFF) = UInt8.ofNat (n % 256) :=
    congrArg UInt8.ofNat (Nat.and_two_pow_sub_one_eq_mod n 8)
  have hhigh : n / 2 ^ 8 % 256 = n % 2 ^ 16 / 256 ^ 1 % 256 := by omega
  have hsame : n % 256 = n % 2 ^ 16 / 256 ^ 0 % 256 := by omega
  rw [ofNat_shift, hlow, hhigh, hsame]
  rfl

/-- The 64-bit form. -/
theorem long_digits (n : Nat) :
    ([7, 6, 5, 4, 3, 2, 1, 0].map fun i => UInt8.ofNat ((n >>> (i * 8)) &&& 0xFF))
      = toBigEndian 8 n := by
  simp only [List.map_cons, List.map_nil, ofNat_shift]
  rfl

/-- The shortest form with room for the length. -/
def formOf (n : Nat) : LengthForm :=
  if n < 126 then .short else if n ≤ 0xFFFF then .medium else .long

theorem formOf_fits {n : Nat} (h : n < 2 ^ 63) : (formOf n).Fits n := by
  unfold formOf
  split_ifs with hshort hmedium
  · exact hshort
  · show n < 256 ^ 2
    omega
  · show n < 256 ^ 8
    omega

/-- The frame that `encode_binary` writes. -/
def binaryFrame (p : Bytes) (h : p.length < 2 ^ 63) : WireFrame where
  fin := true
  opcode := .binary
  named := fun _ => Opcode.noConfusion
  payload := p
  form := formOf p.length
  fits := formOf_fits h
  key := none

/-- A text frame with a 16-bit length. -/
def textFrame (p : Bytes) (form : LengthForm) (h : form.Fits p.length) : WireFrame where
  fin := true
  opcode := .text
  named := fun _ => Opcode.noConfusion
  payload := p
  form := form
  fits := h
  key := none

/-- A frame without a key is its header and its payload. -/
theorem bytes_of_unmasked {f : WireFrame} (h : f.key = none) :
    f.bytes = f.first :: UInt8.ofNat (f.form.code f.payload.length) ::
      (f.form.extension f.payload.length ++ f.payload) := by
  unfold WireFrame.bytes WireFrame.second WireFrame.extension WireFrame.keyBytes WireFrame.body
  rw [h]
  simp

theorem bytes_binaryFrame {p : Bytes} (h : p.length < 2 ^ 63) :
    (binaryFrame p h).bytes = encodeBinary p := by
  have hfirst : (binaryFrame p h).first = 0x82 := by
    show (0x80 ||| 0x2 : UInt8) = 0x82
    decide
  rw [bytes_of_unmasked rfl, hfirst]
  show 0x82 :: UInt8.ofNat ((formOf p.length).code p.length) ::
    ((formOf p.length).extension p.length ++ p) = _
  unfold encodeBinary formOf
  dsimp only
  split_ifs with hshort hmedium
  · rfl
  · rw [medium_digits, Nat.mod_eq_of_lt (by omega)]
    rfl
  · rw [long_digits]
    rfl

theorem first_textFrame {p : Bytes} {form : LengthForm} (h : form.Fits p.length) :
    (textFrame p form h).first = 0x81 := by
  show (0x80 ||| 0x1 : UInt8) = 0x81
  decide

/-- Up to 125 bytes the length stands in the second byte. -/
theorem encodeText_of_lt {p : Bytes} (h : LengthForm.short.Fits p.length) :
    encodeText p = (textFrame p .short h).bytes := by
  have hlt : p.length < 126 := h
  unfold encodeText
  dsimp only
  rw [if_pos hlt, bytes_of_unmasked rfl, first_textFrame]
  rfl

/-- From 126 bytes on the frame has a 16-bit length, and what exceeds it follows the frame. -/
theorem encodeText_of_le {p : Bytes} (h : 126 ≤ p.length) :
    ∃ hfits, encodeText p
      = (textFrame (p.take (p.length % 2 ^ 16)) .medium hfits).bytes
        ++ p.drop (p.length % 2 ^ 16) := by
  have hlen : (p.take (p.length % 2 ^ 16)).length = p.length % 2 ^ 16 := by
    rw [List.length_take]
    exact Nat.min_eq_left (Nat.mod_le _ _)
  refine ⟨by show _ < 256 ^ 2; omega, ?_⟩
  unfold encodeText
  dsimp only
  rw [if_neg (by omega), medium_digits, bytes_of_unmasked rfl, first_textFrame]
  show 0x81 :: 126 :: (toBigEndian 2 (p.length % 2 ^ 16)) ++ p = 0x81 :: 126 ::
    (toBigEndian 2 (p.take (p.length % 2 ^ 16)).length ++ p.take (p.length % 2 ^ 16)) ++ _
  rw [hlen]
  simp

/-! ### Reading them -/

/-- The parser takes an encoded frame off the front of a buffer. -/
theorem readFrame_bytes_append (f : WireFrame) (hmax : f.payload.length < 2 ^ 63) (r : Bytes) :
    readFrame (f.bytes ++ r) noCap = .ok f.parsed := by
  have hcap : f.payload.length ≤ noCap := by
    unfold noCap
    omega
  rw [readFrame_eq, parseFrame_bytes_append f hcap (by omega) r]
  rfl

/-- A frame that is not complete consumes nothing. -/
theorem consumed_of_not_ok {buf : Bytes} {cap : Nat} {f : Frame} (h : parseFrame buf cap = some f)
    (hok : f.ok = false) : f.consumed = 0 := by
  cases parseFrame_cases h with
  | short _ => rfl
  | length _ _ => rfl
  | tooBig _ _ _ => rfl
  | payload _ _ _ _ => rfl
  | complete _ _ _ _ _ _ => cases hok

/-- **The other decoder** reads the payload of every accepted frame. -/
theorem decode_of_readFrame {buf : Bytes} {cap : Nat} {f : Frame}
    (h : readFrame buf cap = .ok f) (hok : f.ok = true) : decode buf = .ok f.payload := by
  have hparse : parseFrame buf cap = some f := by
    rw [readFrame_eq] at h
    cases hparse : parseFrame buf cap with
    | none =>
      rw [hparse] at h
      cases h
    | some g =>
      rw [hparse] at h
      cases h
      rfl
  cases parseFrame_cases hparse with
  | short _ => cases hok
  | length _ _ => cases hok
  | tooBig _ _ _ => cases hok
  | payload _ _ _ _ => cases hok
  -- Only a complete frame is accepted, and all that is read of it lies in the buffer.
  | complete hbuf hlen hcap hi hfull hmax =>
    rename_i first second rest len i
    have hheader := declaredLength_le hlen
    have hfour := keyLength_le second
    rw [Nat.mod_eq_of_lt (by omega)] at hfull
    have hsecond : byteAt buf 1 = .ok second := by
      rw [hbuf]
      rfl
    have hlong : ¬ buf.length < 2 := by
      rw [hbuf]
      simp
    unfold decode
    rw [if_neg hlong, hsecond]
    dsimp only [bind, Except.bind]
    rw [lengthField_of_declaredLength hlen]
    dsimp only
    rw [maskField_eq hi]
    dsimp only
    rw [reserve, if_neg (by omega)]
    show decodeLoop buf _ _ (i + keyLength second) len 0 = _
    rw [decodeLoop_eq_payloadLoop _ len 0 (by omega) (by omega)]
    exact payloadLoop_complete first hfull (by omega)

/-- **The binary codec.** What `encode_binary` writes is taken off the front of a buffer as one
frame, of exactly its bytes; a proper prefix is waited on; and `decode` reads what is accepted. -/
theorem encodeBinary_codec {p : Bytes} (hp : p.length < 2 ^ 63) :
    (∀ r, readFrame (encodeBinary p ++ r) noCap
      = .ok { opcode := .binary, payload := p, fin := true, masked := false, ok := true,
              consumed := (encodeBinary p).length }) ∧
    (∀ q, q <+: encodeBinary p → q ≠ encodeBinary p →
      ∃ f, readFrame q noCap = .ok f ∧ f.ok = false ∧ f.consumed = 0) ∧
    ∀ buf cap f, readFrame buf cap = .ok f → f.ok = true → decode buf = .ok f.payload := by
  have hbytes := bytes_binaryFrame hp
  refine ⟨fun r => ?_, fun q hq hne => ?_, fun buf cap f => decode_of_readFrame⟩
  · have hread := readFrame_bytes_append (binaryFrame p hp) hp r
    rw [hbytes] at hread
    rw [hread, WireFrame.parsed, hbytes]
    rfl
  · have hcap : (binaryFrame p hp).payload.length ≤ noCap := by
      show p.length ≤ noCap
      unfold noCap
      omega
    have hlt : q.length < (binaryFrame p hp).bytes.length := by
      rw [hbytes]
      exact Nat.lt_of_le_of_ne hq.length_le fun heq => hne (hq.eq_of_length heq)
    obtain ⟨f, hparse, hok, -⟩ := parseFrame_of_prefix (binaryFrame p hp) hcap
      (Nat.le_of_lt hp) (hbytes.symm ▸ hq) hlt
    exact ⟨f, by rw [readFrame_eq, hparse]; rfl, hok, consumed_of_not_ok hparse hok⟩

theorem encodeBinary_codec_applies :
    readFrame (encodeBinary (bytes "hi") ++ [7]) noCap
      = .ok { opcode := .binary, payload := bytes "hi", fin := true, masked := false, ok := true,
              consumed := 4 } :=
  (encodeBinary_codec (by decide)).1 [7]

/-- What `encode_text` writes is taken off the front of a buffer as one frame, of exactly its bytes,
and differs from the binary frame in the opcode only. -/
def TextRoundTrips (p : Bytes) : Prop :=
  (∀ r, readFrame (encodeText p ++ r) noCap
    = .ok { opcode := .text, payload := p, fin := true, masked := false, ok := true,
            consumed := (encodeText p).length }) ∧
  ∃ rest, encodeText p = 0x81 :: rest ∧ encodeBinary p = 0x82 :: rest

/-- From `2 ^ 16` bytes on the declared length is what is left of the length. -/
theorem readFrame_long_text {p : Bytes} (h : 2 ^ 16 ≤ p.length) :
    ∃ f, readFrame (encodeText p) noCap = .ok f ∧ f.ok = true ∧
      f.payload = p.take (p.length % 2 ^ 16) ∧ f.payload ≠ p := by
  obtain ⟨hfits, hencode⟩ := encodeText_of_le (p := p) (by omega)
  have hlen : (p.take (p.length % 2 ^ 16)).length < p.length := by
    rw [List.length_take]
    omega
  have hshort : (textFrame (p.take (p.length % 2 ^ 16)) .medium hfits).payload.length < 2 ^ 63 := by
    show (p.take (p.length % 2 ^ 16)).length < 2 ^ 63
    rw [List.length_take]
    omega
  have hread := readFrame_bytes_append _ hshort (p.drop (p.length % 2 ^ 16))
  rw [← hencode] at hread
  refine ⟨_, hread, rfl, rfl, fun heq => ?_⟩
  have heq : p.take (p.length % 2 ^ 16) = p := heq
  rw [heq] at hlen
  exact absurd hlen (lt_irrefl _)

/-- Shorter payloads are read back. -/
theorem textRoundTrips_of_lt {p : Bytes} (h : p.length < 2 ^ 16) : TextRoundTrips p := by
  obtain ⟨f, hbytes, hparsed, hlen⟩ : ∃ f : WireFrame, f.bytes = encodeText p ∧
      f.parsed = { opcode := .text, payload := p, fin := true, masked := false, ok := true,
                   consumed := f.bytes.length } ∧ f.payload.length < 2 ^ 63 := by
    by_cases hshort : p.length < 126
    · exact ⟨_, (encodeText_of_lt hshort).symm, rfl, by show p.length < _; omega⟩
    · obtain ⟨hfits, hencode⟩ := encodeText_of_le (p := p) (by omega)
      simp only [Nat.mod_eq_of_lt h, List.take_length, List.drop_length, List.append_nil] at hencode
      exact ⟨_, hencode.symm, rfl, by show p.length < _; omega⟩
  constructor
  · intro r
    rw [← hbytes, readFrame_bytes_append f hlen r, hparsed]
  · refine ⟨_, rfl, ?_⟩
    unfold encodeBinary
    dsimp only
    by_cases hshort : p.length < 126
    · rw [if_pos hshort, if_pos hshort]
      rfl
    · rw [if_neg hshort, if_neg hshort, if_pos (by omega)]
      rfl

/-- **Exactly the text frames of less than `2 ^ 16` bytes can be read.** -/
theorem textRoundTrips_iff (p : Bytes) : TextRoundTrips p ↔ p.length < 2 ^ 16 := by
  refine ⟨fun h => ?_, textRoundTrips_of_lt⟩
  by_contra hlong
  obtain ⟨f, hread, -, -, hne⟩ := readFrame_long_text (p := p) (by omega)
  have hwhole := h.1 []
  rw [List.append_nil, hread] at hwhole
  cases hwhole
  exact hne rfl

/-- **A text of `2 ^ 16` bytes** is read as an empty one. -/
theorem long_text_is_cut :
    (∃ f, readFrame (encodeText (List.replicate (2 ^ 16) 97)) noCap = .ok f ∧ f.ok = true ∧
      f.payload = []) ∧
    ¬ TextRoundTrips (List.replicate (2 ^ 16) 97) := by
  have hlen : (List.replicate (2 ^ 16) (97 : UInt8)).length = 2 ^ 16 := List.length_replicate
  obtain ⟨f, hread, hok, hpayload, hne⟩ := readFrame_long_text (le_of_eq hlen.symm)
  rw [hlen, Nat.mod_self, List.take_zero] at hpayload
  refine ⟨⟨f, hread, hok, hpayload⟩, fun h => ?_⟩
  have hwhole := h.1 []
  rw [List.append_nil, hread] at hwhole
  exact hne (congrArg Frame.payload (Except.ok.inj hwhole))

end CppLaravel.WebSocket
