import CppLaravel.Proofs.WebSocket.Parse
import CppLaravel.WebSocket.Codec

/-!
# `CppLaravel.Proofs.WebSocket.Codec`: the decoders stay inside the buffer

`readFrame_eq` connects `readFrame`, which reads byte by byte, with `parseFrame`: they agree, and
the only fault is a `reserve` that throws. So what is proved of `parseFrame` holds of the code.

* `parsesSafely_iff`: the parser answers as documented exactly when the end of the declared payload
  is a `std::size_t`.
* `declared_end_wraps`: ten bytes that make it throw.
-/

set_option autoImplicit false

namespace CppLaravel.WebSocket

open CppLaravel.Lib

/-! ### Reads in bounds -/

theorem byteAt_of_lt {buf : Bytes} {k : Nat} (h : k < buf.length) : byteAt buf k = .ok buf[k] := by
  unfold byteAt
  rw [List.getElem?_eq_getElem h]

/-- A part of the buffer that begins with a byte. -/
theorem take_succ_drop {buf : Bytes} {k : Nat} (n : Nat) (h : k < buf.length) :
    (buf.drop k).take (n + 1) = buf[k] :: (buf.drop (k + 1)).take n := by
  rw [List.drop_eq_getElem_cons h, List.take_succ_cons]

/-- One more digit. -/
theorem shift_or (n : Nat) (b : UInt8) : (n <<< 8) ||| b.toNat = n * 256 + b.toNat := by
  have hb : b.toNat < 2 ^ 8 := UInt8.toNat_lt b
  rw [← Nat.shiftLeft_add_eq_or_of_lt hb, Nat.shiftLeft_eq]

/-- Digits that are read behind a small number do not overflow. -/
theorem foldl_lt {l : Bytes} {k acc : Nat} (h : acc < 256 ^ k) :
    l.foldl (fun n b => n * 256 + b.toNat) acc < 256 ^ (k + l.length) := by
  induction l generalizing k acc with
  | nil => exact h
  | cons b l ih =>
    have hb : b.toNat < 256 := UInt8.toNat_lt b
    have hnext : acc * 256 + b.toNat < 256 ^ (k + 1) := by
      rw [Nat.pow_succ]
      omega
    have hlen : k + (b :: l).length = k + 1 + l.length := by
      rw [List.length_cons]
      omega
    rw [List.foldl_cons, hlen]
    exact ih hnext

/-- **The length loop** reads the number that the bytes denote. -/
theorem lengthLoop_eq {buf : Bytes} (n k m len : Nat) (hbuf : k + n ≤ buf.length)
    (hlen : len < 256 ^ m) (hm : m + n ≤ 8) :
    lengthLoop buf n k len
      = .ok (((buf.drop k).take n).foldl (fun n b => n * 256 + b.toNat) len) := by
  -- On the bytes that are left; after `m` of them the number has `m` digits.
  induction n generalizing k m len with
  | zero => rfl
  | succ n ih =>
    have hk : k < buf.length := by omega
    have hb : buf[k].toNat < 256 := UInt8.toNat_lt _
    have hnext : len * 256 + buf[k].toNat < 256 ^ (m + 1) := by
      rw [Nat.pow_succ]
      omega
    have hfits : len * 256 + buf[k].toNat < 2 ^ 64 :=
      Nat.lt_of_lt_of_le hnext (Nat.pow_le_pow_right (by omega) (by omega : m + 1 ≤ 8))
    rw [lengthLoop, byteAt_of_lt hk, take_succ_drop n hk, List.foldl_cons]
    show lengthLoop buf n (k + 1) _ = _
    rw [shift_or, Nat.mod_eq_of_lt hfits]
    exact ih (k + 1) (m + 1) _ (by omega) hnext (by omega)

/-- The length field, when the buffer holds it. -/
theorem lengthField_of_declaredLength {buf : Bytes} {second : UInt8} {len i : Nat}
    (h : declaredLength buf second = some (len, i)) : lengthField buf second = .ok (len, i) := by
  unfold declaredLength at h
  unfold lengthField
  dsimp only at h ⊢
  split at h
  · rename_i h126
    split at h
    · cases h
    · rename_i hlong
      have h2 : 2 < buf.length := by omega
      have h3 : 3 < buf.length := by omega
      cases h
      -- Two bytes, joined by a shift and an or.
      rw [if_pos h126, byteAt_of_lt h2, byteAt_of_lt h3, take_succ_drop 1 h2,
        take_succ_drop 0 h3]
      show Except.ok (_, 4) = _
      rw [shift_or]
      simp [bigEndian]
  · rename_i h126
    rw [if_neg h126]
    split at h
    · rename_i h127
      rw [if_pos h127]
      split at h
      · cases h
      · cases h
        -- Eight bytes, read in a loop.
        rw [lengthLoop_eq 8 2 0 0 (by omega) (by omega) (by omega)]
        rfl
    · rename_i h127
      rw [if_neg h127]
      cases h
      rfl

/-- The masking key, when the buffer holds it. -/
theorem maskField_eq {buf : Bytes} {second : UInt8} {i : Nat}
    (h : i + keyLength second ≤ buf.length) :
    maskField buf (second &&& 0x80 ≠ 0) i
      = .ok (maskAt buf second i, i + keyLength second) := by
  unfold maskField maskAt keyLength
  unfold keyLength at h
  by_cases hmask : second &&& 0x80 ≠ 0
  · rw [if_pos hmask] at h
    rw [if_pos (decide_eq_true hmask), if_pos hmask, if_pos hmask]
    have h0 : i < buf.length := by omega
    have h1 : i + 1 < buf.length := by omega
    have h2 : i + 1 + 1 < buf.length := by omega
    have h3 : i + 1 + 1 + 1 < buf.length := by omega
    rw [byteAt_of_lt h0, byteAt_of_lt h1, byteAt_of_lt h2, byteAt_of_lt h3, take_succ_drop 3 h0,
      take_succ_drop 2 h1, take_succ_drop 1 h2, take_succ_drop 0 h3, List.take_zero]
    rfl
  · rw [if_neg (by simpa using hmask), if_neg hmask, if_neg hmask]
    rfl

/-- The payload behind the mask, from the index `j` on. -/
theorem payloadLoop_eq {buf mask : Bytes} (masked : Bool) {i : Nat} (n j : Nat)
    (hbuf : i + j + n ≤ buf.length) (hfits : i + j + n < 2 ^ 64) :
    payloadLoop buf mask masked i n j
      = .ok (((buf.drop (i + j)).take n).mapIdx fun k c => unmask mask masked c (j + k)) := by
  induction n generalizing j with
  | zero => simp [payloadLoop]
  | succ n ih =>
    have hlt : i + j < buf.length := by omega
    have hmod : (i + j) % 2 ^ 64 = i + j := Nat.mod_eq_of_lt (by omega)
    have hrest := ih (j + 1) (by omega) (by omega)
    rw [payloadLoop, hmod, byteAt_of_lt hlt, hrest, take_succ_drop n hlt, List.mapIdx_cons]
    show Except.ok (_ :: _) = _
    congr 2
    rw [← Nat.add_assoc i j 1]
    congr 1
    funext k c
    rw [Nat.add_assoc, Nat.add_comm 1 k]

/-- In a whole frame the other loop reads the same. -/
theorem decodeLoop_eq_payloadLoop {frame mask : Bytes} (masked : Bool) {i : Nat} (n j : Nat)
    (hbuf : i + j + n ≤ frame.length) (hfits : i + j + n < 2 ^ 64) :
    decodeLoop frame mask masked i n j = payloadLoop frame mask masked i n j := by
  induction n generalizing j with
  | zero => rfl
  | succ n ih =>
    have hmod : (i + j) % 2 ^ 64 = i + j := Nat.mod_eq_of_lt (by omega)
    rw [decodeLoop, payloadLoop, hmod, if_pos (by omega), ih (j + 1) (by omega) (by omega)]

/-- What the loop reads is the payload of the complete frame. -/
theorem payloadLoop_complete {buf : Bytes} (first : UInt8) {second : UInt8} {i len : Nat}
    (hbuf : i + keyLength second + len ≤ buf.length) (hfits : i + keyLength second + len < 2 ^ 64) :
    payloadLoop buf (maskAt buf second i) (second &&& 0x80 ≠ 0) (i + keyLength second) len 0
      = .ok (completeFrame buf first second i len).payload := by
  rw [payloadLoop_eq _ len 0 (by omega) (by omega)]
  unfold completeFrame unmask
  by_cases hmask : second &&& 0x80 ≠ 0
  · simp [hmask, applyMask]
  · -- Without a mask every byte stays as it is.
    simp only [hmask]
    congr 1
    apply List.ext_getElem <;> simp

/-! ### The two models of the parser -/

theorem declaredLength_eq_none_iff {buf : Bytes} {second : UInt8} :
    declaredLength buf second = none ↔
      (second &&& 0x7F).toNat = 126 ∧ buf.length < 4 ∨
        (second &&& 0x7F).toNat = 127 ∧ buf.length < 10 := by
  unfold declaredLength
  dsimp only
  split_ifs with h126 hshort h127 hshort <;> simp_all

/-- The parser from the length field on. -/
theorem parseFrame_cons_cons (first second : UInt8) (rest : Bytes) (maxPayload : Nat) :
    parseFrame (first :: second :: rest) maxPayload =
      match declaredLength (first :: second :: rest) second with
      | none => some (headerFrame first second)
      | some (len, i) =>
        if maxPayload < len then some { headerFrame first second with tooBig := true }
        else if decide (second &&& 0x80 ≠ 0) then
          if (first :: second :: rest).length < i + 4 then some (headerFrame first second)
          else parsePayload (headerFrame first second) (first :: second :: rest)
            (((first :: second :: rest).drop i).take 4) (i + 4) len
        else parsePayload (headerFrame first second) (first :: second :: rest) [0, 0, 0, 0] i
          len := rfl

/-- The end of `readFrame`, from the position of the payload on. -/
theorem reserve_payloadLoop (buf : Bytes) (first second : UInt8) {i : Nat} (len : Nat)
    (hi : i ≤ 10) :
    (if buf.length < (i + keyLength second + len) % 2 ^ 64 then
        Except.ok (headerFrame first second)
      else do
        reserve len
        let payload ← payloadLoop buf (maskAt buf second i) (second &&& 0x80 ≠ 0)
          (i + keyLength second) len 0
        Except.ok { headerFrame first second with
          payload := payload
          consumed := (i + keyLength second + len) % 2 ^ 64
          ok := true })
      = (parsePayload (headerFrame first second) buf (maskAt buf second i) (i + keyLength second)
          len).elim (.error .lengthError) .ok := by
  have hfour := keyLength_le second
  unfold parsePayload reserve
  by_cases hshort : buf.length < (i + keyLength second + len) % 2 ^ 64
  · rw [if_pos hshort, if_pos hshort]
    rfl
  · rw [if_neg hshort, if_neg hshort]
    by_cases hmax : 2 ^ 63 < len
    · rw [if_pos hmax, if_pos hmax]
      rfl
    · -- The sum has not wrapped around, so the payload lies in the buffer.
      have hsum : (i + keyLength second + len) % 2 ^ 64 = i + keyLength second + len :=
        Nat.mod_eq_of_lt (by omega)
      rw [hsum] at hshort
      rw [if_neg hmax, if_neg hmax, payloadLoop_complete first (by omega) (by omega)]
      simp [headerFrame, completeFrame, bind, Except.bind]

/-- **Byte by byte the parser does the same**, and never reads behind the end of the buffer: its
only fault is that of `reserve`. -/
theorem readFrame_eq (buf : Bytes) (maxPayload : Nat) :
    readFrame buf maxPayload = (parseFrame buf maxPayload).elim (.error .lengthError) .ok := by
  match buf with
  | [] => rfl
  | [_] => rfl
  | first :: second :: rest =>
    rw [parseFrame_cons_cons]
    unfold readFrame
    rw [if_neg (by simp)]
    show (if _ then _ else _) = _
    cases hlen : declaredLength (first :: second :: rest) second with
    | none =>
      rcases declaredLength_eq_none_iff.mp hlen with h | h
      · rw [if_pos h]
        rfl
      · rw [if_neg (by omega), if_pos h]
        rfl
    | some p =>
      obtain ⟨len, i⟩ := p
      have hnot := mt declaredLength_eq_none_iff.mpr (by rw [hlen]; exact Option.some_ne_none _)
      rw [not_or] at hnot
      have hi := declaredLength_le hlen
      have hle := length_of_declaredLength hlen (by simp)
      rw [if_neg hnot.1, if_neg hnot.2, lengthField_of_declaredLength hlen]
      show (if _ then _ else if _ then _ else _) = Option.elim (if _ then _ else _) _ _
      by_cases hcap : maxPayload < len
      · rw [if_pos hcap, if_pos hcap]
        rfl
      · rw [if_neg hcap, if_neg hcap]
        have hend := reserve_payloadLoop (first :: second :: rest) first second len hi.2
        by_cases hmask : second &&& 0x80 ≠ 0
        · -- With the mask bit a key of four bytes stands before the payload.
          have hfour : keyLength second = 4 := if_pos hmask
          by_cases hshort : (first :: second :: rest).length < i + 4
          · rw [if_pos ⟨decide_eq_true hmask, hshort⟩, if_pos (decide_eq_true hmask),
              if_pos hshort]
            rfl
          · rw [if_neg (fun h => hshort h.2), if_pos (decide_eq_true hmask), if_neg hshort,
              maskField_eq (by rw [hfour]; exact not_lt.mp hshort)]
            rw [maskAt, if_pos hmask, hfour] at hend
            rw [maskAt, if_pos hmask, hfour]
            exact hend
        · have hzero : keyLength second = 0 := if_neg hmask
          have hclear : ¬ decide (second &&& 0x80 ≠ 0) = true := by simpa using hmask
          rw [if_neg (fun h => hclear h.1), if_neg hclear,
            maskField_eq (by rw [hzero]; exact hle)]
          rw [maskAt, if_neg hmask, hzero] at hend
          rw [maskAt, if_neg hmask, hzero]
          exact hend

/-! ### When the parser answers as documented -/

/-- The size of the header with the masking key, and the declared length, once all of it has
arrived. -/
def headerOf (buf : Bytes) : Option (Nat × Nat) :=
  match buf with
  | _ :: second :: _ =>
    match declaredLength buf second with
    | none => none
    | some (len, i) =>
      if buf.length < i + keyLength second then none else some (i + keyLength second, len)
  | _ => none

/-- The parser reads in bounds and does not throw; it accepts exactly the whole frames of an
accepted length, with all their bytes; a frame that is not there yet is waited for, or too big. -/
def ParsesSafely (buf : Bytes) (maxPayload : Nat) : Prop :=
  ∃ f, readFrame buf maxPayload = .ok f ∧
    (f.ok = true ↔ ∃ size len, headerOf buf = some (size, len) ∧ len ≤ maxPayload ∧
      size + len ≤ buf.length) ∧
    (∀ size len, headerOf buf = some (size, len) →
      (f.ok = true → f.consumed = size + len ∧ f.consumed ≤ buf.length) ∧
        (buf.length < size + len → f.ok = false ∧ (f.tooBig = true ↔ maxPayload < len)))

/-- A length is accepted that puts the end of the payload beyond the largest `std::size_t`. -/
def WrapsAround (buf : Bytes) (maxPayload : Nat) : Prop :=
  ∃ size len, headerOf buf = some (size, len) ∧ len ≤ maxPayload ∧ 2 ^ 64 ≤ size + len

/-- The declared length is a 64-bit number. -/
theorem declaredLength_lt {buf : Bytes} {second : UInt8} {len i : Nat}
    (h : declaredLength buf second = some (len, i)) : len < 2 ^ 64 := by
  have hdigits : ∀ k, k ≤ 8 → bigEndian ((buf.drop 2).take k) < 2 ^ 64 := by
    intro k hk
    have hlt : bigEndian ((buf.drop 2).take k) < 256 ^ (0 + ((buf.drop 2).take k).length) :=
      foldl_lt (by omega)
    have hlen : 0 + ((buf.drop 2).take k).length ≤ 8 := by
      rw [List.length_take]
      omega
    exact Nat.lt_of_lt_of_le hlt (Nat.pow_le_pow_right (by omega) hlen)
  unfold declaredLength at h
  dsimp only at h
  split_ifs at h with h126 h127
  · cases h
    exact hdigits 2 (by omega)
  · cases h
    exact hdigits 8 (by omega)
  · cases h
    have hlt := UInt8.toNat_lt (second &&& 0x7F)
    omega

/-- Without the whole header nothing is accepted. -/
theorem parseFrame_of_headerOf_none {buf : Bytes} (h : headerOf buf = none) (maxPayload : Nat) :
    ∃ f, parseFrame buf maxPayload = some f ∧ f.ok = false := by
  match buf with
  | [] => exact ⟨_, rfl, rfl⟩
  | [_] => exact ⟨_, rfl, rfl⟩
  | first :: second :: rest =>
    unfold headerOf at h
    rw [parseFrame_cons_cons]
    cases hlen : declaredLength (first :: second :: rest) second with
    | none => exact ⟨_, rfl, rfl⟩
    | some p =>
      obtain ⟨len, i⟩ := p
      dsimp only at h
      rw [hlen] at h
      dsimp only at h ⊢
      by_cases hcap : maxPayload < len
      · rw [if_pos hcap]
        exact ⟨_, rfl, rfl⟩
      · rw [if_neg hcap]
        -- The length field has arrived, so it is the masking key that is missing.
        have hle := length_of_declaredLength hlen (by simp)
        by_cases hmask : second &&& 0x80 ≠ 0
        · rw [keyLength, if_pos hmask, ite_eq_left_iff] at h
          have hshort : (first :: second :: rest).length < i + 4 := by
            by_contra hno
            cases h hno
          rw [if_pos (decide_eq_true hmask), if_pos hshort]
          exact ⟨_, rfl, rfl⟩
        · rw [keyLength, if_neg hmask, if_neg (by omega)] at h
          cases h

/-- Behind a whole header the length decides, and then the size. -/
theorem parseFrame_of_headerOf_some {buf : Bytes} {size len : Nat}
    (h : headerOf buf = some (size, len)) :
    size ≤ buf.length ∧ size ≤ 14 ∧ len < 2 ^ 64 ∧ ∃ first second mask, ∀ maxPayload,
      parseFrame buf maxPayload =
        if maxPayload < len then some { headerFrame first second with tooBig := true }
        else parsePayload (headerFrame first second) buf mask size len := by
  unfold headerOf at h
  split at h
  · rename_i first second rest
    cases hlen : declaredLength (first :: second :: rest) second with
    | none =>
      rw [hlen] at h
      cases h
    | some p =>
      obtain ⟨len', i⟩ := p
      have hi := declaredLength_le hlen
      have hfour := keyLength_le second
      rw [hlen] at h
      dsimp only at h
      rw [Option.ite_none_left_eq_some, Option.some.injEq, Prod.mk.injEq] at h
      obtain ⟨hle, rfl, rfl⟩ := h
      refine ⟨not_lt.mp hle, by omega, declaredLength_lt hlen, first, second,
        maskAt (first :: second :: rest) second i, fun maxPayload => ?_⟩
      rw [parseFrame_cons_cons, hlen]
      dsimp only
      -- A frame beyond the cap is refused before its key is looked at.
      by_cases hcap : maxPayload < len'
      · rw [if_pos hcap, if_pos hcap]
      · rw [if_neg hcap, if_neg hcap]
        by_cases hmask : second &&& 0x80 ≠ 0
        · have hkey : keyLength second = 4 := if_pos hmask
          rw [hkey] at hle ⊢
          rw [if_pos (decide_eq_true hmask), if_neg hle, maskAt, if_pos hmask]
        · have hkey : keyLength second = 0 := if_neg hmask
          have hclear : ¬ decide (second &&& 0x80 ≠ 0) = true := by simpa using hmask
          rw [hkey, if_neg hclear, maskAt, if_neg hmask]
          rfl
  · cases h

/-- A sum that wraps around makes `reserve` throw. -/
theorem readFrame_of_wrapsAround {buf : Bytes} {maxPayload : Nat} (h : WrapsAround buf maxPayload) :
    readFrame buf maxPayload = .error .lengthError := by
  obtain ⟨size, len, hheader, hcap, hwraps⟩ := h
  obtain ⟨hsize, hfourteen, hlen, first, second, mask, hparse⟩ :=
    parseFrame_of_headerOf_some hheader
  -- What is left of the sum is less than the header, which is there.
  rw [readFrame_eq, hparse, if_neg (by omega), parsePayload, if_neg (by omega), if_pos (by omega)]
  rfl

/-- **Exactly where no accepted length wraps around the parser answers as documented.** No string
is longer than `2 ^ 63`. -/
theorem parsesSafely_iff {buf : Bytes} (hbuf : buf.length ≤ 2 ^ 63) (maxPayload : Nat) :
    ParsesSafely buf maxPayload ↔ ¬ WrapsAround buf maxPayload := by
  constructor
  · rintro ⟨f, hread, -⟩ hwraps
    rw [readFrame_of_wrapsAround hwraps] at hread
    cases hread
  · intro hfits
    cases hheader : headerOf buf with
    | none =>
      obtain ⟨f, hparse, hok⟩ := parseFrame_of_headerOf_none hheader maxPayload
      refine ⟨f, by rw [readFrame_eq, hparse]; rfl, ?_, ?_⟩
      · simp [hok, hheader]
      · intro size len h
        rw [hheader] at h
        cases h
    | some p =>
      obtain ⟨size, len⟩ := p
      obtain ⟨hsize, hfourteen, hlen, first, second, mask, hparse⟩ :=
        parseFrame_of_headerOf_some hheader
      unfold ParsesSafely
      rw [readFrame_eq, hparse, hheader]
      by_cases hcap : maxPayload < len
      · -- Refused for the length alone.
        rw [if_pos hcap]
        refine ⟨_, rfl, ?_, ?_⟩
        · simp [headerFrame]
          omega
        · intro size' len' h
          cases h
          simp [headerFrame, hcap]
      · have hsum : (size + len) % 2 ^ 64 = size + len := by
          refine Nat.mod_eq_of_lt ?_
          by_contra hwraps
          exact hfits ⟨size, len, hheader, by omega, by omega⟩
        rw [if_neg hcap, parsePayload, hsum]
        by_cases hshort : buf.length < size + len
        · -- The payload has not arrived.
          rw [if_pos hshort]
          refine ⟨_, rfl, ?_, ?_⟩
          · simp [headerFrame]
            omega
          · intro size' len' h
            cases h
            simp [headerFrame, hcap]
        · rw [if_neg hshort, if_neg (by omega)]
          refine ⟨_, rfl, ?_, ?_⟩
          · simp
            omega
          · intro size' len' h
            cases h
            simp
            omega

/-- The whole of a frame, and a header that waits for a gigabyte under the default cap. -/
theorem parsesSafely_iff_applies :
    ParsesSafely [0x82, 0x02, 104, 105] noCap ∧
      ParsesSafely [0x82, 0x7F, 0, 0, 0, 0, 0x40, 0, 0, 0] noCap := by
  refine ⟨(parsesSafely_iff (by decide) noCap).mpr ?_, (parsesSafely_iff (by decide) noCap).mpr ?_⟩
  · rintro ⟨size, len, hheader, -, hwraps⟩
    cases hheader
    exact absurd hwraps (by decide)
  · rintro ⟨size, len, hheader, -, hwraps⟩
    cases hheader
    exact absurd hwraps (by decide)

/-- **Ten bytes that make the parser throw**: a declared length of `2 ^ 64 - 10`, under the default
cap. -/
theorem declared_end_wraps :
    readFrame [0x82, 0x7F, 0xFF, 0xFF, 0xFF, 0xFF, 0xFF, 0xFF, 0xFF, 0xF6] noCap
      = .error .lengthError ∧
    ¬ ParsesSafely [0x82, 0x7F, 0xFF, 0xFF, 0xFF, 0xFF, 0xFF, 0xFF, 0xFF, 0xF6] noCap := by
  have hread : readFrame [0x82, 0x7F, 0xFF, 0xFF, 0xFF, 0xFF, 0xFF, 0xFF, 0xFF, 0xF6] noCap
      = .error .lengthError := by
    decide
  refine ⟨hread, fun ⟨f, h, _⟩ => ?_⟩
  rw [hread] at h
  cases h

end CppLaravel.WebSocket
