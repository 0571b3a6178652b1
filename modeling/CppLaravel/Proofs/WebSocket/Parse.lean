import CppLaravel.WebSocket.Frame

/-!
# `CppLaravel.Proofs.WebSocket.Parse`: what the parser decides, and when

`parseFrame_cases` lists the answers of `parseFrame`: it waits for more bytes, refuses the
declared length, or returns a complete frame. The rest is read off this list.

* `parseFrame_append`: an answer other than waiting does not change when more bytes arrive.
* `length_lt_of_waiting`: a buffer that is waited on is shorter than the cap and 14 bytes.
* `length_payload_le`, `add_length_payload_le`: a complete frame has no longer a payload than
  the cap, and than the bytes it occupies.
-/

set_option autoImplicit false

namespace CppLaravel.WebSocket

open CppLaravel.Lib

/-- The frame before its length is looked at: the bits of the first two bytes. -/
def headerFrame (first second : UInt8) : Frame where
  fin := first &&& 0x80 ≠ 0
  opcode := Opcode.ofByte first
  masked := second &&& 0x80 ≠ 0

/-- The bytes of the masking key. -/
def keyLength (second : UInt8) : Nat := if second &&& 0x80 ≠ 0 then 4 else 0

/-- The masking key, or zeros. -/
def maskAt (buf : Bytes) (second : UInt8) (i : Nat) : Bytes :=
  if second &&& 0x80 ≠ 0 then (buf.drop i).take 4 else [0, 0, 0, 0]

/-- The frame whose payload of `len` bytes stands at the position `i`. -/
def completeFrame (buf : Bytes) (first second : UInt8) (i len : Nat) : Frame :=
  { headerFrame first second with
    payload :=
      if second &&& 0x80 ≠ 0 then
        applyMask (maskAt buf second i) ((buf.drop (i + keyLength second)).take len)
      else (buf.drop (i + keyLength second)).take len
    consumed := (i + keyLength second + len) % 2 ^ 64
    ok := true }

/-- What `parseFrame` answers: it waits for the first two bytes, for the length field, or for
the key and the payload; it refuses the length; or the frame is complete. -/
inductive Parsed (buf : Bytes) (cap : Nat) : Frame → Prop
  | short : buf.length < 2 → Parsed buf cap {}
  | length {first second : UInt8} {rest : Bytes} :
      buf = first :: second :: rest → declaredLength buf second = none →
      Parsed buf cap (headerFrame first second)
  | tooBig {first second : UInt8} {rest : Bytes} {len i : Nat} :
      buf = first :: second :: rest → declaredLength buf second = some (len, i) → cap < len →
      Parsed buf cap { headerFrame first second with tooBig := true }
  | payload {first second : UInt8} {rest : Bytes} {len i : Nat} :
      buf = first :: second :: rest → declaredLength buf second = some (len, i) → len ≤ cap →
      (buf.length < i + keyLength second ∨
        buf.length < (i + keyLength second + len) % 2 ^ 64) →
      Parsed buf cap (headerFrame first second)
  | complete {first second : UInt8} {rest : Bytes} {len i : Nat} :
      buf = first :: second :: rest → declaredLength buf second = some (len, i) → len ≤ cap →
      i + keyLength second ≤ buf.length →
      (i + keyLength second + len) % 2 ^ 64 ≤ buf.length → len ≤ 2 ^ 63 →
      Parsed buf cap (completeFrame buf first second i len)

/-- The length field lies in the buffer. -/
theorem length_of_declaredLength {buf : Bytes} {second : UInt8} {len i : Nat}
    (h : declaredLength buf second = some (len, i)) (hbuf : 2 ≤ buf.length) : i ≤ buf.length := by
  simp only [declaredLength] at h
  split at h
  · split at h <;> cases h
    omega
  · split at h
    · split at h <;> cases h
      omega
    · cases h
      exact hbuf

/-- A length field that has arrived does not change. -/
theorem declaredLength_append {buf : Bytes} {second : UInt8} {len i : Nat}
    (h : declaredLength buf second = some (len, i)) (t : Bytes) :
    declaredLength (buf ++ t) second = some (len, i) := by
  have htake : ∀ k, 2 + k ≤ buf.length →
      ((buf ++ t).drop 2).take k = (buf.drop 2).take k := by
    intro k hk
    rw [List.drop_append_of_le_length (by omega), List.take_append_of_le_length]
    rw [List.length_drop]
    omega
  simp only [declaredLength] at h ⊢
  split at h
  · rename_i h126
    rw [if_pos h126]
    split at h
    · cases h
    · rw [if_neg (by rw [List.length_append]; omega), htake 2 (by omega)]
      exact h
  · rename_i h126
    rw [if_neg h126]
    split at h
    · rename_i h127
      rw [if_pos h127]
      split at h
      · cases h
      · rw [if_neg (by rw [List.length_append]; omega), htake 8 (by omega)]
        exact h
    · rename_i h127
      rw [if_neg h127]
      exact h

/-- The answers of the parser from the position of the payload on. -/
theorem parsed_of_parsePayload {buf rest : Bytes} {cap : Nat} {first second : UInt8}
    {len i : Nat} {f : Frame} (hbuf : buf = first :: second :: rest)
    (hlen : declaredLength buf second = some (len, i)) (hcap : len ≤ cap)
    (hi : i + keyLength second ≤ buf.length)
    (h : parsePayload (headerFrame first second) buf (maskAt buf second i)
      (i + keyLength second) len = some f) : Parsed buf cap f := by
  rw [parsePayload] at h
  split at h
  · rename_i hshort
    cases h
    exact .payload hbuf hlen hcap (.inr hshort)
  · rename_i hfull
    split at h
    · cases h
    · rename_i hmax
      cases h
      have hcomplete := Parsed.complete hbuf hlen hcap hi (not_lt.mp hfull) (not_lt.mp hmax)
      simp only [completeFrame] at hcomplete
      convert hcomplete using 2
      simp [headerFrame]

/-- **The answers of the parser.** -/
theorem parseFrame_cases {buf : Bytes} {cap : Nat} {f : Frame}
    (h : parseFrame buf cap = some f) : Parsed buf cap f := by
  rw [parseFrame.eq_def] at h
  split at h
  · rename_i first second rest
    dsimp only at h
    cases hlen : declaredLength (first :: second :: rest) second with
    | none =>
      rw [hlen] at h
      cases h
      exact .length rfl hlen
    | some p =>
      obtain ⟨len, i⟩ := p
      rw [hlen] at h
      dsimp only at h
      split at h
      · rename_i hcap
        cases h
        exact .tooBig rfl hlen hcap
      · rename_i hcap
        split at h
        · rename_i hmask
          have hkey : keyLength second = 4 := if_pos (of_decide_eq_true hmask)
          split at h
          · rename_i hshort
            cases h
            exact .payload rfl hlen (not_lt.mp hcap) (.inl (by rw [hkey]; exact hshort))
          · rename_i hfull
            refine parsed_of_parsePayload rfl hlen (not_lt.mp hcap) ?_ ?_
            · rw [hkey]
              exact not_lt.mp hfull
            · rw [hkey, maskAt, if_pos (of_decide_eq_true hmask)]
              exact h
        · rename_i hmask
          have hmask : ¬ second &&& 0x80 ≠ 0 := fun hset => hmask (decide_eq_true hset)
          have hkey : keyLength second = 0 := if_neg hmask
          refine parsed_of_parsePayload rfl hlen (not_lt.mp hcap) ?_ ?_
          · rw [hkey]
            exact length_of_declaredLength hlen (by simp)
          · rw [hkey, maskAt, if_neg hmask]
            exact h
  · rename_i hshort
    cases h
    refine .short ?_
    cases buf with
    | nil => exact Nat.zero_lt_two
    | cons first buf =>
      cases buf with
      | nil => exact Nat.lt_succ_self 1
      | cons second rest => exact absurd rfl (hshort first second rest)

theorem keyLength_le (second : UInt8) : keyLength second ≤ 4 := by
  rw [keyLength]
  split <;> omega

/-- A length that is refused is refused from the header on. -/
theorem parseFrame_of_tooBig {first second : UInt8} {rest : Bytes} {cap len i : Nat}
    (hlen : declaredLength (first :: second :: rest) second = some (len, i)) (hcap : cap < len) :
    parseFrame (first :: second :: rest) cap =
      some { headerFrame first second with tooBig := true } := by
  simp only [parseFrame]
  rw [hlen]
  dsimp only
  rw [if_pos hcap]
  rfl

/-- A frame is complete once all its bytes have arrived. -/
theorem parseFrame_of_complete {first second : UInt8} {rest : Bytes} {cap len i : Nat}
    (hlen : declaredLength (first :: second :: rest) second = some (len, i)) (hcap : len ≤ cap)
    (hfull : i + keyLength second + len ≤ (first :: second :: rest).length)
    (hmax : len ≤ 2 ^ 63) : parseFrame (first :: second :: rest) cap =
      some (completeFrame (first :: second :: rest) first second i len) := by
  have hi := declaredLength_le hlen
  have hkey := keyLength_le second
  have hsum : (i + keyLength second + len) % 2 ^ 64 = i + keyLength second + len :=
    Nat.mod_eq_of_lt (by omega)
  have hpayload : parsePayload (headerFrame first second) (first :: second :: rest)
      (maskAt (first :: second :: rest) second i) (i + keyLength second) len =
        some (completeFrame (first :: second :: rest) first second i len) := by
    rw [parsePayload, if_neg (by rw [hsum]; exact not_lt.mpr hfull), if_neg (not_lt.mpr hmax),
      completeFrame]
    simp [headerFrame]
  simp only [parseFrame]
  rw [hlen]
  dsimp only
  rw [if_neg (not_lt.mpr hcap)]
  by_cases hmask : second &&& 0x80 ≠ 0
  · have hfour : keyLength second = 4 := if_pos hmask
    rw [hfour] at hfull hpayload
    rw [maskAt, if_pos hmask] at hpayload
    rw [if_pos (decide_eq_true hmask), if_neg (by omega)]
    exact hpayload
  · have hzero : keyLength second = 0 := if_neg hmask
    rw [hzero] at hpayload
    rw [maskAt, if_neg hmask] at hpayload
    rw [if_neg (by rw [decide_eq_true_eq]; exact hmask)]
    exact hpayload

/-- A complete frame is read off its own bytes. -/
theorem completeFrame_append {buf : Bytes} {first second : UInt8} {i len : Nat}
    (hfull : i + keyLength second + len ≤ buf.length) (t : Bytes) :
    completeFrame (buf ++ t) first second i len = completeFrame buf first second i len := by
  have htake : ∀ j k, j + k ≤ buf.length → ((buf ++ t).drop j).take k = (buf.drop j).take k := by
    intro j k hjk
    rw [List.drop_append_of_le_length (by omega), List.take_append_of_le_length]
    rw [List.length_drop]
    omega
  have hmask : maskAt (buf ++ t) second i = maskAt buf second i := by
    rw [maskAt, maskAt]
    by_cases hset : second &&& 0x80 ≠ 0
    · have hfour : keyLength second = 4 := if_pos hset
      rw [if_pos hset, if_pos hset, htake i 4 (by omega)]
    · rw [if_neg hset, if_neg hset]
  rw [completeFrame, completeFrame, hmask, htake _ _ hfull]

/-- **The parser is monotone.** An answer other than waiting does not change when more bytes
arrive. -/
theorem parseFrame_append {buf : Bytes} {cap : Nat} {f : Frame}
    (h : parseFrame buf cap = some f) (hdecided : f.ok = true ∨ f.tooBig = true) (t : Bytes) :
    parseFrame (buf ++ t) cap = some f := by
  cases parseFrame_cases h with
  | short _ => rcases hdecided with hok | hbig <;> contradiction
  | length _ _ => rcases hdecided with hok | hbig <;> contradiction
  | payload _ _ _ _ => rcases hdecided with hok | hbig <;> contradiction
  | tooBig hbuf hlen hcap =>
    subst hbuf
    exact parseFrame_of_tooBig (declaredLength_append hlen t) hcap
  | complete hbuf hlen hcap hi hfull hmax =>
    have hheader := declaredLength_le hlen
    rename_i first second rest len i
    have hkey := keyLength_le second
    rw [Nat.mod_eq_of_lt (by omega)] at hfull
    rw [← completeFrame_append hfull t]
    subst hbuf
    refine parseFrame_of_complete (declaredLength_append hlen t) hcap ?_ hmax
    show _ ≤ (first :: second :: rest ++ t).length
    rw [List.length_append]
    exact le_trans hfull (Nat.le_add_right _ _)

/-- Below `2 ^ 63` no accepted length makes `reserve` throw. -/
theorem parseFrame_ne_none {cap : Nat} (hcap : cap < 2 ^ 63) (buf : Bytes) :
    parseFrame buf cap ≠ none := by
  have hpayload : ∀ f mask i len, len ≤ cap → parsePayload f buf mask i len ≠ none := by
    intro f mask i len hlen
    rw [parsePayload, if_neg (c := 2 ^ 63 < len) (by omega)]
    split <;> exact Option.some_ne_none _
  intro h
  rw [parseFrame.eq_def] at h
  split at h
  · dsimp only at h
    split at h
    · cases h
    · split at h
      · cases h
      · rename_i hlen
        split at h
        · split at h
          · cases h
          · exact hpayload _ _ _ _ (not_lt.mp hlen) h
        · exact hpayload _ _ _ _ (not_lt.mp hlen) h
  · cases h

/-- **The parser waits on short buffers only.** -/
theorem length_lt_of_waiting {buf : Bytes} {cap : Nat} {f : Frame}
    (h : parseFrame buf cap = some f) (hok : f.ok = false) (hbig : f.tooBig = false) :
    buf.length < cap + 14 := by
  cases parseFrame_cases h with
  | short hshort => omega
  | length hbuf hlen =>
    -- The longest header without its masking key has ten bytes.
    by_contra hlong
    simp only [declaredLength] at hlen
    rw [if_neg (c := buf.length < 4) (by omega), if_neg (c := buf.length < 10) (by omega)] at hlen
    split at hlen
    · cases hlen
    · split at hlen <;> cases hlen
  | tooBig _ _ _ => cases hbig
  | complete _ _ _ _ _ _ => cases hok
  | payload hbuf hlen hcap hshort =>
    have hheader := declaredLength_le hlen
    rename_i first second rest len i
    have hkey := keyLength_le second
    have hmod := Nat.mod_le (i + keyLength second + len) (2 ^ 64)
    omega

/-- The payload of a complete frame is no longer than the cap, and than the bytes the frame
occupies, of which two more hold the length of a payload from 126 bytes on. -/
theorem length_payload_le {buf : Bytes} {cap : Nat} {f : Frame}
    (h : parseFrame buf cap = some f) (hok : f.ok = true) :
    f.payload.length ≤ cap ∧
      2 + f.payload.length + (if 126 ≤ f.payload.length then 2 else 0) ≤ f.consumed := by
  cases parseFrame_cases h with
  | short _ => cases hok
  | length _ _ => cases hok
  | payload _ _ _ _ => cases hok
  | tooBig _ _ _ => cases hok
  | complete hbuf hlen hcap hi hfull hmax =>
    have hheader := declaredLength_le hlen
    rename_i first second rest len i
    have hkey := keyLength_le second
    have hsum : (i + keyLength second + len) % 2 ^ 64 = i + keyLength second + len :=
      Nat.mod_eq_of_lt (by omega)
    have hpayload : (completeFrame buf first second i len).payload.length ≤ len := by
      rw [completeFrame]
      dsimp only
      split
      · rw [applyMask, List.length_mapIdx, List.length_take]
        omega
      · rw [List.length_take]
        omega
    have hconsumed : (completeFrame buf first second i len).consumed =
      i + keyLength second + len := hsum
    refine ⟨le_trans hpayload hcap, ?_⟩
    rw [hconsumed]
    split
    · -- Seven bits do not hold such a length, so a longer form was used.
      have hform : 4 ≤ i := by
        by_contra hshort
        simp only [declaredLength] at hlen
        split at hlen
        · split at hlen <;> cases hlen
          omega
        · split at hlen
          · split at hlen <;> cases hlen
            omega
          · cases hlen
            have hlt := UInt8.toNat_lt second
            have hseven : (second &&& 0x7F).toNat < 128 := by
              rw [UInt8.toNat_and]
              exact Nat.and_lt_two_pow _ (n := 7) (by decide)
            omega
      omega
    · omega

end CppLaravel.WebSocket
