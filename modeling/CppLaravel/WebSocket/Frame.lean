import CppLaravel.Bytes
import CppLaravel.Lib.BigEndian

/-!
# `CppLaravel.WebSocket.Frame`: frames (`include/websocket.hpp`)

`parseFrame` is `ws::parse_frame`: it reads one frame from the front of a buffer, or reports
that the buffer does not hold a whole frame yet (`ok` is false), or that the declared length
exceeds the caller's cap (`tooBig`). Lengths are `std::uint64_t` and sizes `std::size_t`, so
their sum is computed modulo `2 ^ 64`.
-/

set_option autoImplicit false

namespace CppLaravel.WebSocket

open CppLaravel.Lib

/-- `Opcode`, with the codes that have no enumerator. -/
inductive Opcode
  | continuation
  | text
  | binary
  | close
  | ping
  | pong
  | unnamed (code : UInt8)
deriving DecidableEq

/-- The opcode in the first byte of a frame. -/
def Opcode.ofByte (b : UInt8) : Opcode :=
  let code := b &&& 0x0F
  if code = 0x0 then .continuation
  else if code = 0x1 then .text
  else if code = 0x2 then .binary
  else if code = 0x8 then .close
  else if code = 0x9 then .ping
  else if code = 0xA then .pong
  else .unnamed code

/-- `Frame`. -/
structure Frame where
  opcode : Opcode := .text
  payload : Bytes := []
  fin : Bool := false
  masked : Bool := false
  ok : Bool := false
  tooBig : Bool := false
  consumed : Nat := 0
deriving DecidableEq

/-- The declared length and the position behind it, if the buffer holds them. -/
def declaredLength (buf : Bytes) (second : UInt8) : Option (Nat × Nat) :=
  let len := (second &&& 0x7F).toNat
  if len = 126 then
    if buf.length < 4 then none else some (bigEndian ((buf.drop 2).take 2), 4)
  else if len = 127 then
    if buf.length < 10 then none else some (bigEndian ((buf.drop 2).take 8), 10)
  else some (len, 2)

/-- Each byte with the byte of the mask at its position modulo 4. -/
def applyMask (mask payload : Bytes) : Bytes :=
  payload.mapIdx fun j c => c ^^^ mask.getD (j % 4) 0

/-- The end of `parse_frame`, from the position of the payload on. -/
def parsePayload (f : Frame) (buf mask : Bytes) (i len : Nat) : Option Frame :=
  if buf.length < (i + len) % 2 ^ 64 then some f
  -- `reserve` throws. No string is longer, so here the sum above has wrapped around.
  else if 2 ^ 63 < len then none
  else
    let payload := (buf.drop i).take len
    some { f with
      payload := if f.masked then applyMask mask payload else payload
      consumed := (i + len) % 2 ^ 64
      ok := true }

/-- `parse_frame`; no result when `reserve` throws. -/
def parseFrame (buf : Bytes) (maxPayload : Nat) : Option Frame :=
  match buf with
  | first :: second :: _ =>
    let f : Frame := {
      fin := first &&& 0x80 ≠ 0
      opcode := Opcode.ofByte first
      masked := second &&& 0x80 ≠ 0 }
    match declaredLength buf second with
    | none => some f
    | some (len, i) =>
      if maxPayload < len then some { f with tooBig := true }
      else if f.masked then
        if buf.length < i + 4 then some f
        else parsePayload f buf ((buf.drop i).take 4) (i + 4) len
      else parsePayload f buf [0, 0, 0, 0] i len
  | _ => some {}

/-- `encode_close` without a status code. -/
def encodeClose : Bytes := [0x88, 0x00]

/-- `encode_close` with a status code. -/
def encodeCloseCode (code : UInt16) : Bytes :=
  [0x88, 0x02, (code >>> 8 &&& 0xFF).toUInt8, (code &&& 0xFF).toUInt8]

/-- `encode_pong`. -/
def encodePong (payload : Bytes) : Bytes :=
  0x8A :: UInt8.ofNat (payload.length % 128) :: payload

example : parseFrame ([0x81, 0x82, 1, 2, 3, 4, 105, 107] ++ [0x8A]) 125 =
    some { payload := bytes "hi", fin := true, masked := true, ok := true, consumed := 8 } := by
  decide

theorem declaredLength_of_lt {second : UInt8} (buf : Bytes) (h : (second &&& 0x7F).toNat < 126) :
    declaredLength buf second = some ((second &&& 0x7F).toNat, 2) := by
  simp only [declaredLength]
  rw [if_neg (by omega), if_neg (by omega)]

theorem declaredLength_of_eq_126 {second : UInt8} (buf : Bytes)
    (h : (second &&& 0x7F).toNat = 126) : declaredLength buf second =
      if buf.length < 4 then none else some (bigEndian ((buf.drop 2).take 2), 4) := by
  simp only [declaredLength]
  rw [if_pos h]

theorem declaredLength_of_eq_127 {second : UInt8} (buf : Bytes)
    (h : (second &&& 0x7F).toNat = 127) : declaredLength buf second =
      if buf.length < 10 then none else some (bigEndian ((buf.drop 2).take 8), 10) := by
  simp only [declaredLength]
  rw [if_neg (by omega), if_pos h]

/-- The header of a frame is at most ten bytes long, without the mask. -/
theorem declaredLength_le {buf : Bytes} {second : UInt8} {len i : Nat}
    (h : declaredLength buf second = some (len, i)) : 2 ≤ i ∧ i ≤ 10 := by
  simp only [declaredLength] at h
  split at h
  · split at h <;> cases h
    omega
  · split at h
    · split at h <;> cases h
      omega
    · cases h
      omega

/-- A frame that is complete with its payload lies in the buffer. -/
theorem parsePayload_spec {f g : Frame} {buf mask : Bytes} {i len : Nat} (hf : f.ok = false)
    (hi : 2 ≤ i ∧ i ≤ 14) (h : parsePayload f buf mask i len = some g) (hok : g.ok = true) :
    g.tooBig = f.tooBig ∧ 2 ≤ g.consumed ∧ g.consumed ≤ buf.length := by
  rw [parsePayload] at h
  split at h
  · cases h
    rw [hf] at hok
    cases hok
  · rename_i hsize
    split at h
    · cases h
    · rename_i hmax
      cases h
      -- A sum of at most `2 ^ 63 + 14` does not wrap around.
      have hsum : (i + len) % 2 ^ 64 = i + len := Nat.mod_eq_of_lt (by omega)
      refine ⟨rfl, ?_, not_lt.mp hsize⟩
      show 2 ≤ (i + len) % 2 ^ 64
      omega

/-- A complete frame is not too big, and lies in the buffer. -/
theorem parseFrame_spec {buf : Bytes} {maxPayload : Nat} {f : Frame}
    (h : parseFrame buf maxPayload = some f) (hok : f.ok = true) :
    f.tooBig = false ∧ 2 ≤ f.consumed ∧ f.consumed ≤ buf.length := by
  rw [parseFrame.eq_def] at h
  split at h
  · rename_i first second rest
    dsimp only at h
    split at h
    · cases h
      cases hok
    · rename_i len i hlen
      have hi := declaredLength_le hlen
      split at h
      · cases h
        cases hok
      · split at h
        · split at h
          · cases h
            cases hok
          · exact parsePayload_spec rfl (by omega) h hok
        · exact parsePayload_spec rfl (by omega) h hok
  · cases h
    cases hok

end CppLaravel.WebSocket
