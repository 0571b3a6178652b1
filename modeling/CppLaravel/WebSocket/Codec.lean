import CppLaravel.WebSocket.Frame

/-!
# `CppLaravel.WebSocket.Codec`: the codec byte by byte (`include/websocket.hpp`)

The encoders, and the two decoders with every access to the buffer: `readFrame` is `parse_frame` and
`decode` is `decode`, in which each `buf[k]` is a `byteAt` that fails behind the end of the buffer,
and a `reserve` of more than `max_size` throws. Positions are `std::size_t`, so every sum of them is
computed modulo `2 ^ 64`. `parseFrame` is `readFrame` without the accesses.
-/

set_option autoImplicit false

namespace CppLaravel.WebSocket

open CppLaravel.Lib

/-! ### Encoders -/

/-- `encode_text`. -/
def encodeText (payload : Bytes) : Bytes :=
  let n := payload.length
  let length :=
    if n < 126 then [UInt8.ofNat n]
    else [126, UInt8.ofNat ((n >>> 8) &&& 0xFF), UInt8.ofNat (n &&& 0xFF)]
  0x81 :: length ++ payload

/-- `encode_binary`. -/
def encodeBinary (payload : Bytes) : Bytes :=
  let n := payload.length
  let length :=
    if n < 126 then [UInt8.ofNat n]
    else if n ≤ 0xFFFF then [126, UInt8.ofNat ((n >>> 8) &&& 0xFF), UInt8.ofNat (n &&& 0xFF)]
    else 127 :: [7, 6, 5, 4, 3, 2, 1, 0].map fun i => UInt8.ofNat ((n >>> (i * 8)) &&& 0xFF)
  0x82 :: length ++ payload

/-! ### Decoders -/

/-- What can go wrong in a decoder: a byte behind the end of the buffer is read, or `reserve` throws
`std::length_error`. -/
inductive Fault
  | outOfBounds
  | lengthError
deriving DecidableEq

/-- `buf[k]`. -/
def byteAt (buf : Bytes) (k : Nat) : Except Fault UInt8 :=
  match buf[k]? with
  | some b => .ok b
  | none => .error .outOfBounds

/-- The loop over the bytes of a 64-bit length, `n` of them from the position `k` on. -/
def lengthLoop (buf : Bytes) : Nat → Nat → Nat → Except Fault Nat
  | 0, _, len => .ok len
  | n + 1, k, len => do
    let b ← byteAt buf k
    lengthLoop buf n (k + 1) (((len <<< 8) ||| b.toNat) % 2 ^ 64)

/-- The declared length and the position behind it. -/
def lengthField (buf : Bytes) (second : UInt8) : Except Fault (Nat × Nat) :=
  let len := (second &&& 0x7F).toNat
  if len = 126 then do
    let hi ← byteAt buf 2
    let lo ← byteAt buf 3
    .ok ((hi.toNat <<< 8) ||| lo.toNat, 4)
  else if len = 127 then do
    let len ← lengthLoop buf 8 2 0
    .ok (len, 10)
  else .ok (len, 2)

/-- The masking key at the position `i`, or zeros, and the position behind it. -/
def maskField (buf : Bytes) (masked : Bool) (i : Nat) : Except Fault (Bytes × Nat) :=
  if masked then do
    let b0 ← byteAt buf i
    let b1 ← byteAt buf (i + 1)
    let b2 ← byteAt buf (i + 2)
    let b3 ← byteAt buf (i + 3)
    .ok ([b0, b1, b2, b3], i + 4)
  else .ok ([0, 0, 0, 0], i)

/-- A byte of the payload, unmasked. -/
def unmask (mask : Bytes) (masked : Bool) (c : UInt8) (j : Nat) : UInt8 :=
  if masked then c ^^^ mask.getD (j % 4) 0 else c

/-- The loop of `parse_frame` over the payload: `n` bytes from the index `j` on. -/
def payloadLoop (buf mask : Bytes) (masked : Bool) (i : Nat) : Nat → Nat → Except Fault Bytes
  | 0, _ => .ok []
  | n + 1, j => do
    let c ← byteAt buf ((i + j) % 2 ^ 64)
    let rest ← payloadLoop buf mask masked i n (j + 1)
    .ok (unmask mask masked c j :: rest)

/-- The loop of `decode`, which also ends with the frame. -/
def decodeLoop (frame mask : Bytes) (masked : Bool) (i : Nat) : Nat → Nat → Except Fault Bytes
  | 0, _ => .ok []
  | n + 1, j =>
    if (i + j) % 2 ^ 64 < frame.length then do
      let c ← byteAt frame ((i + j) % 2 ^ 64)
      let rest ← decodeLoop frame mask masked i n (j + 1)
      .ok (unmask mask masked c j :: rest)
    else .ok []

/-- `reserve`. -/
def reserve (len : Nat) : Except Fault Unit :=
  if 2 ^ 63 < len then .error .lengthError else .ok ()

/-- `parse_frame`. -/
def readFrame (buf : Bytes) (maxPayload : Nat) : Except Fault Frame :=
  if buf.length < 2 then .ok {}
  else do
    let first ← byteAt buf 0
    let second ← byteAt buf 1
    let masked : Bool := second &&& 0x80 ≠ 0
    let f : Frame := {
      fin := first &&& 0x80 ≠ 0
      opcode := Opcode.ofByte first
      masked := masked }
    let len := (second &&& 0x7F).toNat
    if len = 126 ∧ buf.length < 4 then .ok f
    else if len = 127 ∧ buf.length < 10 then .ok f
    else
      let (len, i) ← lengthField buf second
      if maxPayload < len then .ok { f with tooBig := true }
      else if masked ∧ buf.length < i + 4 then .ok f
      else
        let (mask, i) ← maskField buf masked i
        if buf.length < (i + len) % 2 ^ 64 then .ok f
        else
          reserve len
          let payload ← payloadLoop buf mask masked i len 0
          .ok { f with payload := payload, consumed := (i + len) % 2 ^ 64, ok := true }

/-- `decode`. -/
def decode (frame : Bytes) : Except Fault Bytes :=
  if frame.length < 2 then .ok []
  else do
    let second ← byteAt frame 1
    let masked : Bool := second &&& 0x80 ≠ 0
    let (len, i) ← lengthField frame second
    let (mask, i) ← maskField frame masked i
    reserve len
    decodeLoop frame mask masked i len 0

/-- The default of `max_payload`. -/
def noCap : Nat := 2 ^ 64 - 1

end CppLaravel.WebSocket
