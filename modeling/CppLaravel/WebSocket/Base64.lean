import CppLaravel.Token.Base64Url

/-!
# `CppLaravel.WebSocket.Base64`: the text form of a digest (`include/websocket.hpp`)

`base64` is the loop of `b64url_encode` with the other alphabet, and with padding: the accumulator
is an `int` that is never masked (`wrap32`).
-/

set_option autoImplicit false

namespace CppLaravel.WebSocket

open CppLaravel.Token

/-- The 64 characters of the encoding. -/
def alphabet : Bytes := bytes "ABCDEFGHIJKLMNOPQRSTUVWXYZabcdefghijklmnopqrstuvwxyz0123456789+/"

/-- The character of the low six bits of a number. -/
def digit (x : Int) : UInt8 := alphabet.getD (x % 64).toNat 0

/-- The inner loop: the characters due, and `bits` after them. -/
def emit (val bits : Int) : Bytes × Int :=
  if 0 ≤ bits then
    let r := emit val (bits - 6)
    (digit (val >>> bits.toNat) :: r.1, r.2)
  else ([], bits)
termination_by (bits + 6).toNat

/-- The outer loop, from the accumulator `val`. -/
def base64From (val bits : Int) : Bytes → Bytes
  | [] => if -6 < bits then [digit (wrap32 (val * 256) >>> (bits + 8).toNat)] else []
  | c :: rest =>
    let val := wrap32 (val * 256 + c.toNat)
    let r := emit val (bits + 8)
    r.1 ++ base64From val r.2 rest

/-- The loop that pads the text with `=`. -/
def padLoop (out : Bytes) : Bytes :=
  if out.length % 4 ≠ 0 then padLoop (out ++ [61]) else out
termination_by (4 - out.length % 4) % 4
decreasing_by
  rw [List.length_append, List.length_singleton]
  omega

/-- `base64`. -/
def base64 (data : Bytes) : Bytes := padLoop (base64From 0 (-6) data)

end CppLaravel.WebSocket
