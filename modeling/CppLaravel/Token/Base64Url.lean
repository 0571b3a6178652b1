import CppLaravel.Bytes

/-!
# `CppLaravel.Token.Base64Url`: the text form of token parts (`include/token.hpp`)

`b64url_encode` shifts the bytes into an `int` accumulator, eight bits at a time, and takes a
character out for every six bits at hand; `b64url_decode` does the reverse. Neither masks
the accumulator, so it runs over: `int` arithmetic wraps around at 32 bits (`wrap32`).

`bits` is the number of bits at hand less the number that one output takes, so an output is
due when it is not negative.
-/

set_option autoImplicit false

namespace CppLaravel.Token

/-- A value of `int` arithmetic, wrapped around at 32 bits. -/
def wrap32 (x : Int) : Int := (x + 2 ^ 31) % 2 ^ 32 - 2 ^ 31

/-- The 64 characters of the encoding. -/
def alphabet : Bytes := bytes "ABCDEFGHIJKLMNOPQRSTUVWXYZabcdefghijklmnopqrstuvwxyz0123456789-_"

/-- The character of the low six bits of a number. -/
def digit64 (x : Int) : UInt8 := alphabet.getD (x % 64).toNat 0

/-- The inner loop of the encoder: the characters due, and `bits` after them. -/
def emit (val bits : Int) : Bytes × Int :=
  if 0 ≤ bits then
    let r := emit val (bits - 6)
    (digit64 (val >>> bits.toNat) :: r.1, r.2)
  else ([], bits)
termination_by (bits + 6).toNat

/-- The outer loop of the encoder, from the accumulator `val`. -/
def encodeFrom (val bits : Int) : Bytes → Bytes
  | [] => if -6 < bits then [digit64 (wrap32 (val * 256) >>> (bits + 8).toNat)] else []
  | c :: rest =>
    let val := wrap32 (val * 256 + c.toNat)
    let r := emit val (bits + 8)
    r.1 ++ encodeFrom val r.2 rest

/-- `b64url_encode`: base64url without padding. -/
def b64urlEncode (s : Bytes) : Bytes := encodeFrom 0 (-6) s

/-- `b64url_val`: the six bits of a character, `-1` for one outside the alphabet. -/
def b64urlVal (c : UInt8) : Int :=
  if 65 ≤ c ∧ c ≤ 90 then c.toNat - 65
  else if 97 ≤ c ∧ c ≤ 122 then c.toNat - 97 + 26
  else if 48 ≤ c ∧ c ≤ 57 then c.toNat - 48 + 52
  else if c = 45 then 62
  else if c = 95 then 63
  else -1

/-- The loop of the decoder, from the accumulator `val`. -/
def decodeFrom (val bits : Int) : Bytes → Bytes
  | [] => []
  | c :: rest =>
    let d := b64urlVal c
    if d < 0 then decodeFrom val bits rest
    else
      let val := wrap32 (val * 64 + d)
      let bits := bits + 6
      if 0 ≤ bits then
        UInt8.ofNat ((val >>> bits.toNat) % 256).toNat :: decodeFrom val (bits - 8) rest
      else decodeFrom val bits rest

/-- `b64url_decode`: characters outside the alphabet are skipped. -/
def b64urlDecode (s : Bytes) : Bytes := decodeFrom 0 (-8) s

end CppLaravel.Token
