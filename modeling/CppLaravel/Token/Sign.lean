import CppLaravel.Token.Base64Url
import CppLaravel.Token.Payload

/-!
# `CppLaravel.Token.Sign`: signed tokens (`include/token.hpp`)

`sign` makes a compact token of three base64url parts, `verify` checks its signature and its
expiry. SHA-256 comes from OpenSSL; here it is the parameter `sha256`, any function on bytes.
-/

set_option autoImplicit false

namespace CppLaravel.Token

open CppLaravel.Lib

/-- The byte between the parts of a token. -/
abbrev dot : UInt8 := 46

variable (sha256 : Bytes → Bytes)

/-- `hmac_sha256`, with the key cut or filled up to the block size. -/
def hmacSha256 (key msg : Bytes) : Bytes :=
  let k := if 64 < key.length then sha256 key else key
  let k := k.take 64 ++ List.replicate (64 - k.length) 0
  sha256 (k.map (· ^^^ 0x5c) ++ sha256 (k.map (· ^^^ 0x36) ++ msg))

/-- `constant_time_equal`: no byte differs, at equal lengths. -/
def constantTimeEqual (a b : Bytes) : Bool :=
  if a.length ≠ b.length then false
  else (List.zipWith (· ^^^ ·) a b).foldl (· ||| ·) 0 = 0

/-- The header of every token. -/
def header : Bytes := bytes "\x7b\"alg\":\"HS256\",\"typ\":\"JWT\"\x7d"

/-- `sign`. -/
def sign (c : Claims) (secret : Bytes) : Bytes :=
  let signingInput := b64urlEncode header ++ dot :: b64urlEncode (claimsJson c)
  signingInput ++ dot :: b64urlEncode (hmacSha256 sha256 secret signingInput)

/-- `verify`, at the wall clock time `clock` when no time is given. -/
def verify (token secret : Bytes) (now clock : Int64) : Option Claims :=
  match find token [dot] 0 with
  | none => none
  | some d1 =>
    match find token [dot] (d1 + 1) with
    | none => none
    | some d2 =>
      let signingInput := substr token 0 d2
      let presented := token.drop (d2 + 1)
      let expected := b64urlEncode (hmacSha256 sha256 secret signingInput)
      if constantTimeEqual presented expected then
        let c := parseClaims (b64urlDecode (substr token (d1 + 1) (d2 - d1 - 1)))
        let now := if now = 0 then clock else now
        if c.exp ≠ 0 ∧ c.exp < now then none else some c
      else none

end CppLaravel.Token
