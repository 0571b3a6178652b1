import CppLaravel.Lib.ConstantTime
import CppLaravel.Proofs.Token.Base64Url
import CppLaravel.Token.Sign

/-!
# `CppLaravel.Proofs.Token.Sign`: a signed token verifies

`verify_sign`: `verify` accepts the signature of every token that `sign` made with the same
secret, and goes on with the claims that `parse_claims` reads from the payload `sign` wrote.
Only the expiry it reads there can refuse the token.
-/

set_option autoImplicit false

namespace CppLaravel.Token

open CppLaravel.Lib

/-- The comparison tells texts apart. -/
theorem constantTimeEqual_iff {a b : Bytes} : constantTimeEqual a b = true ↔ a = b := by
  rw [constantTimeEqual, foldl_zipWith_xor]
  exact same_iff

/-- A dot is no character of the encoding, so it ends a part. -/
theorem dot_not_mem (s : Bytes) : dot ∉ b64urlEncode s := not_mem_encode (by decide) s

/-- The two searches for a dot split a token into its parts. -/
theorem find_dot {h p : Bytes} (hh : dot ∉ h) (hp : dot ∉ p) (sig : Bytes) :
    find (h ++ dot :: (p ++ dot :: sig)) [dot] 0 = some h.length ∧
      find (h ++ dot :: (p ++ dot :: sig)) [dot] (h.length + 1)
        = some (h.length + 1 + p.length) := by
  constructor
  · rw [find_zero]
    exact firstAt_single hh _
  · have htail : (h ++ dot :: (p ++ dot :: sig)).drop (h.length + 1) = p ++ dot :: sig :=
      List.drop_length_add_append 1
    rw [find_eq (by simp), htail, firstAt_single hp]
    rfl

variable (sha256 : Bytes → Bytes)

/-- **A signed token verifies**, up to the expiry that is read from its payload. -/
theorem verify_sign (c : Claims) (secret : Bytes) (now clock : Int64) :
    verify sha256 (sign sha256 c secret) secret now clock =
      let read := parseClaims (claimsJson c)
      let now := if now = 0 then clock else now
      if read.exp ≠ 0 ∧ read.exp < now then none else some read := by
  let h := b64urlEncode header
  let p := b64urlEncode (claimsJson c)
  let sig := b64urlEncode (hmacSha256 sha256 secret (h ++ dot :: p))
  have htoken : sign sha256 c secret = h ++ dot :: (p ++ dot :: sig) :=
    List.append_assoc h (dot :: p) (dot :: sig)
  obtain ⟨hd1, hd2⟩ := find_dot (dot_not_mem header) (dot_not_mem (claimsJson c)) sig
  have hlen : h.length + 1 + p.length = (h ++ dot :: p).length := by
    simp only [List.length_append, List.length_cons]
    omega
  have htoken' : h ++ dot :: (p ++ dot :: sig) = (h ++ dot :: p) ++ dot :: sig :=
    (List.append_assoc h (dot :: p) (dot :: sig)).symm
  -- The three parts come back as they were put together.
  have hinput : substr (h ++ dot :: (p ++ dot :: sig)) 0 (h.length + 1 + p.length)
      = h ++ dot :: p := by
    rw [substr, List.drop_zero, htoken', hlen, List.take_left]
  have hsig : (h ++ dot :: (p ++ dot :: sig)).drop (h.length + 1 + p.length + 1) = sig := by
    rw [htoken', hlen]
    exact List.drop_length_add_append 1
  have hpayload : substr (h ++ dot :: (p ++ dot :: sig)) (h.length + 1)
      (h.length + 1 + p.length - h.length - 1) = p := by
    have hcount : h.length + 1 + p.length - h.length - 1 = p.length := by omega
    have htail : (h ++ dot :: (p ++ dot :: sig)).drop (h.length + 1) = p ++ dot :: sig :=
      List.drop_length_add_append 1
    rw [substr, htail, hcount, List.take_left]
  unfold verify
  rw [htoken]
  simp only [h, p] at hd1 hd2 hinput hsig hpayload ⊢
  simp only [hd1, hd2, hinput, hsig, hpayload]
  rw [if_pos (constantTimeEqual_iff.mpr rfl), decode_encode]

/-- The claims of an accepted token are those read from the payload it was signed with. -/
theorem read_of_verify_sign {c read : Claims} {secret : Bytes} {now clock : Int64}
    (h : verify sha256 (sign sha256 c secret) secret now clock = some read) :
    read = parseClaims (claimsJson c) := by
  rw [verify_sign] at h
  exact ((Option.ite_none_left_eq_some.mp h).2 |> Option.some.inj).symm

/-- A token without an expiry is always accepted. -/
theorem verify_sign_of_exp_zero {c : Claims} (hexp : (parseClaims (claimsJson c)).exp = 0)
    (secret : Bytes) (now clock : Int64) :
    verify sha256 (sign sha256 c secret) secret now clock = some (parseClaims (claimsJson c)) := by
  rw [verify_sign]
  exact if_neg fun h => h.1 hexp

end CppLaravel.Token
