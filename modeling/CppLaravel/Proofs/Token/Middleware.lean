import CppLaravel.Proofs.Token.Abilities
import CppLaravel.Token.Middleware

/-!
# `CppLaravel.Proofs.Token.Middleware`: no ability without a token that says so

`next_called_only_with_ability` proves that `requiresAbility` calls the next handler only for
a token that was signed with the ability, or with `*`, among its abilities.

That no signature is forged is the hypothesis `Unforged`. It is about the token presented
only: for every text there is a signature that verifies, so nothing can be assumed of all.
-/

set_option autoImplicit false

namespace CppLaravel.Token

open CppLaravel.Lib
open CppLaravel.Http

/-- What `sign` signs. -/
def signingInput (c : Claims) : Bytes := b64urlEncode header ++ dot :: b64urlEncode (claimsJson c)

variable (sha256 : Bytes → Bytes)

/-- A part of the token that verifies as the signature of what stands before it was made by
`sign` with this secret, for claims that were issued. -/
def Unforged (issued : Claims → Prop) (secret token : Bytes) : Prop :=
  ∀ input sig, token = input ++ dot :: sig →
    constantTimeEqual sig (b64urlEncode (hmacSha256 sha256 secret input)) = true →
    ∃ c, issued c ∧ input = signingInput c

/-! ### Signatures -/

theorem sign_eq (c : Claims) (secret : Bytes) : sign sha256 c secret =
    signingInput c ++ dot :: b64urlEncode (hmacSha256 sha256 secret (signingInput c)) := rfl

/-- A token that verifies is what `sign` made of the claims issued. -/
theorem eq_sign_of_verify {issued : Claims → Prop} {token secret : Bytes} {now clock : Int64}
    {read : Claims} (hunforged : Unforged sha256 issued secret token)
    (h : verify sha256 token secret now clock = some read) :
    ∃ c, issued c ∧ token = sign sha256 c secret := by
  rw [verify] at h
  split at h
  · cases h
  · split at h
    · cases h
    · rename_i d2 hd2
      dsimp only at h
      split at h
      · rename_i hequal
        -- The second dot is where the signature begins.
        obtain ⟨sig, hsig⟩ := prefix_drop_of_find hd2
        have hdrop : token.drop (d2 + 1) = sig := drop_succ_of_drop hsig.symm
        have htoken : token = substr token 0 d2 ++ dot :: sig := by
          rw [substr, List.drop_zero]
          exact (List.take_append_drop d2 token).symm.trans (by rw [← hsig]; rfl)
        rw [hdrop] at hequal
        obtain ⟨c, hissued, hinput⟩ := hunforged _ _ htoken hequal
        refine ⟨c, hissued, ?_⟩
        rw [sign_eq, ← hinput, ← constantTimeEqual_iff.mp hequal]
        exact htoken
      · cases h

/-! ### Abilities -/

/-- Every ability that is read was signed. -/
theorem readable_subset (as : List Bytes) : readable as ⊆ as := by
  induction as with
  | nil => exact fun _ h => h
  | cons a as ih =>
    rw [readable]
    refine List.cons_subset_cons a ?_
    split
    · exact List.nil_subset as
    · exact ih

/-- **Nothing that is signed adds an ability.** -/
theorem parsed_abilities_subset (c : Claims) :
    (parseClaims (claimsJson c)).abilities ⊆ c.abilities := by
  rw [parseClaims, extractStringArray_abilities]
  exact readable_subset c.abilities

/-! ### The header -/

/-- The token comes from a header, if there is one. -/
theorem bearerToken_cases (headers : List (Bytes × Bytes)) :
    bearerToken headers = [] ∨ ∃ name v, (name, v) ∈ headers ∧
      lower name = bytes "authorization" ∧
      (v = bearerToken headers ∨ v = bytes "Bearer " ++ bearerToken headers) := by
  induction headers with
  | nil => exact .inl rfl
  | cons entry headers ih =>
    obtain ⟨name, v⟩ := entry
    -- The first header with the name decides, whatever stands behind it.
    by_cases hname : name.length = 13 ∧ lower name = bytes "authorization"
    · right
      by_cases hprefix : (bytes "Bearer ").length < v.length ∧ bytes "Bearer " <+: v
      · obtain ⟨t, rfl⟩ := hprefix.2
        have htoken : bearerToken ((name, bytes "Bearer " ++ t) :: headers) = t := by
          rw [bearerToken, if_pos hname, if_pos hprefix, List.drop_left]
        rw [htoken]
        exact ⟨name, _, List.mem_cons_self, hname.2, .inr rfl⟩
      · have htoken : bearerToken ((name, v) :: headers) = v := by
          rw [bearerToken, if_pos hname, if_neg hprefix]
        rw [htoken]
        exact ⟨name, v, List.mem_cons_self, hname.2, .inl rfl⟩
    · have htoken : bearerToken ((name, v) :: headers) = bearerToken headers := by
        rw [bearerToken, if_neg hname]
      rw [htoken]
      refine ih.imp_right fun h => ?_
      obtain ⟨name', v', hmem, hrest⟩ := h
      exact ⟨name', v', List.mem_cons_of_mem _ hmem, hrest⟩

/-- An empty token does not verify. -/
theorem verify_nil (secret : Bytes) (now clock : Int64) :
    verify sha256 [] secret now clock = none := rfl

/-! ### The middleware -/

/-- **The next handler is called only for a token that was signed with the ability.** If no
signature is forged, a request that the middleware lets through carries, in an
`Authorization` header, a token that `sign` made of claims with the ability or `*` among
their abilities; and whatever claims are signed, no ability is read from the token that was
not signed as one. -/
theorem next_called_only_with_ability {issued : Claims → Prop} {ability secret : Bytes}
    {clock : Int64} {req : Request} {headers : List (Bytes × Bytes)}
    (hheaders : Visits headers req.headers)
    (hunforged : Unforged sha256 issued secret (bearerToken headers))
    (h : requiresAbility sha256 ability secret clock headers = none) :
    (∃ c, issued c ∧ (ability ∈ c.abilities ∨ bytes "*" ∈ c.abilities) ∧
      ∃ name v, req.headers.lookup name = some v ∧ lower name = bytes "authorization" ∧
        (v = sign sha256 c secret ∨ v = bytes "Bearer " ++ sign sha256 c secret)) ∧
    ∀ c : Claims, (parseClaims (claimsJson c)).abilities ⊆ c.abilities := by
  refine ⟨?_, fun c => parsed_abilities_subset c⟩
  rw [requiresAbility] at h
  split at h
  · cases h
  · rename_i read hverify
    split at h
    · rename_i hcan
      -- What verifies was signed, and is read as no more than was signed.
      obtain ⟨c, hissued, htoken⟩ := eq_sign_of_verify sha256 hunforged hverify
      rw [htoken] at hverify
      have hread := read_of_verify_sign sha256 hverify
      rw [hread, Claims.can, List.any_eq_true] at hcan
      obtain ⟨a, ha, hable⟩ := hcan
      have ha := parsed_abilities_subset c ha
      rw [Bool.or_eq_true, decide_eq_true_eq, decide_eq_true_eq] at hable
      have hable : ability ∈ c.abilities ∨ bytes "*" ∈ c.abilities := by
        rcases hable with rfl | rfl
        · exact .inl ha
        · exact .inr ha
      refine ⟨c, hissued, hable, ?_⟩
      -- Without such a header the token is empty, and nothing empty verifies.
      rcases bearerToken_cases headers with hnil | ⟨name, v, hmem, hname, hv⟩
      · rw [← htoken, hnil, verify_nil] at hverify
        cases hverify
      · rw [htoken] at hv
        exact ⟨name, v, (hheaders.mem_iff name v).mp hmem, hname, hv⟩
    · cases h

/-- A token is split at its last dot in one way only. -/
theorem unforged_sign (c : Claims) (secret : Bytes) :
    Unforged sha256 (· = c) secret (sign sha256 c secret) := by
  intro input sig htoken hequal
  refine ⟨c, rfl, ?_⟩
  have hsig : dot ∉ sig := by
    rw [constantTimeEqual_iff.mp hequal]
    exact dot_not_mem _
  rw [sign_eq] at htoken
  rcases List.append_eq_append_iff.mp htoken with ⟨t, hinput, hrest⟩ | ⟨t, hinput, hrest⟩
  · cases t with
    | nil => rw [hinput, List.append_nil]
    | cons x t =>
      have hmem : dot ∈ b64urlEncode (hmacSha256 sha256 secret (signingInput c)) := by
        rw [(List.cons.inj hrest).2]
        simp
      exact absurd hmem (dot_not_mem _)
  · cases t with
    | nil => rw [hinput, List.append_nil]
    | cons x t =>
      have hmem : dot ∈ sig := by
        rw [(List.cons.inj hrest).2]
        simp
      exact absurd hmem hsig

/-- One header with a token. -/
theorem bearerToken_singleton {token : Bytes} (h : token ≠ []) :
    bearerToken [(bytes "Authorization", bytes "Bearer " ++ token)] = token := by
  have hname : (bytes "Authorization").length = 13 ∧
    lower (bytes "Authorization") = bytes "authorization" := by decide
  have hlen : (bytes "Bearer ").length < (bytes "Bearer " ++ token).length := by
    rw [List.length_append]
    have hpos := List.length_pos_iff.mpr h
    omega
  rw [bearerToken, if_pos hname, if_pos ⟨hlen, List.prefix_append _ _⟩, List.drop_left]

/-- A request with one header. -/
def carrying (v : Bytes) : Request where
  method := bytes "GET"
  path := bytes "/"
  headers := Finmap.singleton (bytes "Authorization") v
  body := []

/-- A request with one token, for the ability `post`, whatever the hash and the secret. -/
theorem next_called_only_with_ability_applies :
    lower (bytes "Authorization") = bytes "authorization" ∧
    ∀ (sha256 : Bytes → Bytes) (secret : Bytes),
      let c : Claims := ⟨bytes "u", [bytes "post"], 0, 0⟩
      let v := bytes "Bearer " ++ sign sha256 c secret
      requiresAbility sha256 (bytes "post") secret 0 [(bytes "Authorization", v)] = none ∧
      ∃ c', c' = c ∧ (bytes "post" ∈ c'.abilities ∨ bytes "*" ∈ c'.abilities) ∧
        ∃ name v', (carrying v).headers.lookup name = some v' ∧
          lower name = bytes "authorization" ∧
          (v' = sign sha256 c' secret ∨ v' = bytes "Bearer " ++ sign sha256 c' secret) := by
  refine ⟨rfl, fun sha256 secret => ?_⟩
  intro c v
  have htoken : bearerToken [(bytes "Authorization", v)] = sign sha256 c secret :=
    bearerToken_singleton (by rw [sign_eq]; simp)
  have hexp : (parseClaims (claimsJson c)).exp = 0 := by
    rw [parseClaims, extractInt_exp]
    rfl
  have habilities : (parseClaims (claimsJson c)).abilities = [bytes "post"] := by
    rw [parseClaims, extractStringArray_abilities]
    rfl
  have hnext : requiresAbility sha256 (bytes "post") secret 0 [(bytes "Authorization", v)] =
      none := by
    rw [requiresAbility, htoken, verify_sign_of_exp_zero sha256 hexp]
    dsimp only
    rw [Claims.can, habilities]
    rfl
  have hunforged : Unforged sha256 (· = c) secret (bearerToken [(bytes "Authorization", v)]) := by
    rw [htoken]
    exact unforged_sign sha256 c secret
  exact ⟨hnext, (next_called_only_with_ability sha256 (visits_singleton _ v) hunforged hnext).1⟩

end CppLaravel.Token
