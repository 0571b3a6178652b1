import CppLaravel.Proofs.Token.Payload
import CppLaravel.Proofs.Token.Sign

/-!
# `CppLaravel.Proofs.Token.Expiry`: when a token expires

The expiry is read behind the first occurrence of `"exp"` in the payload. The subject and the
abilities stand before the real key, so a string that imitates it (`exp` itself, or anything
that ends with `"exp`) is taken for it.

* `extractInt_exp`: the number that is read, `shadowExp` where a string imitates the key.
* `expires_on_time_iff`: a signed token is accepted exactly while it is live, if and only if
  no string imitates the key or the number read instead gives the same answer at that time.
* `subject_exp_never_expires`: with the subject `exp` a token outlives its expiry.
-/

set_option autoImplicit false

namespace CppLaravel.Token

open CppLaravel.Lib

/-- What the reader takes for the expiry when a string imitates its key. Behind such a
subject stands the array of abilities, which is no number; behind such an ability the first
number is that after the first colon of a later ability, or else the time of issue. -/
def shadowExp (c : Claims) : Option Int64 :=
  if Imitates (bytes "exp") c.sub then some 0
  else
    match c.abilities.dropWhile fun a => ¬ Imitates (bytes "exp") a with
    | [] => none
    | _ :: later =>
      match later.find? (colon ∈ ·) with
      | some a => some (readInt (afterColon a))
      | none => some c.iat

/-- A token with the expiry `exp` is live at the time `now`. -/
def Live (exp now : Int64) : Prop := exp = 0 ∨ now ≤ exp

instance (exp now : Int64) : Decidable (Live exp now) := inferInstanceAs (Decidable (_ ∨ _))

/-- A text without quotes is passed by every search for a key. -/
theorem quote_not_mem_intToString (v : Int) : quote ∉ intToString v :=
  not_mem_intToString rfl (by decide) v

/-- The search for the expiry reaches the real key, if it gets that far. -/
theorem seek_exp_timesText (c : Claims) :
    seek (quoted (bytes "exp")) (timesText c) =
      some (quoted (bytes "exp") ++ colon :: (intToString c.exp.toInt ++ [125])) := by
  have hkey : PlainKey (bytes "exp") := by decide
  have hcolon := not_key_prefix (bytes "exp") colon (by decide)
  have hnumber : ∀ t, seek (quoted (bytes "exp")) (intToString c.iat.toInt ++ t)
      = seek (quoted (bytes "exp")) t :=
    seek_append_of_not_mem (quote_not_mem_intToString c.iat.toInt)
  unfold timesText
  -- The key of the time of issue is passed, and its number; the next key is the one.
  rw [seek_quoted_cons (by decide), seek_jsonString hkey _ (hcolon _), if_neg (by decide),
    seek_quoted_cons (by decide), hnumber, seek_quoted_cons (by decide),
    seek_jsonString hkey _ (hcolon _), if_pos (by decide)]

/-- Behind the abilities the first number is the time of issue. -/
theorem seek_colon_timesText (c : Claims) :
    seek [colon] (rbracket :: timesText c) = some (colon :: (intToString c.iat.toInt ++
      comma :: (jsonString (bytes "exp") ++ colon :: (intToString c.exp.toInt ++ [125])))) := by
  have hnot : colon ∉ rbracket :: comma :: jsonString (bytes "iat") := by decide
  exact seek_single hnot _

/-- The search for the expiry in the payload: at the subject, then over the abilities. -/
theorem seek_exp_claimsJson (c : Claims) :
    seek (quoted (bytes "exp")) (claimsJson c) =
      if Imitates (bytes "exp") c.sub then
        some (quoted (bytes "exp") ++ comma :: (jsonString (bytes "abilities") ++
          colon :: lbracket :: (jsonElements c.abilities ++ rbracket :: timesText c)))
      else seek (quoted (bytes "exp")) (jsonTail c.abilities ++ rbracket :: timesText c) := by
  have hkey : PlainKey (bytes "exp") := by decide
  have hcolon := not_key_prefix (bytes "exp") colon (by decide)
  have hcomma := not_key_prefix (bytes "exp") comma (by decide)
  rw [claimsJson_eq, seek_quoted_cons (by decide), seek_jsonString hkey _ (hcolon _),
    if_neg (by decide), seek_quoted_cons (by decide), seek_jsonString hkey _ (hcomma _)]
  by_cases hsub : Imitates (bytes "exp") c.sub
  · rw [if_pos hsub, if_pos hsub]
  · rw [if_neg hsub, if_neg hsub, seek_quoted_cons (by decide),
      seek_jsonString hkey _ (hcolon _), if_neg (by decide), seek_quoted_cons (by decide),
      seek_quoted_cons (by decide), seek_jsonElements]

/-- **The expiry that is read.** -/
theorem extractInt_exp (c : Claims) :
    extractInt (claimsJson c) (bytes "exp") = (shadowExp c).getD c.exp := by
  have hseek := seek_exp_claimsJson c
  have hcolon : colon ∉ quoted (bytes "exp") := by decide
  have htail := seek_jsonTail (bytes "exp") (by decide) (by decide) (by decide) c.abilities
    (timesText c)
  unfold shadowExp
  by_cases hsub : Imitates (bytes "exp") c.sub
  · -- The subject: its next colon opens the array.
    rw [if_pos hsub] at hseek ⊢
    have hnot : colon ∉ quoted (bytes "exp") ++ comma :: jsonString (bytes "abilities") := by
      decide
    have hnext := seek_single hnot
      (lbracket :: (jsonElements c.abilities ++ rbracket :: timesText c))
    rw [List.append_assoc] at hnext
    rw [extractInt_of_seek hseek hnext]
    exact readInt_append (by decide) [] _
  · rw [if_neg hsub] at hseek ⊢
    rw [htail] at hseek
    cases hdrop : c.abilities.dropWhile fun a => ¬ Imitates (bytes "exp") a with
    | nil =>
      -- No string imitates the key, so the search reaches the real one.
      rw [hdrop] at hseek
      dsimp only at hseek ⊢
      rw [seek_exp_timesText] at hseek
      rw [extractInt_of_seek hseek (seek_single hcolon _)]
      exact readInt_intToString c.exp (by decide) []
    | cons a later =>
      rw [hdrop] at hseek
      dsimp only at hseek ⊢
      -- An ability: its next colon is in a later ability, or behind the array.
      have hskip : seek [colon] (quoted (bytes "exp") ++ (jsonTail later ++
          rbracket :: timesText c)) = seek [colon] (jsonTail later ++ rbracket :: timesText c) :=
        seek_append_of_not_mem hcolon _
      cases hfind : later.find? (colon ∈ ·) with
      | some b =>
        obtain ⟨more, hmore⟩ := seek_colon_of_find?_some hfind (rbracket :: timesText c)
        rw [extractInt_of_seek hseek (hskip.trans hmore)]
        exact readInt_jsonEscape (afterColon b) more
      | none =>
        have hnone := seek_colon_of_find?_none hfind (rbracket :: timesText c)
        rw [extractInt_of_seek hseek (hskip.trans (hnone.trans (seek_colon_timesText c)))]
        exact readInt_intToString c.iat (by decide) _

variable (sha256 : Bytes → Bytes)

/-- **Expiry.** A signed token is accepted exactly while it is live, if and only if whatever
is read for the expiry in its place gives the same answer at that time. -/
theorem expires_on_time_iff (c : Claims) (secret : Bytes) {now : Int64} (hnow : now ≠ 0)
    (clock : Int64) :
    ((verify sha256 (sign sha256 c secret) secret now clock).isSome ↔ Live c.exp now) ↔
      ∀ exp ∈ shadowExp c, (Live exp now ↔ Live c.exp now) := by
  have hread : (parseClaims (claimsJson c)).exp = (shadowExp c).getD c.exp := extractInt_exp c
  -- The token is accepted exactly while the expiry that is read is live.
  have hlive : (verify sha256 (sign sha256 c secret) secret now clock).isSome ↔
      Live ((shadowExp c).getD c.exp) now := by
    rw [verify_sign]
    dsimp only
    rw [if_neg hnow, hread, Live]
    by_cases hexp : (shadowExp c).getD c.exp = 0
    · simp [hexp]
    · by_cases hlt : (shadowExp c).getD c.exp < now
      · simp [hexp, hlt, Int64.not_le]
      · simp [hexp, hlt, Int64.not_lt.mp hlt]
  rw [hlive]
  cases shadowExp c with
  | none => simp
  | some exp => simp

/-- No ability that looks like the key: the tests' token, with an ability that has a colon,
is accepted at its expiry and refused after it. -/
theorem expires_on_time_applies :
    ((501 : Int64) ≠ 0 ∧ shadowExp ⟨bytes "x", [bytes "room:library"], 0, 500⟩ = none) ∧
      ∀ (sha256 : Bytes → Bytes) (secret : Bytes) (clock : Int64),
        ¬ (verify sha256 (sign sha256 ⟨bytes "x", [bytes "room:library"], 0, 500⟩ secret) secret
          501 clock).isSome := by
  refine ⟨⟨by decide, by decide⟩, fun sha256 secret clock h => ?_⟩
  have hiff := expires_on_time_iff sha256 ⟨bytes "x", [bytes "room:library"], 0, 500⟩ secret
    (show (501 : Int64) ≠ 0 by decide) clock
  have hnone : shadowExp ⟨bytes "x", [bytes "room:library"], 0, 500⟩ = none := by decide
  have hlive := (hiff.mpr (by rw [hnone]; intro exp hexp; cases hexp)).mp h
  exact absurd hlive (by decide)

/-- **A token that outlives its expiry.** With the subject `exp` and the expiry 500 it is
accepted at 501, under every secret and whatever the hash. -/
theorem subject_exp_never_expires :
    ((501 : Int64) ≠ 0 ∧ ¬ Live 500 501) ∧
      ∀ (sha256 : Bytes → Bytes) (secret : Bytes) (clock : Int64),
        (verify sha256 (sign sha256 ⟨bytes "exp", [], 0, 500⟩ secret) secret 501 clock).isSome := by
  refine ⟨by decide, fun sha256 secret clock => ?_⟩
  have hread : (parseClaims (claimsJson ⟨bytes "exp", [], 0, 500⟩)).exp = 0 :=
    extractInt_exp ⟨bytes "exp", [], 0, 500⟩
  rw [verify_sign_of_exp_zero sha256 hread]
  rfl

end CppLaravel.Token
