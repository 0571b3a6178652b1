import CppLaravel.Proofs.Token.Expiry

/-!
# `CppLaravel.Proofs.Token.Abilities`: what a verified token says

The subject is always read back. The abilities are read up to the first `]` behind the
opening bracket of their array, and that byte is not escaped inside a string: the ability
that holds it is still read to its end, the ones after it are lost.

* `extractString_sub`: the subject that is read is the one that was signed.
* `extractStringArray_abilities`: the abilities that are read, `readable` of those signed.
* `verified_claims_iff`: subject and abilities of a verified token are those signed, if and
  only if no ability but the last contains `]`.
* `bracket_hides_abilities`: an ability `]` hides the ability after it.
-/

set_option autoImplicit false

namespace CppLaravel.Token

open CppLaravel.Lib

/-! ### The subject -/

/-- **The subject is read back**, whatever bytes it has. -/
theorem extractString_sub (c : Claims) : extractString (claimsJson c) (bytes "sub") = c.sub := by
  -- The key is the first string of the payload, the subject the second.
  have hseek : ∀ rest, seek (quoted (bytes "sub")) (123 :: (jsonString (bytes "sub") ++ rest))
      = some (jsonString (bytes "sub") ++ rest) := by
    intro rest
    rw [seek_quoted_cons (by decide)]
    exact seek_of_isPrefix ⟨rest, rfl⟩
  have hcolon : colon ∉ jsonString (bytes "sub") := by decide
  have hquote : ∀ rest, seek [quote] (jsonString c.sub ++ rest)
      = some (quote :: (jsonEscape c.sub ++ quote :: rest)) := by
    intro rest
    rw [jsonString_append]
    exact seek_of_isPrefix ⟨_, rfl⟩
  rw [claimsJson_eq, extractString_of_seek (hseek _) (seek_single hcolon _) (hquote _),
    scanString_jsonEscape]

/-! ### The abilities -/

/-- The abilities up to the first one with a closing bracket, which is still read. -/
def readable : List Bytes → List Bytes
  | [] => []
  | a :: as => a :: if rbracket ∈ a then [] else readable as

/-- Nothing is lost exactly if only the last ability may have a closing bracket. -/
theorem readable_eq_self_iff (as : List Bytes) :
    readable as = as ↔ ∀ a ∈ as.dropLast, rbracket ∉ a := by
  induction as with
  | nil => simp [readable]
  | cons a as ih =>
    cases as with
    | nil => simp [readable]
    | cons b as =>
      rw [readable, List.cons.injEq, List.dropLast_cons_cons, List.forall_mem_cons, ← ih]
      by_cases ha : rbracket ∈ a
      · simp [ha]
      · simp [ha]

theorem rbracket_mem_jsonString {a : Bytes} : rbracket ∈ jsonString a ↔ rbracket ∈ a := by
  have hquote : rbracket ≠ quote := by decide
  rw [jsonString, List.mem_cons, List.mem_append, mem_jsonEscape (by decide), List.mem_singleton]
  simp [hquote]

theorem arrayLoop_end {j : Bytes} {rb i : Nat} (h : rb ≤ i) : arrayLoop j rb i = [] := by
  rw [arrayLoop, if_neg (by omega)]

/-- One round of the loop: it reads the next string, behind `sep`, whole. -/
theorem arrayLoop_step {j sep a rest : Bytes} {rb i : Nat}
    (hj : j.drop i = sep ++ (jsonString a ++ rest)) (hsep : quote ∉ sep)
    (hrb : i + sep.length < rb) :
    arrayLoop j rb i = a :: arrayLoop j rb (i + sep.length + (jsonString a).length) := by
  rw [jsonString_append] at hj
  have hlen := congrArg List.length hj
  rw [List.length_drop] at hlen
  simp only [List.length_append, List.length_cons] at hlen
  have hfind : find j [quote] i = some (i + sep.length) := by
    rw [find_eq (by omega), hj, firstAt_single hsep]
    rfl
  have hdrop : j.drop (i + sep.length + 1) = jsonEscape a ++ quote :: rest := by
    rw [Nat.add_assoc, ← List.drop_drop, hj, List.drop_length_add_append]
    rfl
  have hscan := scanString_jsonEscape a rest
  have hstring : (jsonString a).length = (jsonEscape a).length + 2 := by
    simp [jsonString]
  -- The loop goes on behind the closing quote.
  have hnext : j.length - (rest.length + 1) + 1 = i + sep.length + (jsonString a).length := by
    omega
  rw [arrayLoop, if_pos (by omega)]
  split
  · rename_i hnone
    rw [hfind] at hnone
    cases hnone
  · rename_i q1 hq1
    rw [hfind, Option.some.injEq] at hq1
    subst hq1
    rw [if_neg (by omega)]
    dsimp only
    rw [hdrop, hscan]
    dsimp only
    rw [List.length_cons, hnext]

/-- The loop reads the next string. If that string has the bracket that the loop was told to
stop at, it stops; otherwise it goes on behind the string as if it had started there. -/
theorem arrayLoop_string {j sep a rest : Bytes} {i n : Nat}
    (hj : j.drop i = sep ++ (jsonString a ++ rest)) (hsep : quote ∉ sep)
    (hsep' : rbracket ∉ sep) (hn : firstAt [rbracket] (j.drop i) = some n) :
    (rbracket ∈ a ∧ arrayLoop j (i + n) i = [a]) ∨
      (rbracket ∉ a ∧ ∃ i' m, j.drop i' = rest ∧ firstAt [rbracket] rest = some m ∧
        arrayLoop j (i + n) i = a :: arrayLoop j (i' + m) i') := by
  rw [hj, firstAt_append_of_not_mem hsep'] at hn
  have hquote : rbracket ≠ quote := by decide
  obtain ⟨m, hm, rfl⟩ := Option.map_eq_some_iff.mp hn
  -- The bracket stands behind the opening quote.
  have hpos : 0 < m := by
    rw [jsonString, List.cons_append, firstAt_cons_of_not fun h =>
      hquote (List.cons_prefix_cons.mp h).1] at hm
    obtain ⟨m', -, rfl⟩ := Option.map_eq_some_iff.mp hm
    omega
  rw [arrayLoop_step hj hsep (by omega)]
  by_cases ha : rbracket ∈ a
  · obtain ⟨m', hlt, hm'⟩ := firstAt_single_of_mem (rbracket_mem_jsonString.mpr ha) rest
    rw [hm, Option.some.injEq] at hm'
    exact .inl ⟨ha, by rw [arrayLoop_end (by omega)]⟩
  · rw [firstAt_append_of_not_mem fun h => ha (rbracket_mem_jsonString.mp h)] at hm
    obtain ⟨m', hm', rfl⟩ := Option.map_eq_some_iff.mp hm
    have hnext : j.drop (i + sep.length + (jsonString a).length) = rest := by
      rw [Nat.add_assoc, ← List.length_append, ← List.drop_drop, hj, ← List.append_assoc,
        List.drop_left]
    have hrb : i + (sep.length + ((jsonString a).length + m'))
        = i + sep.length + (jsonString a).length + m' := by omega
    exact .inr ⟨ha, _, m', hnext, hm', by rw [hrb]⟩

/-- The loop from a position between two elements, up to the first closing bracket from
there on. -/
theorem arrayLoop_jsonTail {j : Bytes} (as : List Bytes) (rest : Bytes) (i n : Nat)
    (hj : j.drop i = jsonTail as ++ rbracket :: rest)
    (hn : firstAt [rbracket] (j.drop i) = some n) : arrayLoop j (i + n) i = readable as := by
  -- On the elements; the loop is started anew behind each that has no bracket.
  induction as generalizing i n with
  | nil =>
    have hhere : [rbracket] <+: rbracket :: rest := ⟨rest, rfl⟩
    rw [hj] at hn
    have hzero : (0 : Nat) = n := Option.some.inj ((firstAt_of_isPrefix hhere).symm.trans hn)
    exact arrayLoop_end (by omega)
  | cons a as ih =>
    have hj' : j.drop i = [comma] ++ (jsonString a ++ (jsonTail as ++ rbracket :: rest)) := by
      rw [hj, jsonTail_cons, List.cons_append, List.append_assoc]
      rfl
    rcases arrayLoop_string hj' (by decide) (by decide) hn with
      ⟨ha, hloop⟩ | ⟨ha, i', m, hnext, hm, hloop⟩
    · rw [hloop, readable, if_pos ha]
    · rw [hloop, ih i' m hnext (by rw [hnext]; exact hm), readable, if_neg ha]

/-- The whole array, read from behind its opening bracket. -/
theorem arrayLoop_jsonElements {j : Bytes} (as : List Bytes) (rest : Bytes) (i n : Nat)
    (hj : j.drop i = jsonElements as ++ rbracket :: rest)
    (hn : firstAt [rbracket] (j.drop i) = some n) : arrayLoop j (i + n) i = readable as := by
  cases as with
  | nil => exact arrayLoop_jsonTail [] rest i n hj hn
  | cons a as =>
    have hj' : j.drop i = [] ++ (jsonString a ++ (jsonTail as ++ rbracket :: rest)) := by
      rw [hj, List.nil_append, ← List.append_assoc]
      rfl
    rcases arrayLoop_string hj' (by decide) (by decide) hn with
      ⟨ha, hloop⟩ | ⟨ha, i', m, hnext, hm, hloop⟩
    · rw [hloop, readable, if_pos ha]
    · rw [hloop, arrayLoop_jsonTail as rest i' m hnext (by rw [hnext]; exact hm), readable,
        if_neg ha]

/-- The search for the opening bracket of the array: the subject may imitate its key, but
between the subject and the array there is no other bracket. -/
theorem seek_lbracket_claimsJson (c : Claims) :
    ∃ s, seek (quoted (bytes "abilities")) (claimsJson c) = some s ∧
      seek [lbracket] s = some (lbracket :: (jsonElements c.abilities ++
        rbracket :: timesText c)) := by
  have hkey : PlainKey (bytes "abilities") := by decide
  have hcolon := not_key_prefix (bytes "abilities") colon (by decide)
  have hcomma := not_key_prefix (bytes "abilities") comma (by decide)
  rw [claimsJson_eq, seek_quoted_cons (by decide), seek_jsonString hkey _ (hcolon _),
    if_neg (by decide), seek_quoted_cons (by decide), seek_jsonString hkey _ (hcomma _)]
  by_cases hsub : Imitates (bytes "abilities") c.sub
  · -- The search stops early, at the end of the subject.
    refine ⟨_, if_pos hsub, ?_⟩
    have hnot : lbracket ∉ quoted (bytes "abilities") ++
        comma :: (jsonString (bytes "abilities") ++ [colon]) := by decide
    have hnext := seek_single hnot (jsonElements c.abilities ++ rbracket :: timesText c)
    simpa only [List.append_assoc, List.cons_append, List.nil_append] using hnext
  · rw [if_neg hsub, seek_quoted_cons (by decide), seek_jsonString hkey _ (hcolon _),
      if_pos (by decide)]
    refine ⟨_, rfl, ?_⟩
    have hnot : lbracket ∉ quoted (bytes "abilities") ++ [colon] := by decide
    have hnext := seek_single hnot (jsonElements c.abilities ++ rbracket :: timesText c)
    simpa only [List.append_assoc, List.cons_append, List.nil_append] using hnext

/-- **The abilities that are read.** -/
theorem extractStringArray_abilities (c : Claims) :
    extractStringArray (claimsJson c) (bytes "abilities") = readable c.abilities := by
  obtain ⟨s, hs, ht⟩ := seek_lbracket_claimsJson c
  obtain ⟨k, hk, rfl, hkj⟩ := find_of_seek (i := 0) (Nat.zero_le (claimsJson c).length) hs
  obtain ⟨lb, hlb, hlbt, hlbj⟩ := find_of_seek hkj ht
  have htail : (claimsJson c).drop (lb + 1)
      = jsonElements c.abilities ++ rbracket :: timesText c := drop_succ_of_drop hlbt
  -- The array is closed, so the first closing bracket behind it is found.
  obtain ⟨n, -, hn⟩ := firstAt_single_of_mem (c := rbracket)
    (a := jsonElements c.abilities ++ [rbracket]) (by simp) (timesText c)
  rw [List.append_assoc, List.singleton_append] at hn
  have hrb : find (claimsJson c) [rbracket] lb = some (lb + 1 + n) := by
    have hnot : rbracket ∉ [lbracket] := by decide
    have hfirst := firstAt_append_of_not_mem (q := []) hnot
      (jsonElements c.abilities ++ rbracket :: timesText c)
    rw [find_eq hlbj, hlbt]
    rw [List.singleton_append, hn] at hfirst
    rw [hfirst]
    show some (lb + (1 + n)) = some (lb + 1 + n)
    rw [Nat.add_assoc]
  simp only [extractStringArray, hk, hlb, hrb]
  exact arrayLoop_jsonElements c.abilities (timesText c) (lb + 1) n htail (by rw [htail]; exact hn)

variable (sha256 : Bytes → Bytes)

/-- **What a verified token says.** The subject is the one signed; the abilities are those
signed exactly if no ability but the last contains a closing bracket. -/
theorem verified_claims_iff {c read : Claims} {secret : Bytes} {now clock : Int64}
    (h : verify sha256 (sign sha256 c secret) secret now clock = some read) :
    (read.sub = c.sub ∧ read.abilities = c.abilities) ↔
      ∀ a ∈ c.abilities.dropLast, rbracket ∉ a := by
  have hsub : (parseClaims (claimsJson c)).sub = c.sub := extractString_sub c
  have habilities : (parseClaims (claimsJson c)).abilities = readable c.abilities :=
    extractStringArray_abilities c
  rw [read_of_verify_sign sha256 h, hsub, habilities, readable_eq_self_iff]
  simp

/-- Quotes, backslashes and the text of a key do no harm, nor does a closing bracket in the
last ability. -/
theorem verified_claims_applies :
    rbracket ∉ bytes "\"\\" ∧ ∀ (sha256 : Bytes → Bytes) (secret : Bytes) (now clock : Int64),
      ∃ read, verify sha256 (sign sha256 ⟨bytes "abilities", [bytes "\"\\", bytes "a]"], 0, 0⟩
          secret) secret now clock = some read ∧
        read.sub = bytes "abilities" ∧ read.abilities = [bytes "\"\\", bytes "a]"] := by
  refine ⟨by decide, fun sha256 secret now clock => ?_⟩
  have hread : (parseClaims (claimsJson
      ⟨bytes "abilities", [bytes "\"\\", bytes "a]"], 0, 0⟩)).exp = 0 := by
    rw [parseClaims, extractInt_exp]
    rfl
  have haccepted := verify_sign_of_exp_zero sha256 hread secret now clock
  exact ⟨_, haccepted, (verified_claims_iff sha256 haccepted).mpr (by decide)⟩

/-- **An ability hides the ones after it.** Of the abilities `]` and `post` only the first is
read back from the token, under every secret and whatever the hash. -/
theorem bracket_hides_abilities :
    [bytes "]"] ≠ [bytes "]", bytes "post"] ∧
      ∀ (sha256 : Bytes → Bytes) (secret : Bytes) (now clock : Int64),
        ∃ read, verify sha256 (sign sha256 ⟨bytes "u", [bytes "]", bytes "post"], 0, 0⟩ secret)
            secret now clock = some read ∧ read.abilities = [bytes "]"] := by
  refine ⟨by decide, fun sha256 secret now clock => ?_⟩
  have hread : (parseClaims (claimsJson ⟨bytes "u", [bytes "]", bytes "post"], 0, 0⟩)).exp = 0 := by
    rw [parseClaims, extractInt_exp]
    rfl
  have habilities : (parseClaims (claimsJson
      ⟨bytes "u", [bytes "]", bytes "post"], 0, 0⟩)).abilities = [bytes "]"] := by
    rw [parseClaims, extractStringArray_abilities]
    rfl
  exact ⟨_, verify_sign_of_exp_zero sha256 hread secret now clock, habilities⟩

end CppLaravel.Token
