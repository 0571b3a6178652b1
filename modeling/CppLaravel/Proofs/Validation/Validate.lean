import CppLaravel.Validation.Rules
import CppLaravel.Validation.Validator

/-!
# `CppLaravel.Proofs.Validation.Validate`: when a form passes

`validates_iff` says for which data and rules `validate` answers what the rules ask for. Each rule
is read back from its text, and judged by itself (`message_eq_none_iff`): as it should be, except a
bound on a number that does not fit in a `long`, which `to_long` takes for `0`. So the answer can be
wrong only where all the other rules are met, and then it is wrong exactly where `0` and the number
differ about the bounds.
-/

set_option autoImplicit false

namespace CppLaravel.Validation

open CppLaravel.Lib CppLaravel.Http

/-! ### Numbers -/

/-- `is_integer` recognises the numbers. -/
theorem isInteger_iff {v : Bytes} : isInteger v = true ↔ ∃ z : SignedNumeral, z.text = v := by
  constructor
  · intro h
    simp only [isInteger, Bool.and_eq_true, decide_eq_true_eq, List.all_eq_true] at h
    cases v with
    | nil => exact absurd rfl h.1
    | cons c s =>
      by_cases hminus : c = 45
      · subst hminus
        exact ⟨⟨.minus, s, h.1, h.2⟩, rfl⟩
      · by_cases hplus : c = 43
        · subst hplus
          exact ⟨⟨.plus, s, h.1, h.2⟩, rfl⟩
        · simp only [splitSign, if_neg hminus, if_neg hplus] at h
          exact ⟨⟨.absent, c :: s, h.1, h.2⟩, rfl⟩
  · rintro ⟨z, rfl⟩
    simp only [isInteger, z.splitSign_text, Bool.and_eq_true, decide_eq_true_eq, List.all_eq_true]
    exact ⟨z.numeral.ne_nil, z.numeral.isDigit_of_mem⟩

/-- `to_long` of a number that fits. -/
theorem toLong_of_fits {z : SignedNumeral} (h : inInt64 z.value) : toLong z.text = z.value := by
  obtain ⟨v, hread, hv⟩ := z.stoll_text_of_fits h
  rw [toLong, hread]
  exact hv

/-- `to_long` of a number that does not fit. -/
theorem toLong_of_not_fits {z : SignedNumeral} (h : ¬ inInt64 z.value) : toLong z.text = 0 := by
  rw [toLong, z.stoll_text, if_neg h]

theorem tooLarge_iff {z : SignedNumeral} : TooLarge z.text ↔ 2 ^ 63 ≤ z.value := by
  constructor
  · rintro ⟨z', htext, hfar⟩
    rwa [SignedNumeral.value_unique htext] at hfar
  · intro hfar
    exact ⟨z, rfl, hfar⟩

theorem tooSmall_iff {z : SignedNumeral} : TooSmall z.text ↔ z.value < -2 ^ 63 := by
  constructor
  · rintro ⟨z', htext, hfar⟩
    rwa [SignedNumeral.value_unique htext] at hfar
  · intro hfar
    exact ⟨z, rfl, hfar⟩

/-- A number fits unless it is too large or too small. -/
theorem fits_iff (z : SignedNumeral) :
    inInt64 z.value ↔ ¬ (TooLarge z.text ∨ TooSmall z.text) := by
  rw [tooLarge_iff, tooSmall_iff, inInt64]
  omega

/-- What is too large or too small is a number. -/
theorem number_of_far {v : Bytes} (h : TooLarge v ∨ TooSmall v) :
    ∃ z : SignedNumeral, z.text = v := by
  rcases h with ⟨z, htext, -⟩ | ⟨z, htext, -⟩
  · exact ⟨z, htext⟩
  · exact ⟨z, htext⟩

/-- What a number is compared by. -/
theorem measures_number {z : SignedNumeral} {m : Int} : Measures z.text m ↔ m = z.value := by
  constructor
  · intro h
    generalize htext : z.text = v at h
    cases h with
    | number z' => exact (SignedNumeral.value_unique htext).symm
    | length _ hno => exact absurd htext (hno z)
  · rintro rfl
    exact .number z

/-- What another text is compared by. -/
theorem measures_length {v : Bytes} (h : ∀ z : SignedNumeral, z.text ≠ v) {m : Int} :
    Measures v m ↔ m = v.length := by
  constructor
  · intro hm
    cases hm with
    | number z => exact absurd rfl (h z)
    | length _ _ => rfl
  · rintro rfl
    exact .length v h

/-- `measure` is what a value is compared by, unless it is a number that does not fit. -/
theorem measures_iff {v : Bytes} (h : ¬ (TooLarge v ∨ TooSmall v)) {m : Int} :
    Measures v m ↔ m = measure v := by
  by_cases hint : isInteger v = true
  · obtain ⟨z, rfl⟩ := isInteger_iff.mp hint
    rw [measures_number, measure, if_pos hint, toLong_of_fits ((fits_iff z).mpr h)]
  · have hno : ∀ z : SignedNumeral, z.text ≠ v := fun z hz => hint (isInteger_iff.mpr ⟨z, hz⟩)
    rw [measures_length hno, measure, if_neg hint]

/-- A number that does not fit is taken for `0`. -/
theorem measure_of_strained {v : Bytes} (h : TooLarge v ∨ TooSmall v) : measure v = 0 := by
  obtain ⟨z, rfl⟩ := number_of_far h
  rw [measure, if_pos (isInteger_iff.mpr ⟨z, rfl⟩)]
  exact toLong_of_not_fits fun hfits => (fits_iff z).mp hfits h

/-! ### Reading a rule -/

/-- A rule without a parameter. -/
theorem splitParam_of_notMem {rule : Bytes} (h : (58 : UInt8) ∉ rule) :
    splitParam rule = (rule, []) := by
  rw [splitParam, find_zero, firstAt_single_eq_none_iff.mpr h]

/-- A rule with a parameter. -/
theorem splitParam_append {name : Bytes} (h : (58 : UInt8) ∉ name) (param : Bytes) :
    splitParam (name ++ 58 :: param) = (name, param) := by
  have hcolon : find (name ++ 58 :: param) [58] 0 = some name.length := by
    rw [find_zero]
    exact firstAt_single h param
  rw [splitParam, hcolon]
  simp only [substr, List.drop_zero, List.take_left, List.drop_length_add_append]
  rfl

/-- The parts of a check are read back. -/
theorem splitParam_text (c : Check) :
    splitParam (Rule.check c).text = (c.name, c.param.getD []) := by
  have hname : (58 : UInt8) ∉ c.name := by cases c <;> simp only [Check.name] <;> decide
  cases hparam : c.param with
  | none =>
    have htext : (Rule.check c).text = c.name := by rw [Rule.text, hparam]
    rw [htext, splitParam_of_notMem hname]
    rfl
  | some param =>
    have htext : (Rule.check c).text = c.name ++ 58 :: param := by rw [Rule.text, hparam]
    rw [htext, splitParam_append hname]
    rfl

/-- What is in no text and not in the separator is not in the joined text. -/
theorem notMem_intercalate {x : UInt8} {sep : Bytes} {texts : List Bytes} (hsep : x ∉ sep)
    (h : ∀ t ∈ texts, x ∉ t) : x ∉ List.intercalate sep texts := by
  induction texts with
  | nil => exact List.not_mem_nil
  | cons t texts ih =>
    have ht := h t List.mem_cons_self
    have ih := ih fun t' ht' => h t' (List.mem_cons_of_mem _ ht')
    cases texts with
    | nil =>
      rw [List.intercalate_singleton]
      exact ht
    | cons t' texts =>
      rw [List.intercalate_cons_cons]
      simp only [List.mem_append, not_or]
      exact ⟨⟨ht, hsep⟩, ih⟩

/-- No number is written with a bar. -/
theorem bar_notMem_number (z : SignedNumeral) : (124 : UInt8) ∉ z.text := by
  have hdigits : (124 : UInt8) ∉ z.numeral.digits := z.numeral.not_mem_digits (by decide)
  obtain ⟨sign, d⟩ := z
  cases sign with
  | absent => exact hdigits
  | plus => exact List.not_mem_cons_of_ne_of_not_mem (by decide) hdigits
  | minus => exact List.not_mem_cons_of_ne_of_not_mem (by decide) hdigits

/-- No rule is written with a bar. -/
theorem bar_notMem_text (r : Rule) : (124 : UInt8) ∉ r.text := by
  cases r with
  | required => decide
  | check c =>
    have hname : (124 : UInt8) ∉ c.name := by cases c <;> simp only [Check.name] <;> decide
    have hparam : ∀ param, c.param = some param → (124 : UInt8) ∉ param := by
      intro param hparam
      cases c with
      | oneOf choices =>
        obtain rfl := Option.some.inj hparam
        exact notMem_intercalate (by decide) fun t ht => (choices.plain t ht).2
      | min n =>
        obtain rfl := Option.some.inj hparam
        exact bar_notMem_number n.numeral
      | max n =>
        obtain rfl := Option.some.inj hparam
        exact bar_notMem_number n.numeral
      | _ => cases hparam
    rw [Rule.text]
    split
    · rename_i param heq
      rw [List.mem_append, not_or]
      exact ⟨hname, List.not_mem_cons_of_ne_of_not_mem (by decide) (hparam param heq)⟩
    · exact hname

/-- The rules of a field are read back one by one. -/
theorem split_spec {rules : List Rule} (h : rules ≠ []) :
    split (spec rules) 124 = rules.map Rule.text := by
  refine List.splitOn_intercalate 124 ?_ (by simpa using h)
  intro t ht
  obtain ⟨r, -, rfl⟩ := List.mem_map.mp ht
  exact bar_notMem_text r

/-! ### Judging a rule -/

/-- The `email` rule: a `.` somewhere behind an `@`. -/
theorem holds_email_iff {v : Bytes} :
    Check.email.Holds v ↔ ∃ sign, find v [64] 0 = some sign ∧ find v [46] sign ≠ none := by
  constructor
  · rintro ⟨name, host, rfl, hhost⟩
    obtain ⟨k, -, hk⟩ := firstAt_single_of_mem (c := (64 : UInt8)) (a := name ++ 64 :: host)
      (by simp) []
    rw [List.append_nil] at hk
    obtain ⟨hlength, -, hfirst⟩ := firstAt_eq_some_iff.mp hk
    -- The first `@` does not stand behind this one.
    have hle : k ≤ name.length := by
      by_contra hlt
      exact hfirst name.length (by omega) (by rw [List.drop_left]; exact ⟨host, rfl⟩)
    refine ⟨k, (find_zero _ _).trans hk, (find_single_ne_none_iff hlength).mpr ?_⟩
    refine List.drop_subset_drop_left _ hle ?_
    rw [List.drop_left]
    exact List.mem_cons_of_mem _ hhost
  · rintro ⟨sign, hsign, hfound⟩
    rw [find_zero] at hsign
    obtain ⟨a, b, rfl, -, rfl⟩ := firstAt_single_eq_some hsign
    rw [find_single_ne_none_iff (by simp), List.drop_left] at hfound
    exact ⟨a, b, rfl, (List.mem_cons.mp hfound).resolve_left (by decide)⟩

/-- A check that bounds no number beyond `long` adds no message exactly where it holds. -/
theorem check_eq_none_iff (field : Bytes) {v : Bytes} {c : Check}
    (h : ¬ (Rule.check c).Strained v) :
    check field v c.name (c.param.getD []) = none ↔ c.Holds v := by
  cases c with
  | integer =>
    show check field v (bytes "integer") [] = none ↔ ∃ z : SignedNumeral, z.text = v
    rw [check, if_pos rfl, ← isInteger_iff, ite_eq_right_iff]
    simp
  | boolean =>
    show check field v (bytes "boolean") [] = none ↔ _
    rw [check, if_neg (by decide), if_pos rfl, ite_eq_right_iff]
    simp only [Check.Holds, List.mem_cons, List.not_mem_nil, or_false, reduceCtorEq, imp_false,
      not_and_or, not_not, ne_eq]
  | email =>
    show check field v (bytes "email") [] = none ↔ _
    rw [check, if_neg (by decide), if_neg (by decide), if_pos rfl, holds_email_iff]
    cases find v [64] 0 with
    | none => simp
    | some sign => simp
  | oneOf choices =>
    show check field v (bytes "in") (List.intercalate [44] choices.texts) = none ↔ _
    rw [check, if_neg (by decide), if_neg (by decide), if_neg (by decide), if_neg (by decide),
      if_neg (by decide), if_pos rfl, split,
      List.splitOn_intercalate 44 (fun t ht => (choices.plain t ht).1) choices.ne_nil]
    simp [Check.Holds]
  | min n =>
    -- A number beyond `long` is read as zero, which is excluded here.
    have hfar : ¬ (TooLarge v ∨ TooSmall v) := h
    show check field v (bytes "min") n.numeral.text = none ↔ ∃ m, Measures v m ∧ n.value ≤ m
    rw [check, if_neg (by decide), if_neg (by decide), if_neg (by decide), if_pos rfl,
      toLong_of_fits n.fits, ite_eq_right_iff]
    simp [measures_iff hfar, Bound.value]
  | max n =>
    have hfar : ¬ (TooLarge v ∨ TooSmall v) := h
    show check field v (bytes "max") n.numeral.text = none ↔ ∃ m, Measures v m ∧ m ≤ n.value
    rw [check, if_neg (by decide), if_neg (by decide), if_neg (by decide), if_neg (by decide),
      if_pos rfl, toLong_of_fits n.fits, ite_eq_right_iff]
    simp [measures_iff hfar, Bound.value]

/-- A bound on a number beyond `long` adds no message exactly where it admits `0`. -/
theorem check_of_strained (field : Bytes) {v : Bytes} {c : Check}
    (h : (Rule.check c).Strained v) :
    check field v c.name (c.param.getD []) = none ↔ (Rule.check c).AdmitsZero := by
  cases c with
  | min n =>
    have hfar : TooLarge v ∨ TooSmall v := h
    show check field v (bytes "min") n.numeral.text = none ↔ n.value ≤ 0
    rw [check, if_neg (by decide), if_neg (by decide), if_neg (by decide), if_pos rfl,
      toLong_of_fits n.fits, measure_of_strained hfar, ite_eq_right_iff]
    simp [Bound.value]
  | max n =>
    have hfar : TooLarge v ∨ TooSmall v := h
    show check field v (bytes "max") n.numeral.text = none ↔ 0 ≤ n.value
    rw [check, if_neg (by decide), if_neg (by decide), if_neg (by decide), if_neg (by decide),
      if_pos rfl, toLong_of_fits n.fits, measure_of_strained hfar, ite_eq_right_iff]
    simp [Bound.value]
  | _ => cases h

/-- Only a number is bounded beyond `long`. -/
theorem far_of_strained {v : Bytes} {r : Rule} (h : r.Strained v) : TooLarge v ∨ TooSmall v := by
  cases r with
  | required => cases h
  | check c =>
    cases c with
    | min n => exact h
    | max n => exact h
    | _ => cases h

/-- A number is no empty text. -/
theorem ne_nil_of_strained {v : Bytes} {r : Rule} (h : r.Strained v) : v ≠ [] := by
  have hint := isInteger_iff.mpr (number_of_far (far_of_strained h))
  rintro rfl
  cases hint

/-- A number beyond `long` is above every bound, or below every bound. -/
theorem met_of_strained {v : Bytes} {r : Rule} (h : r.Strained v) : r.Met v ↔ r.AdmitsFar v := by
  have hne := ne_nil_of_strained h
  have hfar := far_of_strained h
  obtain ⟨z, rfl⟩ := number_of_far hfar
  rw [tooLarge_iff, tooSmall_iff] at hfar
  cases r with
  | required => cases h
  | check c =>
    cases c with
    | min n =>
      have hfits : inInt64 n.value := n.fits
      show (z.text ≠ [] → ∃ m, Measures z.text m ∧ n.value ≤ m) ↔ ¬ TooSmall z.text
      simp only [forall_prop_of_true hne, measures_number, exists_eq_left, tooSmall_iff]
      have := hfits.1
      have := hfits.2
      omega
    | max n =>
      have hfits : inInt64 n.value := n.fits
      show (z.text ≠ [] → ∃ m, Measures z.text m ∧ m ≤ n.value) ↔ ¬ TooLarge z.text
      simp only [forall_prop_of_true hne, measures_number, exists_eq_left, tooLarge_iff]
      have := hfits.1
      have := hfits.2
      omega
    | _ => cases h

/-- The message of a check. -/
theorem message_check (field v : Bytes) (c : Check) :
    message field v (Rule.check c).text =
      if v = [] then none else check field v c.name (c.param.getD []) := by
  have hname : c.name ≠ bytes "required" := by cases c <;> simp only [Check.name] <;> decide
  simp only [message, splitParam_text, if_neg hname]

/-- The message of `required`. -/
theorem message_required (field v : Bytes) :
    message field v Rule.required.text = none ↔ v ≠ [] := by
  have hsplit : splitParam (bytes "required") = (bytes "required", []) :=
    splitParam_of_notMem (by decide)
  simp only [Rule.text, message, hsplit, if_true, ite_eq_right_iff, reduceCtorEq, imp_false, ne_eq]

/-- A rule that bounds no number beyond `long` is judged as it should be. -/
theorem message_eq_none_iff (field : Bytes) {v : Bytes} {r : Rule} (h : ¬ r.Strained v) :
    message field v r.text = none ↔ r.Met v := by
  cases r with
  | required => exact message_required field v
  | check c =>
    rw [message_check]
    by_cases hv : v = []
    · rw [if_pos hv]
      exact iff_of_true rfl fun hne => absurd hv hne
    · show _ ↔ (v ≠ [] → c.Holds v)
      rw [if_neg hv, check_eq_none_iff field h, forall_prop_of_true hv]

/-- A bound on a number beyond `long` is judged as if the number were `0`. -/
theorem message_of_strained (field : Bytes) {v : Bytes} {r : Rule} (h : r.Strained v) :
    message field v r.text = none ↔ r.AdmitsZero := by
  cases r with
  | required => cases h
  | check c => rw [message_check, if_neg (ne_nil_of_strained h), check_of_strained field h]

/-- Whether there is a message does not depend on the name of the field. -/
theorem message_field_irrelevant (field field' : Bytes) {v : Bytes} {r : Rule} :
    message field v r.text = none ↔ message field' v r.text = none := by
  by_cases h : r.Strained v
  · rw [message_of_strained field h, message_of_strained field' h]
  · rw [message_eq_none_iff field h, message_eq_none_iff field' h]

/-! ### A whole form -/

/-- The messages of a form, with the field each is about, in the order of the rules. -/
def messages (data : StringMap) (rules : List (Bytes × Bytes)) : List (Bytes × Bytes) :=
  rules.flatMap fun fs => (split fs.2 124).filterMap fun rule =>
    (message fs.1 ((data.lookup fs.1).getD []) rule).map (Prod.mk fs.1)

/-- Adding messages one after the other. -/
def Validator.addAll (v : Validator) (entries : List (Bytes × Bytes)) : Validator :=
  { v with errors := entries.foldl (addUnder Prod.fst Prod.snd) v.errors }

/-- The rules of one field. -/
theorem foldl_apply (field : Bytes) (rules : List Bytes) (v : Validator) :
    rules.foldl (fun v rule => v.apply field rule) v =
      v.addAll (rules.filterMap fun rule =>
        (message field ((v.data.lookup field).getD []) rule).map (Prod.mk field)) := by
  induction rules generalizing v with
  | nil => rfl
  | cons rule rules ih =>
    rw [List.foldl_cons, ih]
    cases hmessage : message field ((v.data.lookup field).getD []) rule with
    | none =>
      have happly : v.apply field rule = v := by
        simp only [Validator.apply, Validator.valueOf, hmessage]
      rw [happly, List.filterMap_cons_none (by rw [hmessage, Option.map_none])]
    | some msg =>
      have happly : v.apply field rule = v.add field msg := by
        simp only [Validator.apply, Validator.valueOf, hmessage]
      rw [happly, List.filterMap_cons_some (by rw [hmessage, Option.map_some])]
      rfl

/-- The rules of all fields. -/
theorem foldl_fields (rules : List (Bytes × Bytes)) (v : Validator) :
    rules.foldl (fun v fs => (split fs.2 124).foldl (fun v rule => v.apply fs.1 rule) v) v =
      v.addAll (messages v.data rules) := by
  induction rules generalizing v with
  | nil => rfl
  | cons fs rules ih =>
    rw [List.foldl_cons, foldl_apply, ih]
    simp only [Validator.addAll, messages, List.flatMap_cons, List.foldl_append]

/-- `validate` leaves the messages of the form behind, by their fields. -/
theorem lookup_errors (v : Validator) (rules : List (Bytes × Bytes)) (field : Bytes) :
    (v.validate rules).2.errors.lookup field =
      groupOf (((messages v.data rules).filter (·.1 = field)).map Prod.snd) := by
  have hrun := foldl_fields rules { v with errors := ∅ }
  have herrors : (v.validate rules).2.errors
      = (messages v.data rules).foldl (addUnder Prod.fst Prod.snd) ∅ := congrArg _ hrun
  rw [herrors, lookup_foldl_empty]

/-- `validate` passes a form that has no message. -/
theorem validate_fst (v : Validator) (rules : List (Bytes × Bytes)) :
    (v.validate rules).1 = true ↔ messages v.data rules = [] := by
  have hpasses : (v.validate rules).1 = true ↔ (v.validate rules).2.errors = ∅ :=
    decide_eq_true_iff
  rw [hpasses]
  constructor
  · intro hempty
    by_contra hne
    obtain ⟨⟨field, msg⟩, entries, hmessages⟩ := List.exists_cons_of_ne_nil hne
    have hlookup := lookup_errors v rules field
    rw [hempty, hmessages, List.filter_cons_of_pos (by simp), groupOf, if_neg (by simp)] at hlookup
    cases hlookup
  · intro hnone
    refine Finmap.ext_lookup fun field => ?_
    rw [lookup_errors, hnone]
    rfl

/-- A rule that a form puts on a value. -/
def Applies (data : StringMap) (form : List (Bytes × List Rule)) (x : Bytes) (r : Rule) : Prop :=
  ∃ fr ∈ form, r ∈ fr.2 ∧ (data.lookup fr.1).getD [] = x

/-- A form as it is given to `validate`. -/
def specs (form : List (Bytes × List Rule)) : List (Bytes × Bytes) :=
  form.map fun fr => (fr.1, spec fr.2)

/-- The empty text is no rule. -/
theorem message_nil (field v : Bytes) : message field v [] = none := by
  have hsplit : splitParam [] = ([], []) := splitParam_of_notMem List.not_mem_nil
  have hcheck : check field v [] [] = none := rfl
  rw [message, hsplit]
  dsimp only
  rw [if_neg (by decide), hcheck, ite_self]

/-- A field has no message if none of its rules has one. -/
theorem messages_field (field v : Bytes) (rules : List Rule) :
    (∀ rule ∈ split (spec rules) 124, message field v rule = none) ↔
      ∀ r ∈ rules, message field v r.text = none := by
  by_cases hrules : rules = []
  · -- A field without rules has one text between bars, the empty one.
    subst hrules
    have hsplit : split (spec []) 124 = [[]] := rfl
    rw [hsplit]
    exact iff_of_true (by simp [message_nil]) (by simp)
  · rw [split_spec hrules, List.forall_mem_map]

/-- A form has no message if none of its rules has one. -/
theorem messages_eq_nil_iff {data : StringMap} {form : List (Bytes × List Rule)} :
    messages data (specs form) = [] ↔
      ∀ fr ∈ form, ∀ r ∈ fr.2, message fr.1 ((data.lookup fr.1).getD []) r.text = none := by
  simp only [messages, specs, List.flatMap_eq_nil_iff, List.forall_mem_map,
    List.filterMap_eq_nil_iff, Option.map_eq_none_iff, messages_field]

/-- What is true of every rule with its field is true of every rule with its value. -/
theorem forall_applies {data : StringMap} {form : List (Bytes × List Rule)}
    {P : Bytes → Rule → Prop} :
    (∀ x r, Applies data form x r → P x r) ↔
      ∀ fr ∈ form, ∀ r ∈ fr.2, P ((data.lookup fr.1).getD []) r := by
  constructor
  · intro h fr hfr r hr
    exact h _ r ⟨fr, hfr, hr, rfl⟩
  · rintro h x r ⟨fr, hfr, hr, rfl⟩
    exact h fr hfr r hr

/-- Two judgements of the rules agree about the whole form, where they agree about all rules but
those that `M` picks. -/
theorem agree_iff {α β : Type} {S M P Q Z F : α → β → Prop}
    (hsame : ∀ x r, ¬ M x r → (P x r ↔ Q x r)) (hP : ∀ x r, M x r → (P x r ↔ Z x r))
    (hQ : ∀ x r, M x r → (Q x r ↔ F x r)) :
    ((∀ x r, S x r → P x r) ↔ ∀ x r, S x r → Q x r) ↔
      (∃ x r, S x r ∧ ¬ M x r ∧ ¬ Q x r) ∨
        ((∀ x r, S x r → M x r → Z x r) ↔ ∀ x r, S x r → M x r → F x r) := by
  by_cases hother : ∃ x r, S x r ∧ ¬ M x r ∧ ¬ Q x r
  · -- A rule outside `M` fails, and with it both judgements.
    obtain ⟨x, r, hi, hM, hQi⟩ := hother
    have hPi : ¬ P x r := fun h => hQi ((hsame x r hM).mp h)
    exact iff_of_true (iff_of_false (fun h => hPi (h x r hi)) fun h => hQi (h x r hi))
      (.inl ⟨x, r, hi, hM, hQi⟩)
  · -- All rules outside `M` hold, so only those in it decide.
    have hall : ∀ x r, S x r → ¬ M x r → Q x r := by
      intro x r hi hM
      by_contra hQi
      exact hother ⟨x, r, hi, hM, hQi⟩
    have hsplitP : (∀ x r, S x r → P x r) ↔ ∀ x r, S x r → M x r → Z x r := by
      constructor
      · intro h x r hi hM
        exact (hP x r hM).mp (h x r hi)
      · intro h x r hi
        by_cases hM : M x r
        · exact (hP x r hM).mpr (h x r hi hM)
        · exact (hsame x r hM).mpr (hall x r hi hM)
    have hsplitQ : (∀ x r, S x r → Q x r) ↔ ∀ x r, S x r → M x r → F x r := by
      constructor
      · intro h x r hi hM
        exact (hQ x r hM).mp (h x r hi)
      · intro h x r hi
        by_cases hM : M x r
        · exact (hQ x r hM).mpr (h x r hi hM)
        · exact hall x r hi hM
    rw [or_iff_right hother, hsplitP, hsplitQ]

/-- `validate` answers what the rules of the form ask for. -/
def ValidatesAsAsked (v : Validator) (form : List (Bytes × List Rule)) : Prop :=
  (v.validate (specs form)).1 = true ↔ ∀ x r, Applies v.data form x r → r.Met x

/-- Where `0` in place of the numbers beyond `long` makes no difference: another rule is not met,
or the bounds on these numbers all admit `0` exactly if they all lie where the numbers do not. -/
def ZeroWillDo (data : StringMap) (form : List (Bytes × List Rule)) : Prop :=
  (∃ x r, Applies data form x r ∧ ¬ r.Strained x ∧ ¬ r.Met x) ∨
    ((∀ x r, Applies data form x r → r.Strained x → r.AdmitsZero) ↔
      ∀ x r, Applies data form x r → r.Strained x → r.AdmitsFar x)

/-- **A form passes if its rules are met, unless it bounds a number that does not fit.** For every
map of data and every list of rules: `validate` is true exactly if every required field is non-empty
and every other rule holds of every non-empty field, with the exact value of a number of any
length, if and only if `0` in place of the numbers beyond `long` makes no difference. -/
theorem validates_iff (v : Validator) (form : List (Bytes × List Rule)) :
    ValidatesAsAsked v form ↔ ZeroWillDo v.data form := by
  have hcode : (v.validate (specs form)).1 = true ↔
      ∀ x r, Applies v.data form x r → message [] x r.text = none := by
    rw [validate_fst, messages_eq_nil_iff, forall_applies]
    simp only [message_field_irrelevant _ []]
  rw [ValidatesAsAsked, hcode, ZeroWillDo]
  exact agree_iff (fun _ _ => message_eq_none_iff []) (fun _ _ => message_of_strained [])
    fun _ _ => met_of_strained

/-- The smallest number that is too large, as an age. -/
def largeAge : Validator where
  data := Finmap.singleton (bytes "age") (natToString (2 ^ 63))

/-- A maximum of `100`. -/
def atMostHundred : Rule := .check (.max ⟨⟨.absent, natNumeral 100⟩, by decide⟩)

/-- An age of `9223372036854775808` passes `max:100`. -/
theorem large_age_passes : ¬ ValidatesAsAsked largeAge [(bytes "age", [atMostHundred])] := by
  intro hasked
  have hpasses : (largeAge.validate (specs [(bytes "age", [atMostHundred])])).1 = true := by
    decide
  have hmet := hasked.mp hpasses (natToString (2 ^ 63)) atMostHundred
    ⟨_, List.mem_singleton.mpr rfl, List.mem_singleton.mpr rfl, by decide⟩
  obtain ⟨m, hm, hle⟩ := hmet (natToString_ne_nil _)
  have htext : natToString (2 ^ 63) = SignedNumeral.text ⟨.absent, natNumeral (2 ^ 63)⟩ := rfl
  rw [htext, measures_number] at hm
  subst hm
  exact absurd hle (by decide)

end CppLaravel.Validation
