import CppLaravel.Proofs.Livewire.Braces

/-!
# `CppLaravel.Proofs.Livewire.State`: the state of a request

`object_field` looks for the first brace behind the first thing that looks like the key
`state`. A name, an action or an argument can look like that key, and the brace is then looked
for in the values that follow it.

* `seek_fields`: the search for a brace over fields is the search over their values.
* `openObject_behind`: what is taken for the state from a brace inside a value.
* `objectField_state_iff`: when the state is what `object_field` returns.
-/

set_option autoImplicit false

namespace CppLaravel.Livewire

open CppLaravel.Lib
open CppLaravel.Http

/-- Fields with strings for values, each behind a comma. -/
def fieldsText (fields : List (Bytes × Bytes)) : Bytes :=
  fields.flatMap fun kv => comma :: entry kv

/-- The values of the fields, each with its closing quote. -/
def values (fields : List (Bytes × Bytes)) : Bytes := fields.flatMap fun kv => kv.2 ++ [quote]

/-- A key of lower-case letters. -/
def Label (key : Bytes) : Prop := key ≠ [] ∧ ∀ c ∈ key, 97 ≤ c ∧ c ≤ 122

instance (key : Bytes) : Decidable (Label key) :=
  @instDecidableAnd _ _ inferInstance (List.decidableBAll _ key)

theorem fieldsText_cons (kv : Bytes × Bytes) (fields : List (Bytes × Bytes)) (tail : Bytes) :
    fieldsText (kv :: fields) ++ tail = comma :: (entry kv ++ (fieldsText fields ++ tail)) := by
  simp [fieldsText]

theorem values_cons (kv : Bytes × Bytes) (fields : List (Bytes × Bytes)) :
    values (kv :: fields) = kv.2 ++ quote :: values fields := by
  simp [values]

/-! ### Looking for a brace -/

theorem esc_append (s t : Bytes) : esc (s ++ t) = esc s ++ esc t := by
  rw [esc_eq, esc_eq, esc_eq, Escaping.write_append]

/-- Escaping writes no brace that was not there. -/
theorem lbrace_not_mem_esc {s : Bytes} (h : lbrace ∉ s) : lbrace ∉ esc s := by
  have hcode : ∀ c, escaping.code c = some lbrace → c = lbrace := by
    intro c hc
    simp only [escaping] at hc
    grind
  have hself : escaping.code lbrace = none := rfl
  have hmem : lbrace ∈ escaping.write s ↔ lbrace ∈ s :=
    Escaping.mem_write (E := escaping) (by decide) hcode fun e he => by rw [hself] at he; cases he
  rwa [esc_eq, hmem]

theorem lbrace_not_mem_label {key : Bytes} (h : Label key) : lbrace ∉ key := by
  intro hmem
  exact absurd (h.2 lbrace hmem).2 (by decide)

/-- The text of a field up to its value. -/
theorem lbrace_not_mem_key {key s : Bytes} (hkey : Label key) (hs : lbrace ∉ s) :
    lbrace ∉ comma :: (str key ++ colon :: quote :: esc s) := by
  have hk := lbrace_not_mem_esc (lbrace_not_mem_label hkey)
  have hv := lbrace_not_mem_esc hs
  have hplain : lbrace ≠ comma ∧ lbrace ≠ quote ∧ lbrace ≠ colon := by decide
  simp [str, hk, hv, hplain]

/-- **The search for a brace over fields is the search over their values**: it finds nothing
in both, or the same place in both. -/
theorem seek_fields {fields : List (Bytes × Bytes)} (hkeys : ∀ kv ∈ fields, Label kv.1) :
    (seek [lbrace] (values fields) = none ∧
        ∀ tail, seek [lbrace] (fieldsText fields ++ tail) = seek [lbrace] tail) ∨
      ∃ v post, seek [lbrace] (values fields) = some (lbrace :: (v ++ quote :: values post)) ∧
        (∀ kv ∈ post, Label kv.1) ∧
        ∀ tail, seek [lbrace] (fieldsText fields ++ tail) =
          some (lbrace :: (esc v ++ quote :: (fieldsText post ++ tail))) := by
  induction fields with
  | nil => exact .inl ⟨rfl, fun _ => rfl⟩
  | cons kv fields ih =>
    obtain ⟨k, s⟩ := kv
    have hk : Label k := hkeys _ List.mem_cons_self
    have hrest : ∀ kv ∈ fields, Label kv.1 := fun kv hkv => hkeys kv (List.mem_cons_of_mem _ hkv)
    have htext : ∀ tail, fieldsText ((k, s) :: fields) ++ tail =
        (comma :: (str k ++ colon :: quote :: esc s)) ++
          quote :: (fieldsText fields ++ tail) := by
      intro tail
      rw [fieldsText_cons, entry, List.append_assoc, List.cons_append, str_append s]
      simp
    by_cases hs : lbrace ∈ s
    · -- The brace is in this value.
      right
      obtain ⟨a, v, rfl, ha⟩ := List.eq_append_cons_of_mem hs
      refine ⟨v, fields, ?_, hrest, ?_⟩
      · rw [values_cons, List.append_assoc]
        exact seek_single ha _
      · intro tail
        have hbefore := lbrace_not_mem_key hk ha
        have hesc : esc (lbrace :: v) = lbrace :: esc v := rfl
        have hsplit : fieldsText ((k, a ++ lbrace :: v) :: fields) ++ tail =
            (comma :: (str k ++ colon :: quote :: esc a)) ++
              lbrace :: (esc v ++ quote :: (fieldsText fields ++ tail)) := by
          rw [htext, esc_append, hesc]
          simp
        rw [hsplit]
        exact seek_single hbefore _
    · -- The value is passed, in both.
      have hskip : ∀ tail, seek [lbrace] (fieldsText ((k, s) :: fields) ++ tail) =
          seek [lbrace] (fieldsText fields ++ tail) := by
        intro tail
        rw [htext, seek_append_of_not_mem (lbrace_not_mem_key hk hs),
          seek_cons_of_ne (by decide)]
      have hvalues : seek [lbrace] (values ((k, s) :: fields)) = seek [lbrace] (values fields) := by
        rw [values_cons, seek_append_of_not_mem hs, seek_cons_of_ne (by decide)]
      rcases ih hrest with ⟨hnone, h⟩ | ⟨v, post, hsome, hpost, h⟩
      · exact .inl ⟨hvalues.trans hnone, fun tail => (hskip tail).trans (h tail)⟩
      · exact .inr ⟨v, post, hvalues.trans hsome, hpost, fun tail => (hskip tail).trans (h tail)⟩

/-! ### An object that begins inside a value -/

theorem level_label {key : Bytes} (h : Label key) (d : Nat) : level key d = some d := by
  obtain ⟨-, hmem⟩ := h
  induction key with
  | nil => rfl
  | cons c key ih =>
    obtain ⟨-, hle⟩ := hmem c List.mem_cons_self
    rw [level_other (fun h => absurd (h ▸ hle) (by decide))
      (fun h => absurd (h ▸ hle) (by decide))]
    exact ih fun c hc => hmem c (List.mem_cons_of_mem _ hc)

/-- Fields have the braces of their values. -/
theorem level_fieldsText {fields : List (Bytes × Bytes)} (hkeys : ∀ kv ∈ fields, Label kv.1)
    (tail : Bytes) (d : Nat) :
    level (fieldsText fields ++ tail) d = (level (values fields) d).bind (level tail) := by
  induction fields generalizing d with
  | nil => rfl
  | cons kv fields ih =>
    obtain ⟨k, s⟩ := kv
    have hk : Label k := hkeys _ List.mem_cons_self
    rw [fieldsText_cons, values_cons, level_other (by decide) (by decide), level_entry,
      level_append, level_label hk, Option.bind_some, level_append, Option.bind_assoc]
    congr 1
    funext e
    rw [level_other (by decide) (by decide)]
    exact ih (fun kv hkv => hkeys kv (List.mem_cons_of_mem _ hkv)) e

/-- What follows a value is no entry of an object: a key comes where a colon would be. -/
theorem not_key_behind {post : List (Bytes × Bytes)} (hpost : ∀ kv ∈ post, Label kv.1)
    (state : List (Bytes × Bytes)) :
    ∃ c t, c ≠ colon ∧ fieldsText post ++ comma :: stateText state = comma :: quote :: c :: t := by
  cases post with
  | nil => exact ⟨115, _, by decide, rfl⟩
  | cons kv post =>
    obtain ⟨hne, hletters⟩ := hpost kv List.mem_cons_self
    obtain ⟨k, s⟩ := kv
    obtain ⟨c, k, rfl⟩ := List.exists_cons_of_ne_nil hne
    obtain ⟨hge, -⟩ := hletters c List.mem_cons_self
    have hplain : ∀ x ∈ [quote, backslash, 10, 13, 9, colon], c ≠ x := by
      rintro x hx rfl
      have hsmall : ∀ x ∈ [quote, backslash, 10, 13, 9, colon], ¬ 97 ≤ x :=
        List.all_iff_forall_prop.mp (by decide)
      exact hsmall c hx hge
    have hesc : esc (c :: k) = c :: esc k := by
      rw [esc, if_neg (hplain _ (by decide)), if_neg (hplain _ (by decide)),
        if_neg (hplain _ (by decide)), if_neg (hplain _ (by decide)),
        if_neg (hplain _ (by decide))]
    rw [fieldsText_cons, entry, List.append_assoc, str_append, hesc]
    exact ⟨c, _, hplain _ (by decide), rfl⟩

/-- What is taken is a part of the text, or the default. -/
theorem openObject_prefix (u : Bytes) : openObject u = bytes "\x7b\x7d" ∨ openObject u <+: u := by
  rw [openObject]
  cases objectEnd u 0 with
  | none => exact .inl rfl
  | some n => exact .inr (List.take_prefix n u)

/-- Behind its brace an object with an entry has a quote, a key, a quote and a colon. -/
theorem object_cons (kv : Bytes × Bytes) (state : List (Bytes × Bytes)) :
    ∃ y, object (kv :: state) = lbrace :: quote :: (esc kv.1 ++ quote :: colon :: y) := by
  cases state with
  | nil => exact ⟨str kv.2 ++ [rbrace], by rw [object_eq, body_singleton, entry]; simp [str]⟩
  | cons kv' state =>
    exact ⟨str kv.2 ++ comma :: body (kv' :: state) ++ [rbrace], by
      rw [object_eq, body_cons_cons, entry]; simp [str]⟩

/-- An object with an entry is not what begins at a brace inside a value. -/
theorem openObject_ne_object (v : Bytes) {post : List (Bytes × Bytes)}
    (hpost : ∀ kv ∈ post, Label kv.1) {state : List (Bytes × Bytes)} (hne : state ≠ []) :
    openObject (lbrace :: (esc v ++ quote :: (fieldsText post ++ comma :: stateText state))) ≠
      object state := by
  obtain ⟨kv, state, rfl⟩ := List.exists_cons_of_ne_nil hne
  obtain ⟨y, hy⟩ := object_cons kv state
  obtain ⟨c, t, hc, htext⟩ := not_key_behind hpost (kv :: state)
  intro h
  rcases openObject_prefix (lbrace ::
    (esc v ++ quote :: (fieldsText post ++ comma :: stateText (kv :: state)))) with hdef | hpre
  · rw [h, hy] at hdef
    cases hdef
  · rw [h, hy, htext] at hpre
    obtain ⟨r, hr⟩ := hpre
    have hbehind : quote :: (esc kv.1 ++ quote :: colon :: (y ++ r)) =
        esc v ++ quote :: (comma :: quote :: c :: t) := by
      simpa using hr
    -- Reading both sides as strings: the value is at its end, and the key would be a comma.
    have hv : v = [] := by
      have hread := congrArg (fun u => (readString u).1) hbehind
      simp only [readString_esc] at hread
      rw [readString, scan_quote (by decide)] at hread
      exact List.map_eq_nil_iff.mp hread.symm
    subst hv
    have hkey : esc kv.1 ++ quote :: (colon :: (y ++ r)) = esc [comma] ++ quote :: (c :: t) :=
      List.cons_inj_right _ |>.mp hbehind
    have hread := congrArg (fun u => (readString u).2) hkey
    simp only [readString_esc] at hread
    cases hread
    exact hc rfl

theorem objectEnd_pos {w : Bytes} {n : Nat} (h : objectEnd w 1 = some n) : 1 ≤ n := by
  rcases objectEnd_append w [] (le_refl 1) with ⟨d, -, hend⟩ | ⟨-, m, hm, -, hend⟩
  · rw [List.append_nil, Nat.cast_one, h] at hend
    cases hend
  · rw [List.append_nil, Nat.cast_one, h] at hend
    cases hend
    exact hm

/-- The empty object is taken if the next byte closes the brace, or if nothing closes it. -/
theorem openObject_eq_empty_iff (w : Bytes) :
    openObject (lbrace :: w) = object [] ↔ w.head? = some rbrace ∨ (level w 1).isSome := by
  rw [openObject_lbrace, ← objectEnd_eq_none_iff w (le_refl 1), Nat.cast_one]
  cases hend : objectEnd w 1 with
  | none => exact iff_of_true rfl (.inr rfl)
  | some n =>
    obtain ⟨m, rfl⟩ : ∃ m, n = m + 1 := ⟨n - 1, by have := objectEnd_pos hend; omega⟩
    cases w with
    | nil => cases hend
    | cons c w =>
      constructor
      · intro h
        have hc : c :: w.take m = [rbrace] := List.cons_inj_right _ |>.mp h
        left
        rw [List.head?_cons, (List.cons_eq_cons.mp hc).1]
      · rintro (h | h)
        · obtain rfl : c = rbrace := Option.some.inj h
          have hone : objectEnd (rbrace :: w) 1 = some 1 := rfl
          rw [hone] at hend
          cases hend
          rfl
        · cases h

/-- Escaping changes no byte into a closing brace, and leaves it where it is. -/
theorem head_esc_eq_rbrace_iff (c : UInt8) (s rest : Bytes) :
    (esc (c :: s) ++ rest).head? = some rbrace ↔ c = rbrace := by
  by_cases hc : c = rbrace
  · subst hc
    exact iff_of_true rfl rfl
  · have hback : backslash ≠ rbrace := by decide
    rw [esc]
    repeat' split
    all_goals simp [hc, hback]

/-- The empty object at a brace inside a value, by the values from that brace on. -/
theorem openObject_behind_iff (v : Bytes) {post : List (Bytes × Bytes)}
    (hpost : ∀ kv ∈ post, Label kv.1) :
    openObject (lbrace :: (esc v ++ quote :: (fieldsText post ++ comma :: stateText []))) =
        object [] ↔
      [lbrace, rbrace] <+: lbrace :: (v ++ quote :: values post) ∨
        2 ≤ (level (lbrace :: (v ++ quote :: values post)) 0).getD 0 := by
  have hhead : (esc v ++ quote :: (fieldsText post ++ comma :: stateText [])).head? =
      some rbrace ↔ [lbrace, rbrace] <+: lbrace :: (v ++ quote :: values post) := by
    rw [List.cons_prefix_cons, and_iff_right rfl]
    cases v with
    | nil =>
      have hne : rbrace ≠ quote := by decide
      rw [List.nil_append, List.cons_prefix_cons]
      exact iff_of_false (fun h => hne (Option.some.inj h).symm) fun h => hne h.1
    | cons c v =>
      rw [head_esc_eq_rbrace_iff, List.cons_append, List.cons_prefix_cons,
        and_iff_left List.nil_prefix]
      exact eq_comm
  have hlevel : level (esc v ++ quote :: (fieldsText post ++ comma :: stateText [])) 1 =
      (level (lbrace :: (v ++ quote :: values post)) 0).bind (level [lbrace, rbrace, rbrace]) := by
    have hstate : level (comma :: stateText []) = level [lbrace, rbrace, rbrace] := rfl
    rw [level_lbrace, level_append, level_append, level_esc, Option.bind_assoc]
    congr 1
    funext d
    rw [level_other (by decide) (by decide), level_other (by decide) (by decide),
      level_fieldsText hpost, hstate]
  rw [openObject_eq_empty_iff, hhead, hlevel]
  -- The empty state adds no brace, and the end of the request closes one.
  refine or_congr_right ?_
  cases level (lbrace :: (v ++ quote :: values post)) 0 with
  | none => exact iff_of_false (by simp) (by simp)
  | some d =>
    rw [Option.bind_some, level_lbrace, level_rbrace, level_rbrace, Option.getD_some]
    grind [level]

/-! ### The state of a request -/

/-- The fields behind the first thing in a request that looks like the key `state`. -/
def behindState (name action arg : Bytes) : List (Bytes × Bytes) :=
  if escaping.Imitates (bytes "state") name then [(bytes "action", action), (bytes "arg", arg)]
  else if escaping.Imitates (bytes "state") action then [(bytes "arg", arg)]
  else []

/-- The values in which the brace of the state is looked for hold none and the state is
balanced; or the state is empty, and the first brace in them is closed at once or the values
from it on leave two open. -/
def StateFound (name action arg : Bytes) (state : List (Bytes × Bytes)) : Prop :=
  match seek [lbrace] (values (behindState name action arg)) with
  | none => level (content state) 1 = some 1
  | some t => state = [] ∧ ([lbrace, rbrace] <+: t ∨ 2 ≤ (level t 0).getD 0)

instance (name action arg : Bytes) (state : List (Bytes × Bytes)) :
    Decidable (StateFound name action arg state) := by
  unfold StateFound
  cases seek [lbrace] (values (behindState name action arg)) <;> infer_instance

theorem behindState_label (name action arg : Bytes) :
    ∀ kv ∈ behindState name action arg, Label kv.1 := by
  have haction : Label (bytes "action") := by decide
  have harg : Label (bytes "arg") := by decide
  rw [behindState]
  split
  · simp [haction, harg]
  split
  · simp [harg]
  · simp

/-- Where the search for the key ends. -/
theorem seek_state (name action arg : Bytes) (state : List (Bytes × Bytes)) :
    ∃ sep, lbrace ∉ sep ∧ (behindState name action arg ≠ [] →
        sep = comma :: (str (bytes "state") ++ [colon])) ∧
      seek (quoted (bytes "state")) (requestText name action arg state) =
        some (quoted (bytes "state") ++
          (fieldsText (behindState name action arg) ++ (sep ++ (object state ++ [rbrace])))) := by
  have hcomma := Escaping.not_key_prefix (E := escaping) (bytes "state") comma (by decide)
  have hseek : seek (quoted (bytes "state")) (requestText name action arg state) = _ :=
    seek_requestText name action arg state (by decide) (by decide) (by decide) (by decide)
  have hbehind : comma :: stateText state =
      comma :: (str (bytes "state") ++ [colon]) ++ (object state ++ [rbrace]) := by
    simp [stateText]
  have hlb : lbrace ∉ comma :: (str (bytes "state") ++ [colon]) := by decide
  rw [behindState]
  -- The first field whose value imitates the key ends the search: name, action, argument.
  by_cases hname : escaping.Imitates (bytes "state") name
  · refine ⟨_, hlb, fun _ => rfl, ?_⟩
    rw [hseek, if_pos hname, if_pos hname, ← hbehind]
    simp [actionText, argText, fieldsText]
  rw [if_neg hname, actionText, seek_entry (by decide) (by decide) _ _ (hcomma _),
    if_neg (by decide)] at hseek
  rw [if_neg hname]
  by_cases haction : escaping.Imitates (bytes "state") action
  · refine ⟨_, hlb, fun _ => rfl, ?_⟩
    rw [hseek, if_pos haction, if_pos haction, ← hbehind]
    simp [argText, fieldsText]
  rw [if_neg haction, seek_quoted_cons (by decide), argText,
    seek_entry (by decide) (by decide) _ _ (hcomma _), if_neg (by decide)] at hseek
  rw [if_neg haction]
  by_cases harg : escaping.Imitates (bytes "state") arg
  · refine ⟨_, hlb, fun h => absurd rfl h, ?_⟩
    rw [hseek, if_pos harg, hbehind]
    rfl
  · -- No value does, so it is the key itself.
    refine ⟨[colon], by decide, fun h => absurd rfl h, ?_⟩
    have hkey : stateText state =
        quoted (bytes "state") ++ colon :: (object state ++ [rbrace]) := rfl
    rw [hseek, if_neg harg, seek_quoted_cons (by decide), hkey,
      seek_of_isPrefix (List.prefix_append _ _)]
    rfl

/-- **The text of the state is what `object_field` returns exactly if it is found.** -/
theorem objectField_state_iff (name action arg : Bytes) (state : List (Bytes × Bytes)) :
    objectField (requestText name action arg state) (bytes "state") = object state ↔
      StateFound name action arg state := by
  obtain ⟨sep, hsep, hfields, hkey⟩ := seek_state name action arg state
  have hbrace : seek [lbrace] (quoted (bytes "state") ++
        (fieldsText (behindState name action arg) ++ (sep ++ (object state ++ [rbrace])))) =
      seek [lbrace] (fieldsText (behindState name action arg) ++
        (sep ++ (object state ++ [rbrace]))) := seek_append_of_not_mem (by decide) _
  rw [StateFound]
  rcases seek_fields (behindState_label name action arg) with
    ⟨hnone, h⟩ | ⟨v, post, hsome, hpost, h⟩
  · -- No value has a brace, so the next one opens the state.
    rw [h, seek_append_of_not_mem hsep, object_eq, List.cons_append,
      seek_of_isPrefix (List.cons_prefix_cons.mpr ⟨rfl, List.nil_prefix⟩)] at hbrace
    rw [objectField_of_seek hkey hbrace, hnone]
    exact openObject_object_iff state
  · -- A value has one: the object is read from within that value.
    have hne : behindState name action arg ≠ [] := by
      intro hnil
      rw [hnil] at hsome
      cases hsome
    have htail : sep ++ (object state ++ [rbrace]) = comma :: stateText state := by
      rw [hfields hne, stateText]
      simp
    rw [htail] at hkey
    rw [h, htail] at hbrace
    rw [objectField_of_seek hkey hbrace, hsome]
    by_cases hstate : state = []
    · subst hstate
      exact (openObject_behind_iff v hpost).trans (and_iff_right rfl).symm
    · exact iff_of_false (openObject_ne_object v hpost hstate) fun hfound => hstate hfound.1

end CppLaravel.Livewire
