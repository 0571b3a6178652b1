import CppLaravel.Proofs.Livewire.Fields

/-!
# `CppLaravel.Proofs.Livewire.Braces`: what `object_field` takes for an object

`object_field` counts braces and does not know about strings. `level s d` is the depth behind
the text `s` when it is entered at the depth `d`, as long as it does not fall to zero.

* `objectEnd_append`: the loop over a text and what follows it, by the level of the text.
* `level_body`: the level of an object's entries is that of their keys and values.
* `openObject_object_iff`: an object is taken exactly if its keys and values are balanced.
-/

set_option autoImplicit false

namespace CppLaravel.Livewire

open CppLaravel.Lib
open CppLaravel.Http

/-- The depth behind a text entered at the depth `d`; nothing if it falls to zero inside. -/
def level : Bytes → Nat → Option Nat
  | [], d => some d
  | c :: s, d =>
    if c = lbrace then level s (d + 1)
    else if c = rbrace then if d ≤ 1 then none else level s (d - 1)
    else level s d

theorem level_lbrace (s : Bytes) (d : Nat) : level (lbrace :: s) d = level s (d + 1) :=
  if_pos rfl

theorem level_rbrace (s : Bytes) (d : Nat) :
    level (rbrace :: s) d = if d ≤ 1 then none else level s (d - 1) := by
  have hne : rbrace ≠ lbrace := by decide
  rw [level, if_neg hne, if_pos rfl]

theorem level_other {c : UInt8} (hl : c ≠ lbrace) (hr : c ≠ rbrace) (s : Bytes) (d : Nat) :
    level (c :: s) d = level s d := by
  rw [level, if_neg hl, if_neg hr]

theorem level_append (s t : Bytes) (d : Nat) : level (s ++ t) d = (level s d).bind (level t) := by
  induction s generalizing d with
  | nil => rfl
  | cons c s ih =>
    rw [List.cons_append]
    by_cases hl : c = lbrace
    · subst hl
      rw [level_lbrace, level_lbrace, ih]
    · by_cases hr : c = rbrace
      · subst hr
        rw [level_rbrace, level_rbrace, ih]
        split <;> rfl
      · rw [level_other hl hr, level_other hl hr, ih]

/-- Escaping adds and hides no brace. -/
theorem level_esc (s : Bytes) (d : Nat) : level (esc s) d = level s d := by
  have hback : ∀ e t d, e ≠ lbrace → e ≠ rbrace →
      level (backslash :: e :: t) d = level t d := by
    intro e t d hl hr
    rw [level_other (by decide) (by decide), level_other hl hr]
  induction s generalizing d with
  | nil => rfl
  | cons c s ih =>
    -- A byte that is escaped is no brace, and neither is what stands for it.
    rw [esc]
    split
    · rename_i hc
      rw [hback _ _ _ (by decide) (by decide), ih, hc, level_other (by decide) (by decide)]
    split
    · rename_i hc
      rw [hback _ _ _ (by decide) (by decide), ih, hc, level_other (by decide) (by decide)]
    split
    · rename_i hc
      rw [hback _ _ _ (by decide) (by decide), ih, hc, level_other (by decide) (by decide)]
    split
    · rename_i hc
      rw [hback _ _ _ (by decide) (by decide), ih, hc, level_other (by decide) (by decide)]
    split
    · rename_i hc
      rw [hback _ _ _ (by decide) (by decide), ih, hc, level_other (by decide) (by decide)]
    · rw [level, level, ih, ih, ih]

theorem level_str (s t : Bytes) (d : Nat) :
    level (str s ++ t) d = (level s d).bind (level t) := by
  have hquote : ∀ u, level (quote :: u) = level u := by
    intro u
    funext e
    exact level_other (by decide) (by decide) u e
  rw [str_append, hquote, level_append, level_esc, hquote]

/-- An entry has the braces of its key and its value. -/
theorem level_entry (k v t : Bytes) (d : Nat) :
    level (entry (k, v) ++ t) d = (level (k ++ v) d).bind (level t) := by
  have hcolon : ∀ u, level (colon :: u) = level u := by
    intro u
    funext e
    exact level_other (by decide) (by decide) u e
  rw [entry, List.append_assoc, level_str, List.cons_append, hcolon, level_append,
    Option.bind_assoc]
  congr 1
  funext e
  exact level_str v t e

/-- The depth is positive throughout. -/
theorem level_pos {s : Bytes} {d d' : Nat} (hd : 1 ≤ d) (h : level s d = some d') : 1 ≤ d' := by
  induction s generalizing d with
  | nil =>
    cases h
    exact hd
  | cons c s ih =>
    rw [level] at h
    split at h
    · exact ih (by omega) h
    · split at h
      · split at h
        · cases h
        · exact ih (by omega) h
      · exact ih hd h

/-! ### The loop -/

/-- The loop passes a text on which the depth stays positive, and stops inside any other. -/
theorem objectEnd_append (s t : Bytes) {d : Nat} (hd : 1 ≤ d) :
    (∃ d', level s d = some d' ∧
        objectEnd (s ++ t) d = (objectEnd t d').map (· + s.length)) ∨
      (level s d = none ∧ ∃ n, 1 ≤ n ∧ n ≤ s.length ∧ objectEnd (s ++ t) d = some n) := by
  induction s generalizing d with
  | nil => exact .inl ⟨d, rfl, by simp⟩
  | cons c s ih =>
    -- A byte read at the depth `e` is one more that is passed, or one more before the end.
    have hcons : ∀ e : Nat, 1 ≤ e → level (c :: s) d = level s e →
        objectEnd (c :: (s ++ t)) d = (objectEnd (s ++ t) e).map (· + 1) →
        (∃ d', level (c :: s) d = some d' ∧
            objectEnd (c :: s ++ t) d = (objectEnd t d').map (· + (c :: s).length)) ∨
          (level (c :: s) d = none ∧
            ∃ n, 1 ≤ n ∧ n ≤ (c :: s).length ∧ objectEnd (c :: s ++ t) d = some n) := by
      intro e he hlevel hend
      rw [hlevel, List.cons_append, hend]
      rcases ih he with ⟨d', hd', h⟩ | ⟨hnone, n, hn, hle, h⟩
      · refine .inl ⟨d', hd', ?_⟩
        rw [h, Option.map_map]
        rfl
      · refine .inr ⟨hnone, n + 1, by omega, ?_, by rw [h]; rfl⟩
        rw [List.length_cons]
        omega
    by_cases hl : c = lbrace
    · subst hl
      refine hcons (d + 1) (by omega) (level_lbrace s d) ?_
      rw [objectEnd, if_pos rfl]
      rfl
    · by_cases hr : c = rbrace
      · subst hr
        by_cases hone : d = 1
        · subst hone
          right
          refine ⟨by rw [level_rbrace, if_pos (le_refl 1)], 1, le_refl 1, by simp, ?_⟩
          rw [List.cons_append, objectEnd, if_neg hl, if_pos rfl]
          exact if_pos rfl
        · refine hcons (d - 1) (by omega) ?_ ?_
          · rw [level_rbrace, if_neg (by omega)]
          · rw [objectEnd, if_neg hl, if_pos rfl, if_neg (by omega)]
            congr 2
            omega
      · refine hcons d hd (level_other hl hr s d) ?_
        rw [objectEnd, if_neg hl, if_neg hr]

/-- The loop finds no end exactly where the depth stays positive. -/
theorem objectEnd_eq_none_iff (s : Bytes) {d : Nat} (hd : 1 ≤ d) :
    objectEnd s d = none ↔ (level s d).isSome := by
  rcases objectEnd_append s [] hd with ⟨d', hd', h⟩ | ⟨hnone, n, -, -, h⟩
  · rw [List.append_nil] at h
    rw [h, hd']
    exact ⟨fun _ => rfl, fun _ => rfl⟩
  · rw [List.append_nil] at h
    rw [h, hnone]
    simp

/-! ### Objects -/

/-- The keys and values of an object, in the order in which they are written. -/
def content (entries : List (Bytes × Bytes)) : Bytes := entries.flatMap fun kv => kv.1 ++ kv.2

/-- What stands between the braces of an object. -/
def body (entries : List (Bytes × Bytes)) : Bytes := [comma].intercalate (entries.map entry)

theorem object_eq (entries : List (Bytes × Bytes)) :
    object entries = lbrace :: (body entries ++ [rbrace]) := rfl

theorem body_cons_cons (kv kv' : Bytes × Bytes) (entries : List (Bytes × Bytes)) :
    body (kv :: kv' :: entries) = entry kv ++ comma :: body (kv' :: entries) := by
  rw [body, List.map_cons, List.map_cons, List.intercalate_cons_cons, List.append_assoc]
  rfl

theorem body_singleton (kv : Bytes × Bytes) : body [kv] = entry kv :=
  List.intercalate_singleton

/-- The entries have the braces of their keys and values. -/
theorem level_body (entries : List (Bytes × Bytes)) (d : Nat) :
    level (body entries) d = level (content entries) d := by
  induction entries generalizing d with
  | nil => rfl
  | cons kv entries ih =>
    have hcontent : level (content (kv :: entries)) d =
        (level (kv.1 ++ kv.2) d).bind (level (content entries)) := by
      rw [content, List.flatMap_cons, level_append]
      rfl
    rw [hcontent]
    cases entries with
    | nil =>
      rw [body_singleton, ← List.append_nil (entry kv), level_entry]
      rfl
    | cons kv' entries =>
      rw [body_cons_cons, level_entry]
      congr 1
      funext e
      rw [level_other (by decide) (by decide), ih]

/-- What `object_field` returns for the text from an opening brace on. -/
def openObject (u : Bytes) : Bytes :=
  match objectEnd u 0 with
  | none => bytes "\x7b\x7d"
  | some n => u.take n

theorem openObject_lbrace (u : Bytes) : openObject (lbrace :: u) =
    match objectEnd u 1 with
    | none => bytes "\x7b\x7d"
    | some n => (lbrace :: u).take (n + 1) := by
  rw [openObject, objectEnd, if_pos rfl]
  change (match (objectEnd u 1).map (· + 1) with
    | none => bytes "\x7b\x7d"
    | some n => (lbrace :: u).take n) = _
  cases objectEnd u 1 <;> rfl

/-- Two closing braces close the object that is open at the depth one or two. -/
theorem objectEnd_rbraces {d : Nat} (hd : 1 ≤ d) :
    objectEnd [rbrace, rbrace] d = if d < 3 then some d else none := by
  have hne : rbrace ≠ lbrace := by decide
  simp only [objectEnd, if_neg hne, if_true]
  grind

/-- The object reader as searches for a rest of the text, without positions. -/
theorem objectField_of_seek {j key t u : Bytes} (hs : seek (quoted key) j = some t)
    (ht : seek [lbrace] t = some u) : objectField j key = openObject u := by
  obtain ⟨p, hp, hpt, hle⟩ := find_of_seek (i := 0) (Nat.zero_le j.length) hs
  obtain ⟨q, hq, hqu, -⟩ := find_of_seek hle (by rw [hpt]; exact ht)
  simp only [objectField, hp, hq, hqu, substr]
  rfl

/-- **An object is taken whole exactly if its keys and values are balanced**: no brace closes
that was not opened among them, and none stays open. -/
theorem openObject_object_iff (entries : List (Bytes × Bytes)) :
    openObject (object entries ++ [rbrace]) = object entries ↔
      level (content entries) 1 = some 1 := by
  have htext : object entries ++ [rbrace] = lbrace :: (body entries ++ [rbrace, rbrace]) := by
    rw [object_eq, List.cons_append, List.append_assoc]
    rfl
  have hlen : (object entries).length = (body entries).length + 2 := by
    rw [object_eq, List.length_cons, List.length_append]
    rfl
  rw [htext, openObject_lbrace, ← level_body]
  rcases objectEnd_append (body entries) [rbrace, rbrace] (le_refl 1) with
    ⟨d, hd, hend⟩ | ⟨hnone, n, hn, hle, hend⟩ <;> rw [Nat.cast_one] at hend
  · have hpos := level_pos (le_refl 1) hd
    rw [hend, hd, objectEnd_rbraces hpos]
    -- Two braces follow the entries: the loop takes as many of them as are open.
    rcases Nat.lt_or_ge d 3 with hlt | hge
    · rw [if_pos hlt]
      have htake : ∀ m, (lbrace :: (body entries ++ [rbrace, rbrace])).take
            (m + (body entries).length + 1) =
          lbrace :: (body entries ++ [rbrace, rbrace].take m) := by
        intro m
        rw [List.take_succ_cons, Nat.add_comm m, List.take_length_add_append]
      show (lbrace :: (body entries ++ [rbrace, rbrace])).take _ = _ ↔ _
      rw [htake, object_eq]
      obtain rfl | rfl : d = 1 ∨ d = 2 := by omega
      · simp
      · simp
    · rw [if_neg (by omega)]
      -- The default is the text of the empty object only, and that is balanced.
      constructor
      · intro h
        have hbody : body entries = [] := by
          have hsize := congrArg List.length h
          rw [hlen] at hsize
          have htwo : 2 = (body entries).length + 2 := hsize
          exact List.length_eq_zero_iff.mp (by omega)
        rw [hbody] at hd
        cases hd
        omega
      · intro h
        cases h
        omega
  · rw [hend, hnone]
    constructor
    · intro h
      have hsize := congrArg List.length h
      rw [hlen] at hsize
      have htake : ((lbrace :: (body entries ++ [rbrace, rbrace])).take (n + 1)).length =
          (body entries).length + 2 := hsize
      rw [List.length_take] at htake
      omega
    · intro h
      cases h

end CppLaravel.Livewire
