import CppLaravel.Proofs.Http.HeaderViews

/-!
# `CppLaravel.Proofs.Http.Recased`: header names in other letters

`Recased`: two raw requests that differ in nothing but the case of letters in the names of header
fields. Such a request is a request like the other, with the same body; its fields are those of
the other, with names that are spelled otherwise (`Recased.fields`).

Every way to spell the names comes from a raw request (`exists_recased`): the lines of a head,
changed one by one, are the lines of a head again, since no end of a line is a letter.
-/

set_option autoImplicit false

namespace CppLaravel.Http

open CppLaravel.Lib

/-- A header line with its name in other letters; a line without a name stays. -/
def RecasedLine (l l' : Bytes) : Prop :=
  l' = l ∨ ∃ u u' v, l = u ++ 58 :: v ∧ l' = u' ++ 58 :: v ∧ 58 ∉ u ∧ lower u' = lower u

/-- A raw request with the names of its header fields in other letters. -/
structure Recased (raw raw' : Bytes) : Prop where
  requestLine : requestLine (headOf raw') = requestLine (headOf raw)
  lines : List.Forall₂ RecasedLine (splitLines (headOf raw)).tail (splitLines (headOf raw')).tail
  rest : raw'.drop (headOf raw').length = raw.drop (headOf raw).length

/-- A field with its name in other letters. -/
def RecasedField (f f' : Bytes × Bytes) : Prop := lower f'.1 = lower f.1 ∧ f'.2 = f.2

theorem Recased.refl (raw : Bytes) : Recased raw raw :=
  ⟨rfl, List.forall₂_same.mpr fun _ _ => .inl rfl, rfl⟩

/-! ### What stays -/

/-- The body is what stands behind the head and the blank line. -/
theorem bodyOf_eq (raw : Bytes) : bodyOf raw = (raw.drop (headOf raw).length).drop 4 := by
  unfold bodyOf headOf
  rw [find_zero]
  cases h : firstAt blankLine raw with
  | none =>
    show [] = (raw.drop raw.length).drop 4
    rw [List.drop_length, List.drop_nil]
  | some e =>
    have hle : e ≤ raw.length := (firstAt_eq_some_iff.mp h).1
    show raw.drop (e + 4) = (raw.drop ((raw.drop 0).take e).length).drop 4
    rw [List.drop_zero, List.length_take, Nat.min_eq_left hle, List.drop_drop]

theorem RecasedLine.field {l l' : Bytes} (h : RecasedLine l l') :
    Option.Rel RecasedField (field l) (field l') := by
  rcases h with rfl | ⟨u, u', v, rfl, rfl, hu, hlower⟩
  · cases Http.field l' with
    | none => exact .none
    | some f => exact .some ⟨rfl, rfl⟩
  · have hu' : 58 ∉ u' := by
      refine not_mem_of_not_mem_lower (by decide) ?_
      rw [hlower]
      exact not_mem_lower (by decide) hu
    rw [field_eq_some_iff.mpr ⟨hu, rfl⟩, field_eq_some_iff.mpr ⟨hu', rfl⟩]
    exact .some ⟨hlower, rfl⟩

/-- The fields are the same, but for the letters of their names. -/
theorem Recased.fields {raw raw' : Bytes} (h : Recased raw raw') :
    List.Forall₂ RecasedField (fields (headOf raw)) (fields (headOf raw')) := by
  have hfield : Relator.LiftFun RecasedLine (Option.Rel RecasedField) field field :=
    fun _ _ => RecasedLine.field
  exact List.rel_filterMap hfield h.lines

theorem Recased.bodyOf_eq {raw raw' : Bytes} (h : Recased raw raw') :
    bodyOf raw' = bodyOf raw := by
  rw [Http.bodyOf_eq, Http.bodyOf_eq, h.rest]

theorem lower_trim (s : Bytes) : lower (trim s) = trim (lower s) := by
  have hblank : isBlank ∘ toLower = isBlank := funext isBlank_toLower
  unfold lower trim List.rdropWhile
  rw [List.dropWhile_map, hblank, ← List.map_reverse, List.dropWhile_map, hblank,
    ← List.map_reverse]

/-- What is stored under a name is the value of a field of that name, whatever its letters. -/
theorem Recased.field_of_stored {raw raw' : Bytes} (h : Recased raw raw') {name v : Bytes}
    (hv : (parseHeaders (headOf raw')).lookup name = some v) :
    ∃ f ∈ Http.fields (headOf raw), lower (trim f.1) = lower name ∧ trim f.2 = v := by
  obtain ⟨f', hf', hname, hvalue, -⟩ := Http.field_of_stored hv
  obtain ⟨i, hi, rfl⟩ := List.getElem_of_mem hf'
  have hlength := h.fields.length_eq
  obtain ⟨hlower, hsame⟩ := h.fields.get (i := i) (by omega) hi
  simp only [List.get_eq_getElem] at hlower hsame
  refine ⟨_, List.getElem_mem (n := i) (by omega), ?_, ?_⟩
  · rw [lower_trim, ← hlower, ← lower_trim, hname]
  · rw [← hsame, hvalue]

/-! ### Every spelling is there -/

theorem firstAt_lower {pat : Bytes} (hpat : ∀ c ∈ pat, c < 65) (s : Bytes) :
    firstAt pat (lower s) = firstAt pat s := by
  induction s with
  | nil => rfl
  | cons x s ih =>
    have hiff := prefix_lower (s := x :: s) hpat
    simp only [lower, List.map_cons] at hiff ih
    simp only [lower, List.map_cons, firstAt, hiff, ih]

/-- Lines, one behind the other. -/
def joinLines (l : Bytes) (ls : List Bytes) : Bytes := l ++ ls.flatMap (crlf ++ ·)

/-- The text of a line ends where the next line begins. -/
theorem firstAt_crlf_append {l : Bytes} (hl : firstAt crlf l = none) (s : Bytes) :
    firstAt crlf (l ++ crlf ++ s) = some l.length := by
  rw [List.append_assoc]
  refine firstAt_eq_some_iff.mpr ⟨by simp, ?_, fun i hi hat => ?_⟩
  · rw [List.drop_left]
    exact List.prefix_append crlf s
  · rw [List.drop_append_of_le_length hi.le] at hat
    have hnone := firstAt_eq_none_iff.mp hl i hi.le
    -- An occurrence within the line, or one that begins with its last byte.
    match hdrop : l.drop i with
    | [] =>
      have := congrArg List.length hdrop
      rw [List.length_drop, List.length_nil] at this
      omega
    | [x] =>
      rw [hdrop] at hat
      exact absurd hat (by simp [crlf])
    | x :: y :: t =>
      rw [hdrop] at hat hnone
      refine hnone ?_
      simp only [crlf, List.cons_append, List.cons_prefix_cons, List.nil_prefix] at hat ⊢
      exact hat

/-- Lines that are joined are split again. -/
theorem splitLines_joinLines {l : Bytes} {ls : List Bytes}
    (h : ∀ l' ∈ l :: ls, firstAt crlf l' = none) : splitLines (joinLines l ls) = l :: ls := by
  induction ls generalizing l with
  | nil =>
    rw [joinLines, List.flatMap_nil, List.append_nil]
    exact splitLines_of_none (h l List.mem_cons_self)
  | cons l' ls ih =>
    have hjoin : joinLines l (l' :: ls) = l ++ crlf ++ joinLines l' ls := by
      simp [joinLines]
    have hl := firstAt_crlf_append (h l List.mem_cons_self) (joinLines l' ls)
    have hdrop : (l ++ crlf ++ joinLines l' ls).drop (l.length + 2) = joinLines l' ls :=
      List.drop_left' (by simp [crlf])
    rw [hjoin, splitLines_of_some hl, hdrop, ih fun m hm => h m (List.mem_cons_of_mem l hm),
      List.append_assoc, List.take_left]

/-- A text is its lines. -/
theorem joinLines_splitLines (s : Bytes) :
    joinLines (firstLine s) (splitLines s).tail = s ∧
      ∀ l ∈ splitLines s, firstAt crlf l = none := by
  induction hn : s.length using Nat.strong_induction_on generalizing s with
  | _ n ih =>
    subst hn
    cases h : firstAt crlf s with
    | none =>
      rw [splitLines_of_none h]
      simp [joinLines, firstLine, h]
    | some k =>
      obtain ⟨hle, ⟨t, ht⟩, hfirst⟩ := firstAt_eq_some_iff.mp h
      have hrest : s.drop (k + 2) = t := by
        rw [← List.drop_drop, ← ht]
        exact List.drop_left' rfl
      have hlength := firstAt_length_le h
      have hcrlf : crlf.length = 2 := rfl
      have ht' := ih t.length (by rw [← hrest, List.length_drop]; omega) t rfl
      -- No line end begins in the first line, also not in its last byte.
      have hline : firstAt crlf (s.take k) = none := by
        refine firstAt_eq_none_iff.mpr fun i hi hat => ?_
        rw [List.length_take] at hi
        rcases Nat.lt_or_ge i k with hik | hik
        · refine hfirst i hik (hat.trans ?_)
          exact (List.take_prefix k s).drop i
        · rw [List.drop_eq_nil_of_le (by rw [List.length_take]; omega)] at hat
          simp [crlf] at hat
      rw [splitLines_of_some h, hrest]
      constructor
      · have hfirstLine : firstLine s = s.take k := by rw [firstLine, h]
        rw [hfirstLine, List.tail_cons, splitLines_eq_cons t]
        have hjoin : joinLines (s.take k) (firstLine t :: (splitLines t).tail) =
            s.take k ++ (crlf ++ joinLines (firstLine t) (splitLines t).tail) := by
          simp [joinLines]
        rw [hjoin, ht'.1, ht, List.take_append_drop]
      · intro l hl
        rcases List.mem_cons.mp hl with rfl | hl
        · exact hline
        · exact ht'.2 l hl

theorem RecasedLine.lower_eq {l l' : Bytes} (h : RecasedLine l l') : lower l' = lower l := by
  rcases h with rfl | ⟨u, u', v, rfl, rfl, -, hlower⟩
  · rfl
  · unfold lower at hlower ⊢
    rw [List.map_append, List.map_append, hlower]

theorem lower_joinLines {l : Bytes} {ls ls' : List Bytes} (h : List.Forall₂ RecasedLine ls ls') :
    lower (joinLines l ls') = lower (joinLines l ls) := by
  unfold joinLines lower
  rw [List.map_append, List.map_append, List.append_cancel_left_eq]
  induction h with
  | nil => rfl
  | cons hl _ ih =>
    have hl := hl.lower_eq
    unfold lower at hl
    simp only [List.flatMap_cons, List.map_append, hl, ih]

theorem requestLine_eq (head : Bytes) : requestLine head = firstLine head := by
  unfold requestLine firstLine
  rw [find_zero]
  cases firstAt crlf head with
  | none => rfl
  | some n =>
    show substr head 0 n = head.take n
    rw [substr, List.drop_zero]

/-- The head is as long as its lower-cased text says. -/
theorem headOf_eq (raw : Bytes) :
    headOf raw = raw.take ((firstAt blankLine (lower raw)).getD raw.length) := by
  unfold headOf
  rw [find_zero, firstAt_lower (List.all_iff_forall_prop.mp (by decide))]
  cases firstAt blankLine raw with
  | none => exact (List.take_length).symm
  | some e =>
    show substr raw 0 e = raw.take e
    rw [substr, List.drop_zero]

/-- The header lines of a request may be changed one by one. -/
theorem exists_recased {raw : Bytes} {ls : List Bytes}
    (h : List.Forall₂ RecasedLine (splitLines (headOf raw)).tail ls) :
    ∃ raw', Recased raw raw' ∧ fields (headOf raw') = ls.filterMap field := by
  let l := firstLine (headOf raw)
  let rest := raw.drop (headOf raw).length
  obtain ⟨hhead, hlines⟩ := joinLines_splitLines (headOf raw)
  have hraw : headOf raw ++ rest = raw := by
    have hprefix : headOf raw <+: raw := by
      rw [headOf_eq]
      exact List.take_prefix _ raw
    exact List.prefix_iff_eq_append.mp hprefix
  -- The new text ends its head where the old one does.
  let raw' := joinLines l ls ++ rest
  have hjoin : lower (joinLines l ls) = lower (headOf raw) := by
    rw [lower_joinLines h, hhead]
  have hlower : lower raw' = lower raw := by
    rw [← hraw]
    unfold lower at hjoin ⊢
    rw [List.map_append, List.map_append, hjoin]
  have hlength : (joinLines l ls).length = (headOf raw).length := by
    simpa [lower] using congrArg List.length hjoin
  have hlength' : raw'.length = raw.length := by
    simpa [lower] using congrArg List.length hlower
  have hhead' : headOf raw' = joinLines l ls := by
    rw [headOf_eq, hlower, hlength']
    refine List.take_left' ?_
    rw [hlength]
    conv_lhs => rw [headOf_eq]
    rw [List.length_take]
    refine Nat.min_eq_left ?_
    rw [firstAt_lower (List.all_iff_forall_prop.mp (by decide))]
    cases hfound : firstAt blankLine raw with
    | none => exact le_rfl
    | some e => exact (firstAt_eq_some_iff.mp hfound).1
  have hsplit : splitLines (joinLines l ls) = l :: ls := by
    refine splitLines_joinLines fun m hm => ?_
    rcases List.mem_cons.mp hm with rfl | hm
    · exact hlines l (by rw [splitLines_eq_cons]; exact List.mem_cons_self)
    · obtain ⟨i, hi, rfl⟩ := List.getElem_of_mem hm
      have hline := h.get (i := i) (by rw [h.length_eq]; exact hi) hi
      rw [← firstAt_lower (List.all_iff_forall_prop.mp (by decide))]
      simp only [List.get_eq_getElem] at hline
      rw [hline.lower_eq, firstAt_lower (List.all_iff_forall_prop.mp (by decide))]
      exact hlines _ (List.mem_of_mem_tail (List.getElem_mem _))
  refine ⟨raw', ⟨?_, ?_, ?_⟩, ?_⟩
  · rw [requestLine_eq, requestLine_eq, hhead']
    have hcons := splitLines_eq_cons (joinLines l ls)
    rw [hsplit, List.cons.injEq] at hcons
    exact hcons.1.symm
  · rw [hhead', hsplit]
    exact h
  · rw [hhead']
    exact List.drop_left' rfl
  · rw [fields, hhead', hsplit, List.tail_cons]

/-! ### One name as it is asked for, the others in lower case -/

theorem lower_lower (s : Bytes) : lower (lower s) = lower s := by
  have htoLower : ∀ c, toLower (toLower c) = toLower c := by
    intro c
    have hc := c.toNat_lt
    by_cases hupper : 65 ≤ c ∧ c ≤ 90
    · have hnot : ¬ (65 ≤ c + 32 ∧ c + 32 ≤ 90) := by
        simp only [UInt8.le_iff_toNat_le, UInt8.toNat_add] at hupper ⊢
        have h65 : (65 : UInt8).toNat = 65 := rfl
        have h90 : (90 : UInt8).toNat = 90 := rfl
        have h32 : (32 : UInt8).toNat = 32 := rfl
        omega
      simp only [toLower, if_pos hupper, if_neg hnot]
    · simp only [toLower, if_neg hupper]
  unfold lower
  rw [List.map_map]
  exact List.map_congr_left fun c _ => htoLower c

/-- A header line with its name in lower case. -/
def lowerName (l : Bytes) : Bytes :=
  match field l with
  | some f => lower f.1 ++ 58 :: f.2
  | none => l

theorem recasedLine_lowerName (l : Bytes) : RecasedLine l (lowerName l) := by
  unfold lowerName
  cases h : field l with
  | none => exact .inl rfl
  | some f =>
    obtain ⟨hcolon, hl⟩ := field_eq_some_iff.mp h
    exact .inr ⟨f.1, lower f.1, f.2, hl, rfl, hcolon, lower_lower f.1⟩

theorem forall₂_lowerName (ls : List Bytes) :
    List.Forall₂ RecasedLine ls (ls.map lowerName) :=
  List.forall₂_map_right_iff.mpr (List.forall₂_same.mpr fun l _ => recasedLine_lowerName l)

/-- The name of such a line is not a name that has an upper-case letter. -/
theorem trim_ne_of_lowerName {ls : List Bytes} {f : Bytes × Bytes}
    (hf : f ∈ (ls.map lowerName).filterMap field) {key : Bytes} (hkey : lower key ≠ key) :
    trim f.1 ≠ key := by
  obtain ⟨l', hl', hfield⟩ := List.mem_filterMap.mp hf
  obtain ⟨l, -, rfl⟩ := List.mem_map.mp hl'
  have hlower : lower f.1 = f.1 := by
    unfold lowerName at hfield
    cases h : field l with
    | none =>
      rw [h] at hfield
      dsimp only at hfield
      rw [h] at hfield
      cases hfield
    | some g =>
      rw [h] at hfield
      have hcolon := not_mem_lower (by decide) (field_eq_some_iff.mp h).1
      rw [field_eq_some_iff.mpr ⟨hcolon, rfl⟩] at hfield
      cases hfield
      exact lower_lower g.1
  rintro rfl
  rw [lower_trim, hlower] at hkey
  exact hkey rfl

/-- With all names in lower case, nothing is stored under a name that has an upper-case letter. -/
theorem exists_lowered (raw : Bytes) : ∃ raw', Recased raw raw' ∧
    ∀ key, lower key ≠ key → (parseHeaders (headOf raw')).lookup key = none := by
  obtain ⟨raw', hrecased, hfields⟩ :=
    exists_recased (forall₂_lowerName (splitLines (headOf raw)).tail)
  refine ⟨raw', hrecased, fun key hkey => ?_⟩
  rw [lookup_parseHeaders, hfields, Option.map_eq_none_iff, List.find?_eq_none]
  intro f hf
  simpa using trim_ne_of_lowerName (List.mem_reverse.mp hf) hkey

/-- A text is its trimmed part between blanks. -/
theorem exists_blanks (s : Bytes) :
    ∃ p q, s = p ++ (trim s ++ q) ∧ (∀ c ∈ p, isBlank c) ∧ ∀ c ∈ q, isBlank c := by
  refine ⟨s.takeWhile isBlank, (s.dropWhile isBlank).rtakeWhile isBlank, ?_, fun c hc => ?_,
    fun c hc => ?_⟩
  · have hend : trim s ++ (s.dropWhile isBlank).rtakeWhile isBlank = s.dropWhile isBlank := by
      unfold trim List.rdropWhile List.rtakeWhile
      rw [← List.reverse_append, List.takeWhile_append_dropWhile, List.reverse_reverse]
    rw [hend, List.takeWhile_append_dropWhile]
  · exact List.mem_takeWhile_imp hc
  · exact List.mem_rtakeWhile_imp hc

theorem trim_between {p name q : Bytes} (hp : ∀ c ∈ p, isBlank c) (hq : ∀ c ∈ q, isBlank c)
    (hne : name ≠ []) (hname : ∀ c ∈ name, isBlank c = false) : trim (p ++ (name ++ q)) = name := by
  have hstart : (name ++ q).dropWhile isBlank = name ++ q := by
    cases name with
    | nil => exact absurd rfl hne
    | cons c name => exact List.dropWhile_cons_of_neg (by simp [hname c List.mem_cons_self])
  have hend : name.reverse.dropWhile isBlank = name.reverse := by
    cases hrev : name.reverse with
    | nil => rfl
    | cons c r =>
      have hc : c ∈ name := by
        rw [← List.mem_reverse, hrev]
        exact List.mem_cons_self
      exact List.dropWhile_cons_of_neg (by simp [hname c hc])
  have hq' : ∀ c ∈ q.reverse, isBlank c := fun c hc => hq c (List.mem_reverse.mp hc)
  unfold trim List.rdropWhile
  rw [List.dropWhile_append_of_pos hp, hstart, List.reverse_append,
    List.dropWhile_append_of_pos hq', hend, List.reverse_reverse]

/-- A name can be spelled as it is asked for. -/
theorem exists_respelled {u name : Bytes} (hname : IsFieldName name) (hne : name ≠ [])
    (hlower : lower (trim u) = lower name) : ∃ u', lower u' = lower u ∧ trim u' = name := by
  obtain ⟨p, q, hu, hp, hq⟩ := exists_blanks u
  refine ⟨p ++ (name ++ q), ?_, trim_between hp hq hne fun c hc => (hname c hc).2.2.2⟩
  rw [hu]
  unfold lower at hlower ⊢
  simp only [List.map_append, hlower]

/-- With one name as it is asked for and the others in lower case, its value is what is stored. -/
theorem exists_spelled {raw : Bytes} (name : Bytes) (hname : IsFieldName name) (hne : name ≠ [])
    {f : Bytes × Bytes} (hf : f ∈ fields (headOf raw)) (hlower : lower (trim f.1) = lower name) :
    ∃ raw', Recased raw raw' ∧ ∀ key, lower key ≠ key →
      (parseHeaders (headOf raw')).lookup key = if name = key then some (trim f.2) else none := by
  obtain ⟨l, hl, hfield⟩ := List.mem_filterMap.mp hf
  obtain ⟨before, after, hsplit⟩ := List.append_of_mem hl
  obtain ⟨u', hu', htrim⟩ := exists_respelled hname hne hlower
  obtain ⟨hcolon, rfl⟩ := field_eq_some_iff.mp hfield
  have hcolon' : 58 ∉ u' := by
    refine not_mem_of_not_mem_lower (by decide) ?_
    rw [hu']
    exact not_mem_lower (by decide) hcolon
  -- The line is respelled as asked for; all others are in lower case.
  have hlines : List.Forall₂ RecasedLine (splitLines (headOf raw)).tail
      (before.map lowerName ++ (u' ++ 58 :: f.2) :: after.map lowerName) := by
    rw [hsplit]
    refine List.rel_append (forall₂_lowerName before) (.cons ?_ (forall₂_lowerName after))
    exact .inr ⟨f.1, u', f.2, rfl, rfl, hcolon, hu'⟩
  obtain ⟨raw', hrecased, hfields⟩ := exists_recased hlines
  refine ⟨raw', hrecased, fun key hkey => ?_⟩
  -- A name in lower case is not the key, which is not.
  have hnone : ∀ ls : List Bytes,
      ((ls.map lowerName).filterMap field).reverse.find? (fun g => trim g.1 = key) = none := by
    intro ls
    rw [List.find?_eq_none]
    intro g hg
    simpa using trim_ne_of_lowerName (List.mem_reverse.mp hg) hkey
  rw [lookup_parseHeaders, hfields, List.filterMap_append, List.filterMap_cons,
    field_eq_some_iff.mpr ⟨hcolon', rfl⟩, List.reverse_append, List.reverse_cons,
    List.append_assoc, List.find?_append, hnone after, Option.none_or, List.singleton_append,
    List.find?_cons, htrim]
  by_cases hkey' : name = key
  · simp [hkey']
  · simp only [hkey', decide_false, if_false, hnone before, Option.map_none]

end CppLaravel.Http
