import CppLaravel.Http.Message

/-!
# `CppLaravel.Proofs.Http.HeaderViews`: two readings of the header lines

`fields` are the header lines of a head, each cut at its first colon, untrimmed. Both views
are searches in this list.

* `headerValue_eq`: the framing view is the *first* field whose name, as it stands, is the one
  sought, ignoring case.
* `lookup_parseHeaders`: the handler's view of a spelling is the *last* field whose trimmed
  name is that spelling.
* `views_agree_iff`: the two agree on a name if and only if some field carries it without
  blanks around it, and the last field of each spelling has the value of the first such field.
* `blank_before_colon_divides`: a blank before the colon hides the Content-Length from the
  framing, but not from the handler.
-/

set_option autoImplicit false

namespace CppLaravel.Http

open CppLaravel.Lib

/-! ### Lines and fields -/

/-- The lines of a text. -/
def splitLines (s : Bytes) : List Bytes :=
  match _h : firstAt crlf s with
  | none => [s]
  | some n => s.take n :: splitLines (s.drop (n + 2))
termination_by s.length
decreasing_by
  have hlen := firstAt_length_le ‹firstAt _ _ = some _›
  have hcrlf : crlf.length = 2 := rfl
  rw [List.length_drop]
  omega

/-- A line cut at its first colon: the name and the value as they stand. -/
def field (line : Bytes) : Option (Bytes × Bytes) :=
  (firstAt [58] line).map fun c => (line.take c, line.drop (c + 1))

/-- The header fields of a head, in order. -/
def fields (head : Bytes) : List (Bytes × Bytes) := (splitLines head).tail.filterMap field

/-- The characters that no header name has. -/
def IsFieldName (name : Bytes) : Prop :=
  ∀ c ∈ name, c ≠ 58 ∧ c ≠ 13 ∧ c ≠ 10 ∧ isBlank c = false

instance (name : Bytes) : Decidable (IsFieldName name) :=
  inferInstanceAs (Decidable (∀ c ∈ name, _))

theorem splitLines_of_none {s : Bytes} (h : firstAt crlf s = none) : splitLines s = [s] := by
  rw [splitLines]
  split
  · rfl
  · rename_i hn
    rw [h] at hn
    cases hn

theorem splitLines_of_some {s : Bytes} {n : Nat} (h : firstAt crlf s = some n) :
    splitLines s = s.take n :: splitLines (s.drop (n + 2)) := by
  rw [splitLines]
  split
  · rename_i hn
    rw [h] at hn
    cases hn
  · rename_i hn
    rw [h, Option.some.injEq] at hn
    rw [hn]

/-! ### The handler's view -/

theorem addHeader_eq (headers : StringMap) (line : Bytes) :
    addHeader headers line =
      match field line with
      | none => headers
      | some f => headers.insert (trim f.1) (trim f.2) := by
  unfold addHeader field
  rw [find_zero]
  cases firstAt [58] line with
  | none => rfl
  | some c =>
    show headers.insert (trim (substr line 0 c)) _ = headers.insert (trim (line.take c)) _
    rw [substr, List.drop_zero]

/-- The loop over the positions is the loop over the lines. -/
theorem headerLoop_eq (head : Bytes) (pos : Nat) (headers : StringMap) (hpos : pos ≤ head.length) :
    headerLoop head pos headers = (splitLines (head.drop pos)).foldl addHeader headers := by
  have hcrlf : crlf.length = 2 := rfl
  fun_induction headerLoop head pos headers with
  | case1 pos headers hlt hnone =>
    rw [find_eq hpos, Option.map_eq_none_iff] at hnone
    rw [splitLines_of_none hnone]
    rfl
  | case2 pos headers hlt nl hnl ih =>
    rw [find_eq hpos, Option.map_eq_some_iff] at hnl
    obtain ⟨n, hn, rfl⟩ := hnl
    have hlen := firstAt_length_le hn
    rw [List.length_drop] at hlen
    have hline : substr head pos (pos + n - pos) = (head.drop pos).take n := by
      rw [substr, Nat.add_sub_cancel_left]
    have hrest : head.drop (pos + n + 2) = (head.drop pos).drop (n + 2) := by
      rw [List.drop_drop, Nat.add_assoc]
    rw [ih (by omega), splitLines_of_some hn, hline, hrest]
    rfl
  | case3 pos headers hge =>
    -- At the end there is one more line, an empty one.
    rw [List.drop_eq_nil_of_le (by omega), splitLines_of_none rfl]
    rfl

/-- The headers are the fields, stored one after the other. -/
theorem parseHeaders_eq (head : Bytes) :
    parseHeaders head =
      (fields head).foldl (fun headers f => headers.insert (trim f.1) (trim f.2)) ∅ := by
  have hfold : ∀ (ls : List Bytes) (headers : StringMap), ls.foldl addHeader headers
      = (ls.filterMap field).foldl (fun headers f => headers.insert (trim f.1) (trim f.2))
          headers := by
    intro ls
    induction ls with
    | nil => exact fun _ => rfl
    | cons l ls ih =>
      intro headers
      rw [List.foldl_cons, addHeader_eq, List.filterMap_cons]
      cases field l with
      | none => exact ih headers
      | some f => exact ih _
  unfold parseHeaders fields
  rw [find_zero]
  cases h : firstAt crlf head with
  | none =>
    rw [splitLines_of_none h]
    rfl
  | some n =>
    have hlen := firstAt_length_le h
    have hcrlf : crlf.length = 2 := rfl
    rw [splitLines_of_some h]
    exact (headerLoop_eq head (n + 2) ∅ (by omega)).trans (hfold _ _)

/-- **The handler's view**: the last field of a spelling. -/
theorem lookup_parseHeaders (head key : Bytes) :
    (parseHeaders head).lookup key =
      ((fields head).reverse.find? fun f => trim f.1 = key).map fun f => trim f.2 := by
  have hfold : ∀ fs : List (Bytes × Bytes),
      (fs.foldr (fun f headers => Finmap.insert (trim f.1) (trim f.2) headers)
        (∅ : StringMap)).lookup key = (fs.find? fun f => trim f.1 = key).map fun f => trim f.2 := by
    -- Seen from the end, the first insertion of a spelling is the one that stays.
    intro fs
    induction fs with
    | nil => rfl
    | cons f fs ih =>
      rw [List.foldr_cons, List.find?_cons]
      by_cases hkey : trim f.1 = key
      · rw [hkey, Finmap.lookup_insert]
        simp
      · rw [Finmap.lookup_insert_of_ne _ (Ne.symm hkey), ih]
        simp [hkey]
  rw [parseHeaders_eq, ← List.foldr_reverse, hfold]

/-! ### The framing view -/

/-- Only letters change their byte in lower case. -/
theorem toLower_eq_iff {c x : UInt8} (hc : c < 65) : toLower x = c ↔ x = c := by
  have hx := x.toNat_lt
  have h65 : (65 : UInt8).toNat = 65 := rfl
  have h90 : (90 : UInt8).toNat = 90 := rfl
  have h32 : (32 : UInt8).toNat = 32 := rfl
  rw [UInt8.lt_iff_toNat_lt, h65] at hc
  unfold toLower
  split
  · rename_i hupper
    simp only [UInt8.le_iff_toNat_le, h65, h90] at hupper
    rw [← UInt8.toNat_inj, ← UInt8.toNat_inj, UInt8.toNat_add, h32]
    omega
  · rfl

theorem not_mem_of_not_mem_lower {c : UInt8} (hc : c < 65) {s : Bytes} (h : c ∉ lower s) :
    c ∉ s := fun hmem => h (List.mem_map.mpr ⟨c, hmem, (toLower_eq_iff hc).mpr rfl⟩)

/-- A pattern without letters is found in the lower-cased text where it is found in the text. -/
theorem prefix_lower {pat s : Bytes} (hpat : ∀ c ∈ pat, c < 65) :
    pat <+: lower s ↔ pat <+: s := by
  induction pat generalizing s with
  | nil => simp
  | cons c pat ih =>
    cases s with
    | nil => rfl
    | cons x s =>
      have hc : toLower x = c ↔ x = c := toLower_eq_iff (hpat c List.mem_cons_self)
      have ih := ih (s := s) fun d hd => hpat d (List.mem_cons_of_mem c hd)
      simp only [lower, List.map_cons, List.cons_prefix_cons] at ih ⊢
      rw [ih, eq_comm, hc, eq_comm]

theorem crlf_lt : ∀ c ∈ crlf, c < 65 := by
  simp only [crlf, List.forall_mem_cons]
  exact ⟨by decide, by decide, List.forall_mem_nil _⟩

/-- The first line of a text. -/
def firstLine (s : Bytes) : Bytes :=
  match firstAt crlf s with
  | none => s
  | some n => s.take n

theorem splitLines_eq_cons (s : Bytes) : splitLines s = firstLine s :: (splitLines s).tail := by
  unfold firstLine
  cases h : firstAt crlf s with
  | none => rw [splitLines_of_none h]; rfl
  | some n => rw [splitLines_of_some h]; rfl

theorem firstLine_prefix (s : Bytes) : firstLine s <+: s := by
  unfold firstLine
  cases firstAt crlf s with
  | none => exact List.prefix_refl s
  | some n => exact List.take_prefix n s

/-- A text without a carriage return is in one line with what follows it. -/
theorem firstLine_append {u : Bytes} (hu : 13 ∉ u) (w : Bytes) :
    firstLine (u ++ w) = u ++ firstLine w := by
  unfold firstLine
  rw [show crlf = 13 :: [10] from rfl, firstAt_append_of_not_mem hu]
  cases firstAt (13 :: [10]) w with
  | none => rfl
  | some n => exact List.take_length_add_append n

/-- A field is a line with the name before its first colon. -/
theorem field_eq_some_iff {line u v : Bytes} :
    field line = some (u, v) ↔ 58 ∉ u ∧ line = u ++ 58 :: v := by
  constructor
  · intro h
    obtain ⟨c, hc, heq⟩ := Option.map_eq_some_iff.mp h
    obtain ⟨hle, hat, hfirst⟩ := firstAt_eq_some_iff.mp hc
    cases heq
    have hdrop : line.drop c = 58 :: line.drop (c + 1) := by
      obtain ⟨t, ht⟩ := hat
      rw [drop_succ_of_drop ht.symm, ← ht]
      rfl
    refine ⟨fun hmem => ?_, ?_⟩
    · -- A colon in the name would have been found.
      obtain ⟨k, hk, hsome⟩ := firstAt_single_of_mem hmem (line.drop c)
      rw [List.take_append_drop, hc, Option.some.injEq] at hsome
      rw [List.length_take] at hk
      omega
    · rw [← hdrop, List.take_append_drop]
  · rintro ⟨hu, rfl⟩
    have hdrop : (u ++ 58 :: v).drop (u.length + 1) = v := List.drop_length_add_append 1
    unfold field
    rw [firstAt_single hu, Option.map_some, List.take_left, hdrop]

/-- A text starts with a name and a colon, ignoring case. -/
theorem named_iff {name s : Bytes} :
    name ++ [58] <+: lower s ↔ ∃ u w, s = u ++ 58 :: w ∧ lower u = name := by
  constructor
  · rintro ⟨t, ht⟩
    rw [List.append_assoc] at ht
    obtain ⟨u, v, rfl, hu, hv⟩ := List.map_eq_append_iff.mp ht.symm
    obtain ⟨x, w, rfl, hx, -⟩ := List.map_eq_cons_iff.mp hv
    rw [toLower_eq_iff (by decide)] at hx
    subst hx
    exact ⟨u, w, rfl, hu⟩
  · rintro ⟨u, w, rfl, rfl⟩
    refine ⟨lower w, ?_⟩
    unfold lower
    rw [List.map_append, List.map_cons, List.append_assoc]
    rfl

/-- What stands at the end of a line. -/
theorem drop_of_firstAt_crlf {s : Bytes} {n : Nat} (h : firstAt crlf s = some n) :
    s.drop n = 13 :: 10 :: s.drop (n + 2) := by
  obtain ⟨-, ⟨t, ht⟩, -⟩ := firstAt_eq_some_iff.mp h
  have htail : s.drop (n + 2) = t := by
    rw [← List.drop_drop, ← ht]
    rfl
  rw [htail, ← ht]
  rfl

/-- The header searched for starts at a line end, or the search goes on behind it. -/
theorem firstAt_needle {s : Bytes} {n : Nat} (name : Bytes) (h : firstAt crlf s = some n) :
    firstAt (crlf ++ name ++ [58]) (lower s) =
      if name ++ [58] <+: lower (s.drop (n + 2)) then some n
      else (firstAt (crlf ++ name ++ [58]) (lower (s.drop (n + 2)))).map (n + 2 + ·) := by
  have hlen := firstAt_length_le h
  have hcrlf : crlf.length = 2 := rfl
  have hls : (lower s).length = s.length := List.length_map ..
  obtain ⟨hle, -, hfirst⟩ := firstAt_eq_some_iff.mp h
  have hlow : ∀ i, (lower s).drop i = lower (s.drop i) := fun i => List.map_drop.symm
  -- An occurrence stands at a line end.
  have hbefore : ∀ i < n, ¬ crlf ++ name ++ [58] <+: (lower s).drop i := by
    intro i hi hpre
    rw [hlow, List.append_assoc] at hpre
    exact hfirst i hi ((prefix_lower crlf_lt).mp ((List.prefix_append _ _).trans hpre))
  have hat : crlf ++ name ++ [58] <+: (lower s).drop n ↔
      name ++ [58] <+: lower (s.drop (n + 2)) := by
    rw [hlow, drop_of_firstAt_crlf h]
    show 13 :: 10 :: (name ++ [58]) <+: 13 :: 10 :: lower (s.drop (n + 2)) ↔ _
    rw [List.cons_prefix_cons, List.cons_prefix_cons]
    simp
  by_cases hnamed : name ++ [58] <+: lower (s.drop (n + 2))
  · rw [if_pos hnamed, firstAt_eq_some_iff]
    exact ⟨by omega, hat.mpr hnamed, hbefore⟩
  · rw [if_neg hnamed, ← hlow]
    refine firstAt_skip (by omega) fun i hi => ?_
    rcases Nat.lt_trichotomy i n with hlt | rfl | hgt
    · exact hbefore i hlt
    · exact fun hpre => hnamed (hat.mp hpre)
    · -- Between the two bytes of the line end.
      have hi : i = n + 1 := by omega
      subst hi
      rw [hlow, ← List.drop_drop, drop_of_firstAt_crlf h]
      exact fun hpre => absurd (List.cons_prefix_cons.mp hpre).1 (by decide)

/-- The value of a header that was found reaches to the end of its line. -/
theorem headerValue_of_firstAt {head name : Bytes} {pos : Nat}
    (h : firstAt (crlf ++ name ++ [58]) (lower head) = some pos) :
    headerValue head name =
      some (trim (firstLine (head.drop (pos + (crlf ++ name ++ [58]).length)))) := by
  have hlen := firstAt_length_le h
  rw [lower, List.length_map] at hlen
  unfold headerValue firstLine
  simp only [find_zero, h, find_eq hlen]
  cases firstAt crlf (head.drop (pos + (crlf ++ name ++ [58]).length)) with
  | none => rfl
  | some n =>
    show some (trim (substr head _ _)) = _
    rw [substr, Nat.add_sub_cancel_left]

theorem headerValue_of_none {head name : Bytes}
    (h : firstAt (crlf ++ name ++ [58]) (lower head) = none) : headerValue head name = none := by
  unfold headerValue
  simp only [find_zero, h]

/-- In a head of one line no header can start. -/
theorem headerValue_of_one_line {head : Bytes} (name : Bytes) (h : firstAt crlf head = none) :
    headerValue head name = none := by
  refine headerValue_of_none (firstAt_eq_none_iff.mpr fun i hi hpre => ?_)
  rw [lower, List.length_map] at hi
  rw [lower, ← List.map_drop, ← lower, List.append_assoc] at hpre
  have hcrlf := (List.prefix_append _ _).trans hpre
  exact firstAt_eq_none_iff.mp h i hi ((prefix_lower crlf_lt).mp hcrlf)

/-- The search stops at a line that starts with the name and a colon. -/
theorem headerValue_of_named {head u w : Bytes} {n : Nat} (h : firstAt crlf head = some n)
    (hrest : head.drop (n + 2) = u ++ 58 :: w) :
    headerValue head (lower u) = some (trim (firstLine w)) := by
  have hneedle := firstAt_needle (lower u) h
  rw [if_pos (named_iff.mpr ⟨u, w, hrest, rfl⟩)] at hneedle
  have hvalue : head.drop (n + (crlf ++ lower u ++ [58]).length) = w := by
    have hsum : n + (crlf ++ lower u ++ [58]).length = n + 2 + (u.length + 1) := by
      have hcrlf : crlf.length = 2 := rfl
      simp only [List.length_append, hcrlf, lower, List.length_map, List.length_singleton]
      omega
    rw [hsum, ← List.drop_drop, hrest]
    exact List.drop_length_add_append 1
  rw [headerValue_of_firstAt hneedle, hvalue]

/-- The search goes on behind any other line. -/
theorem headerValue_of_not_named {head name : Bytes} {n : Nat} (h : firstAt crlf head = some n)
    (hnamed : ¬ name ++ [58] <+: lower (head.drop (n + 2))) :
    headerValue head name = headerValue (head.drop (n + 2)) name := by
  have hneedle := firstAt_needle name h
  rw [if_neg hnamed] at hneedle
  cases hrest : firstAt (crlf ++ name ++ [58]) (lower (head.drop (n + 2))) with
  | none =>
    rw [hrest] at hneedle
    rw [headerValue_of_none hneedle, headerValue_of_none hrest]
  | some pos =>
    rw [hrest] at hneedle
    rw [headerValue_of_firstAt hneedle, headerValue_of_firstAt hrest, List.drop_drop]
    congr 4
    exact Nat.add_assoc _ _ _

/-- The fields behind the first line end start with the one of the next line. -/
theorem fields_of_firstAt {head : Bytes} {n : Nat} (h : firstAt crlf head = some n) :
    fields head = (field (firstLine (head.drop (n + 2)))).toList ++ fields (head.drop (n + 2)) := by
  have hhead : fields head = (splitLines (head.drop (n + 2))).filterMap field := by
    rw [fields, splitLines_of_some h]
    rfl
  rw [hhead, splitLines_eq_cons, List.filterMap_cons]
  cases field (firstLine (head.drop (n + 2))) with
  | none => rfl
  | some f => rfl

/-- The name of a line that is not the one sought is another one. -/
theorem lower_field_ne {rest name : Bytes} (hnamed : ¬ name ++ [58] <+: lower rest)
    {f : Bytes × Bytes} (hf : field (firstLine rest) = some f) : lower f.1 ≠ name := by
  intro hname
  obtain ⟨-, hline⟩ := field_eq_some_iff.mp hf
  obtain ⟨t, ht⟩ := firstLine_prefix rest
  refine hnamed (named_iff.mpr ⟨f.1, f.2 ++ t, ?_, hname⟩)
  rw [← ht, hline, List.append_assoc]
  rfl

/-- **The framing view**: the first field whose name is the one sought, as it stands. -/
theorem headerValue_eq {name : Bytes} (hcr : 13 ∉ name) (hcolon : 58 ∉ name) (head : Bytes) :
    headerValue head name =
      ((fields head).find? fun f => lower f.1 = name).map fun f => trim f.2 := by
  -- On the length of the head, line by line.
  induction hn : head.length using Nat.strong_induction_on generalizing head with
  | _ len ih =>
    cases h : firstAt crlf head with
    | none =>
      rw [headerValue_of_one_line name h, fields, splitLines_of_none h]
      rfl
    | some n =>
      have hlen := firstAt_length_le h
      have hcrlf : crlf.length = 2 := rfl
      rw [fields_of_firstAt h]
      by_cases hnamed : name ++ [58] <+: lower (head.drop (n + 2))
      · -- The next line is the one: it is the first field that matches.
        obtain ⟨u, w, hrest, hu⟩ := named_iff.mp hnamed
        have hucr : 13 ∉ u := not_mem_of_not_mem_lower (by decide) (hu ▸ hcr)
        have hucolon : 58 ∉ u := not_mem_of_not_mem_lower (by decide) (hu ▸ hcolon)
        have hskip : 13 ∉ u ++ [58] := by simp [hucr]
        have hline : firstLine (head.drop (n + 2)) = u ++ 58 :: firstLine w := by
          rw [hrest, show u ++ 58 :: w = (u ++ [58]) ++ w by simp, firstLine_append hskip]
          simp
        rw [← hu, headerValue_of_named h hrest, hline, field_eq_some_iff.mpr ⟨hucolon, rfl⟩]
        simp
      · have hlast := ih (head.drop (n + 2)).length (by rw [List.length_drop]; omega)
          (head.drop (n + 2)) rfl
        rw [headerValue_of_not_named h hnamed, hlast]
        cases hfield : field (firstLine (head.drop (n + 2))) with
        | none => rfl
        | some f => simp [lower_field_ne hnamed hfield]

/-! ### Agreement -/

/-- The two views agree on a name: the framing finds a value exactly when the handler finds
an entry of that name, ignoring case, and every such entry has that value. -/
def ViewsAgree (head : Bytes) (headers : StringMap) (name : Bytes) : Prop :=
  match headerValue head name with
  | none => ∀ key, lower key = name → headers.lookup key = none
  | some v => (∃ key, lower key = name ∧ headers.lookup key = some v) ∧
      ∀ key v', lower key = name → headers.lookup key = some v' → v' = v

/-- Where a field carries the name, ignoring case and blanks, some field carries it without
blanks, and the last field of that spelling has the value of the first one without blanks. -/
def PlainlyNamed (head name : Bytes) : Prop :=
  ∀ f ∈ fields head, lower (trim f.1) = name →
    ∃ g ∈ (fields head).find? fun g => lower g.1 = name,
      ∀ l ∈ (fields head).reverse.find? fun l => trim l.1 = trim f.1, trim l.2 = trim g.2

theorem isBlank_toLower (x : UInt8) : isBlank (toLower x) = isBlank x := by
  unfold isBlank
  rw [Bool.eq_iff_iff]
  simp only [Bool.or_eq_true, decide_eq_true_eq]
  rw [toLower_eq_iff (by decide), toLower_eq_iff (by decide)]

/-- Text without blanks is left alone by `trim`. -/
theorem trim_of_no_blanks {s : Bytes} (h : ∀ c ∈ s, isBlank c = false) : trim s = s := by
  have hdrop : s.dropWhile isBlank = s := by
    cases s with
    | nil => rfl
    | cons c s => exact List.dropWhile_cons_of_neg (by simp [h c (List.mem_cons_self ..)])
  rw [trim, hdrop, List.rdropWhile_eq_self_iff]
  intro hne
  simp [h _ (List.getLast_mem hne)]

/-- A name that is found has no blanks, whatever its case. -/
theorem trim_of_lower_eq {s name : Bytes} (hname : IsFieldName name) (h : lower s = lower name) :
    trim s = s := by
  refine trim_of_no_blanks fun c hc => ?_
  have hmem : toLower c ∈ lower name := h ▸ List.mem_map_of_mem hc
  obtain ⟨d, hd, hdc⟩ := List.mem_map.mp hmem
  rw [← isBlank_toLower, ← hdc, isBlank_toLower]
  exact (hname d hd).2.2.2

theorem not_mem_lower {c : UInt8} (hc : c < 65) {s : Bytes} (h : c ∉ s) : c ∉ lower s := by
  intro hmem
  obtain ⟨d, hd, hdc⟩ := List.mem_map.mp hmem
  rw [toLower_eq_iff hc] at hdc
  exact h (hdc ▸ hd)

theorem headers_of_parseHttpRequest {raw : Bytes} {req : Request}
    (h : parseHttpRequest raw = some req) : req.headers = parseHeaders (headOf raw) := by
  unfold parseHttpRequest at h
  split at h
  · cases h
  · cases h
    rfl

/-- A field of a spelling is stored under it: the last one of that spelling is. -/
theorem stored_of_field {head : Bytes} {f : Bytes × Bytes} (hf : f ∈ fields head) :
    ∃ l, ((fields head).reverse.find? fun l => trim l.1 = trim f.1) = some l ∧
      (parseHeaders head).lookup (trim f.1) = some (trim l.2) := by
  rw [lookup_parseHeaders]
  cases hlast : (fields head).reverse.find? fun l => trim l.1 = trim f.1 with
  | none =>
    have hnot := List.find?_eq_none.mp hlast f (List.mem_reverse.mpr hf)
    simp at hnot
  | some l => exact ⟨l, rfl, rfl⟩

/-- What is stored under a spelling is the value of a field of that spelling, the last one. -/
theorem field_of_stored {head key v : Bytes} (h : (parseHeaders head).lookup key = some v) :
    ∃ l ∈ fields head, trim l.1 = key ∧ trim l.2 = v ∧
      ((fields head).reverse.find? fun f => trim f.1 = trim l.1) = some l := by
  rw [lookup_parseHeaders] at h
  obtain ⟨l, hl, rfl⟩ := Option.map_eq_some_iff.mp h
  have hfound := List.find?_some hl
  have hkey : trim l.1 = key := of_decide_eq_true hfound
  refine ⟨l, List.mem_reverse.mp (List.mem_of_find?_eq_some hl), hkey, rfl, ?_⟩
  rw [hkey]
  exact hl

/-- **Exactly the plainly named headers are seen alike.** -/
theorem views_agree_iff {raw : Bytes} {req : Request} (hreq : parseHttpRequest raw = some req)
    {name : Bytes} (hname : IsFieldName name) :
    ViewsAgree (headOf raw) req.headers (lower name) ↔ PlainlyNamed (headOf raw) (lower name) := by
  have hheaders := headers_of_parseHttpRequest hreq
  have hcr : 13 ∉ lower name := not_mem_lower (by decide) fun h => (hname 13 h).2.1 rfl
  have hcolon : 58 ∉ lower name := not_mem_lower (by decide) fun h => (hname 58 h).1 rfl
  unfold ViewsAgree PlainlyNamed
  rw [hheaders, headerValue_eq hcr hcolon]
  cases hfirst : (fields (headOf raw)).find? fun g => lower g.1 = lower name with
  | none =>
    -- The framing finds nothing, so nothing may be stored.
    constructor
    · intro h f hf hfname
      obtain ⟨l, -, hlookup⟩ := stored_of_field hf
      have hnone := h (trim f.1) hfname
      rw [hlookup] at hnone
      cases hnone
    · intro h key hkey
      cases hlookup : (parseHeaders (headOf raw)).lookup key with
      | none => rfl
      | some v =>
        obtain ⟨l, hl, hlkey, -, -⟩ := field_of_stored hlookup
        obtain ⟨g, hg, -⟩ := h l hl (by rw [hlkey, hkey])
        cases hg
  | some g =>
    have hg := List.find?_some hfirst
    have hgname : lower g.1 = lower name := of_decide_eq_true hg
    have hgmem := List.mem_of_find?_eq_some hfirst
    -- The framing finds the value of `g`, which the stored ones are compared with.
    constructor
    · intro h f hf hfname
      obtain ⟨l, hl, hlookup⟩ := stored_of_field hf
      refine ⟨g, rfl, fun l' hl' => ?_⟩
      obtain rfl : l' = l := Option.some.inj (hl'.symm.trans hl)
      exact h.2 (trim f.1) (trim l'.2) hfname hlookup
    · intro h
      have htrim : trim g.1 = g.1 := trim_of_lower_eq hname hgname
      constructor
      · -- The field itself is stored under its own spelling.
        obtain ⟨g', hg', hvalue⟩ := h g hgmem (by rw [htrim, hgname])
        obtain rfl : g = g' := Option.some.inj hg'
        obtain ⟨l, hl, hlookup⟩ := stored_of_field hgmem
        exact ⟨trim g.1, by rw [htrim, hgname], by rw [hlookup, hvalue l hl]⟩
      · intro key v' hkey hlookup
        obtain ⟨l, hl, hlkey, rfl, hlast⟩ := field_of_stored hlookup
        obtain ⟨g', hg', hvalue⟩ := h l hl (by rw [hlkey, hkey])
        obtain rfl : g = g' := Option.some.inj hg'
        exact hvalue l hlast

/-- Two spellings of a header with one value: both views have it. -/
theorem views_agree_applies :
    ∃ req, parseHttpRequest (bytes "GET / HTTP/1.1\r\nHost: x\r\nHOST : x\r\n\r\n") = some req ∧
      ViewsAgree (headOf (bytes "GET / HTTP/1.1\r\nHost: x\r\nHOST : x\r\n\r\n")) req.headers
        (lower (bytes "Host")) := by
  have hsome : (parseHttpRequest (bytes "GET / HTTP/1.1\r\nHost: x\r\nHOST : x\r\n\r\n")).isSome
      = true := by
    decide
  obtain ⟨req, hreq⟩ := Option.isSome_iff_exists.mp hsome
  have hfields : fields (headOf (bytes "GET / HTTP/1.1\r\nHost: x\r\nHOST : x\r\n\r\n"))
      = [(bytes "Host", bytes " x"), (bytes "HOST ", bytes " x")] := by
    rw [fields, splitLines_of_some (n := 14) (by decide),
      splitLines_of_some (n := 7) (by decide), splitLines_of_none (by decide)]
    decide
  have hname : IsFieldName (bytes "Host") := by decide +kernel
  have hplain : PlainlyNamed (headOf (bytes "GET / HTTP/1.1\r\nHost: x\r\nHOST : x\r\n\r\n"))
      (lower (bytes "Host")) := by
    unfold PlainlyNamed
    rw [hfields]
    decide
  exact ⟨req, hreq, (views_agree_iff hreq hname).mpr hplain⟩

/-- A request whose Content-Length has a blank before the colon. -/
def blankBeforeColon : Bytes := bytes "POST / HTTP/1.1\r\nContent-Length : 5\r\n\r\nhello"

/-- **A blank before the colon divides the views**: the framing finds no Content-Length, the
handler reads 5. -/
theorem blank_before_colon_divides :
    ∃ req, parseHttpRequest blankBeforeColon = some req ∧
      parseContentLength (headOf blankBeforeColon) = none ∧
      req.headers.lookup (bytes "Content-Length") = some (bytes "5") ∧
      ¬ ViewsAgree (headOf blankBeforeColon) req.headers (lower (bytes "Content-Length")) := by
  have hsome : (parseHttpRequest blankBeforeColon).isSome = true := by decide
  obtain ⟨req, hreq⟩ := Option.isSome_iff_exists.mp hsome
  have hfields : fields (headOf blankBeforeColon) = [(bytes "Content-Length ", bytes " 5")] := by
    rw [fields, splitLines_of_some (n := 15) (by decide),
      splitLines_of_none (by decide)]
    decide
  have hframing : headerValue (headOf blankBeforeColon) (lower (bytes "Content-Length"))
      = none := by
    decide
  have hstored : req.headers.lookup (bytes "Content-Length") = some (bytes "5") := by
    rw [headers_of_parseHttpRequest hreq, lookup_parseHeaders, hfields]
    decide
  refine ⟨req, hreq, by decide, hstored, fun h => ?_⟩
  unfold ViewsAgree at h
  rw [hframing] at h
  have hnone := h (bytes "Content-Length") rfl
  rw [hstored] at hnone
  cases hnone

end CppLaravel.Http
