import CppLaravel.Proofs.Routing.Compile
import CppLaravel.Proofs.Routing.Match

/-!
# `CppLaravel.Proofs.Routing.Template`: URIs with placeholders

A `Template` is what the URI of a route is written as: literal text, names for whole segments of the
path, and maybe a name for all the rest. `uri` is its text, `fill` the path that it stands for when
every name has a value.

The loop of `add` cuts the text at the placeholders again (`compileUri_uri`), and the expression it
makes accepts a path exactly if the path `Splits` along the template. There is one way to split a
path at most, since a name ends where the next `/` is.
-/

set_option autoImplicit false

namespace CppLaravel.Routing

open CppLaravel.Http
open CppLaravel.Lib

/-- The text contains no placeholder. -/
def Literal (s : Bytes) : Prop :=
  ∀ name star, name ≠ [] → (∀ c ∈ name, isWord c) → ¬ placeholderText name star <:+: s

/-- The names for segments end at a `/`, or with the template. -/
def Closed (tail : Option Bytes) : List (Bytes × Bytes) → Prop
  | [] => True
  | (_, text) :: segments =>
    (text.head? = some 47 ∨ text = [] ∧ segments = [] ∧ tail = none) ∧ Closed tail segments

/-- The URI of a route: text, names of segments with the text behind each, and the name of the
rest. -/
structure Template where
  head : Bytes
  segments : List (Bytes × Bytes)
  tail : Option Bytes
  words : ∀ name ∈ segments.map Prod.fst ++ tail.toList, name ≠ [] ∧ ∀ c ∈ name, isWord c
  literal : Literal head ∧ ∀ x ∈ segments, Literal x.2
  closed : Closed tail segments
  distinct : (segments.map Prod.fst ++ tail.toList).Nodup

/-- The text behind the head, with the names written by `f` and `g`. -/
def write (f g : Bytes → Bytes) (tail : Option Bytes) (segments : List (Bytes × Bytes)) : Bytes :=
  segments.flatMap (fun x => f x.1 ++ x.2) ++ (tail.map g).getD []

namespace Template

/-- The names. -/
def names (t : Template) : List Bytes := t.segments.map Prod.fst ++ t.tail.toList

/-- The template as it is given to `add`. -/
def uri (t : Template) : Bytes :=
  t.head ++ write (placeholderText · false) (placeholderText · true) t.tail t.segments

/-- The template with a value for each name. -/
def fill (t : Template) (σ : Bytes → Bytes) : Bytes := t.head ++ write σ σ t.tail t.segments

/-- Segments are not empty and contain no `/`, the rest contains no line terminator. -/
def Fits (t : Template) (σ : Bytes → Bytes) : Prop :=
  (∀ name ∈ t.segments.map Prod.fst, σ name ≠ [] ∧ 47 ∉ σ name) ∧
    ∀ name ∈ t.tail, ∀ c ∈ σ name, isLineTerminator c = false

end Template

/-! ### Finding the placeholders -/

theorem placeholderAt_of_text {name : Bytes} (star : Bool) (hname : name ≠ [])
    (hword : ∀ c ∈ name, isWord c) (s : Bytes) :
    placeholderAt (placeholderText name star ++ s) = some (name, star) := by
  have hclose : isWord 42 = false ∧ isWord 125 = false := by decide
  cases star with
  | true =>
    have htake : (name ++ 42 :: 125 :: s).takeWhile isWord = name := by
      simp [List.takeWhile_append_of_pos hword, hclose]
    have hdrop : (name ++ 42 :: 125 :: s).dropWhile isWord = 42 :: 125 :: s := by
      simp [List.dropWhile_append_of_pos hword, hclose]
    simp [placeholderText, placeholderAt, htake, hdrop, hname]
  | false =>
    have htake : (name ++ 125 :: s).takeWhile isWord = name := by
      simp [List.takeWhile_append_of_pos hword, hclose]
    have hdrop : (name ++ 125 :: s).dropWhile isWord = 125 :: s := by
      simp [List.dropWhile_append_of_pos hword, hclose]
    simp [placeholderText, placeholderAt, htake, hdrop, hname]

/-- What is found is the text of a placeholder. -/
theorem text_of_placeholderAt {s name : Bytes} {star : Bool}
    (h : placeholderAt s = some (name, star)) :
    name ≠ [] ∧ (∀ c ∈ name, isWord c) ∧ placeholderText name star <+: s := by
  cases s with
  | nil => cases h
  | cons c s =>
    have hword : ∀ c ∈ s.takeWhile isWord, isWord c := fun c hc => List.mem_takeWhile_imp hc
    have hprefix : ∀ close : Bytes, close <+: s.dropWhile isWord →
        123 :: (s.takeWhile isWord ++ close) <+: 123 :: s := by
      rintro close ⟨t, ht⟩
      refine ⟨t, ?_⟩
      rw [List.cons_append, List.append_assoc, ht, List.takeWhile_append_dropWhile]
    simp only [placeholderAt] at h
    split at h
    · cases h
    · rename_i hc
      obtain ⟨rfl, hname⟩ : c = 123 ∧ s.takeWhile isWord ≠ [] := by simpa using hc
      split at h
      · cases h
        exact ⟨hname, hword, hprefix _ ‹_›⟩
      · split at h
        · cases h
          exact ⟨hname, hword, hprefix _ ‹_›⟩
        · cases h

/-- No placeholder starts in literal text, when the text goes on with a brace or ends. -/
theorem placeholderAt_literal {c : UInt8} {u s : Bytes} (hu : Literal (c :: u))
    (hs : ∀ x ∈ s.head?, x = 123) : placeholderAt (c :: u ++ s) = none := by
  by_contra hsome
  obtain ⟨⟨name, star⟩, hfound⟩ := Option.ne_none_iff_exists'.mp hsome
  obtain ⟨hname, hword, htext⟩ := text_of_placeholderAt hfound
  rcases List.prefix_or_prefix_of_prefix htext (List.prefix_append (c :: u) s) with h | ⟨v, hv⟩
  · exact hu name star hname hword h.isInfix
  · cases v with
    | nil =>
      rw [List.append_nil] at hv
      exact hu name star hname hword (hv ▸ List.infix_rfl)
    | cons x v =>
      -- The placeholder would have a second opening brace in it.
      rw [← hv, List.prefix_append_right_inj] at htext
      obtain ⟨t, rfl⟩ := htext
      obtain rfl : x = 123 := hs x rfl
      have hmem : (123 : UInt8) ∈ name ++ (if star then [42, 125] else [125]) := by
        have htail := (List.cons.inj hv).2
        rw [← htail]
        simp
      have hbrace : isWord 123 = false := by decide
      rcases List.mem_append.mp hmem with hmem | hmem
      · exact absurd (hword _ hmem) (by simp [hbrace])
      · revert hmem
        cases star <;> decide

theorem placeholders_literal {u s : Bytes} (hu : Literal u) (hs : ∀ x ∈ s.head?, x = 123)
    (pos : Nat) : placeholders pos 0 (u ++ s) = placeholders (pos + u.length) 0 s := by
  induction u generalizing pos with
  | nil => rfl
  | cons c u ih =>
    have htail : Literal u := fun name star hname hword h =>
      hu name star hname hword (h.trans (List.suffix_cons c u).isInfix)
    rw [List.cons_append, placeholders, ← List.cons_append, placeholderAt_literal hu hs]
    show placeholders (pos + 1) 0 (u ++ s) = _
    rw [ih htail, List.length_cons, Nat.add_assoc, Nat.add_comm 1]

theorem placeholders_skip (pos : Nat) (u s : Bytes) :
    placeholders pos u.length (u ++ s) = placeholders (pos + u.length) 0 s := by
  induction u generalizing pos with
  | nil => rfl
  | cons c u ih =>
    rw [List.cons_append, List.length_cons, placeholders, ih, Nat.add_assoc, Nat.add_comm 1]

theorem placeholders_text {name : Bytes} (star : Bool) (hname : name ≠ [])
    (hword : ∀ c ∈ name, isWord c) (pos : Nat) (s : Bytes) :
    placeholders pos 0 (placeholderText name star ++ s) =
      ⟨pos, name, star⟩ :: placeholders (pos + (placeholderText name star).length) 0 s := by
  have hat := placeholderAt_of_text star hname hword s
  rw [placeholderText, List.cons_append] at hat
  rw [placeholderText, List.cons_append, placeholders, hat]
  show _ :: placeholders (pos + 1) (name ++ _).length _ = _
  rw [placeholders_skip, List.length_cons, Nat.add_assoc, Nat.add_comm 1]

/-! ### The loop of `add` -/

/-- The part of the expression behind the text of the head. -/
def groups (tail : Option Bytes) (segments : List (Bytes × Bytes)) : Bytes :=
  segments.flatMap (fun x => bytes "([^/]+)" ++ escape x.2) ++
    (tail.map fun _ => bytes "(.*)").getD []

/-- The expression with the text behind the last match. -/
def Compiled.finish (uri : Bytes) (c : Compiled) : Bytes := c.rx ++ escape (uri.drop c.last)

theorem Compiled.segment_eq {uri before text name : Bytes} {star : Bool} {c : Compiled}
    (after : Bytes) (huri : uri = before ++ text ++ placeholderText name star ++ after)
    (hlast : c.last = before.length) :
    c.segment uri ⟨before.length + text.length, name, star⟩ =
      ⟨c.rx ++ escape text ++ (if star then bytes "(.*)" else bytes "([^/]+)"), c.names ++ [name],
        (before ++ text ++ placeholderText name star).length⟩ := by
  have hgap : substr uri before.length (before.length + text.length - before.length) = text := by
    rw [huri, substr, Nat.add_sub_cancel_left]
    simp
  rw [Compiled.segment, hlast, hgap]
  simp [Placeholder.length, Nat.add_assoc]

theorem foldl_segment {uri : Bytes} {tail : Option Bytes} {segments : List (Bytes × Bytes)}
    (hwords : ∀ name ∈ segments.map Prod.fst ++ tail.toList, name ≠ [] ∧ ∀ c ∈ name, isWord c)
    (hliteral : ∀ x ∈ segments, Literal x.2) (before : Bytes) {text : Bytes} (htext : Literal text)
    {c : Compiled} (hlast : c.last = before.length)
    (huri : uri = before ++ text ++
      write (placeholderText · false) (placeholderText · true) tail segments) :
    let c' := (placeholders before.length 0 (text ++
      write (placeholderText · false) (placeholderText · true) tail segments)).foldl
        (Compiled.segment uri) c
    c'.finish uri = c.rx ++ escape text ++ groups tail segments ∧
      c'.names = c.names ++ (segments.map Prod.fst ++ tail.toList) := by
  induction segments generalizing before text c with
  | nil =>
    cases tail with
    | none =>
      simp only [write, List.flatMap_nil, Option.map_none, Option.getD_none,
        List.append_nil] at huri
      -- No placeholder is left, and the rest is text.
      have hnone : placeholders before.length 0 (text ++ []) = [] := by
        rw [placeholders_literal htext (by simp)]
        rfl
      show Compiled.finish uri (List.foldl _ c (placeholders before.length 0 (text ++ []))) = _ ∧
        (List.foldl _ c (placeholders before.length 0 (text ++ []))).names = _
      rw [hnone, List.foldl_nil, Compiled.finish, hlast, huri, List.drop_left]
      simp [groups]
    | some name =>
      have hname := hwords name (by simp)
      simp only [write, List.flatMap_nil, Option.map_some, Option.getD_some,
        List.nil_append] at huri ⊢
      -- Only the catch-all is left.
      have hone : placeholders before.length 0 (text ++ placeholderText name true) =
          [⟨before.length + text.length, name, true⟩] := by
        rw [placeholders_literal htext (by simp [placeholderText]),
          ← List.append_nil (placeholderText name true), placeholders_text true hname.1 hname.2]
        rfl
      rw [hone, List.foldl_cons, List.foldl_nil,
        Compiled.segment_eq [] (by rw [huri, List.append_nil]) hlast, Compiled.finish]
      simp only [huri, List.drop_length]
      simp [groups, escape]
  | cons x segments ih =>
    obtain ⟨name, behind⟩ := x
    have hname := hwords name (by simp)
    -- One placeholder and the text behind it; the rest begins with that text.
    have hwrite : write (placeholderText · false) (placeholderText · true) tail
        ((name, behind) :: segments) = placeholderText name false ++ (behind ++
          write (placeholderText · false) (placeholderText · true) tail segments) := by
      simp [write]
    rw [hwrite] at huri ⊢
    rw [placeholders_literal htext (by simp [placeholderText]),
      placeholders_text false hname.1 hname.2]
    simp only [List.foldl_cons]
    rw [Compiled.segment_eq (behind ++ write (placeholderText · false)
      (placeholderText · true) tail segments) (by rw [huri]; simp) hlast, ← List.length_append,
      ← List.length_append]
    have hrest := ih
      (fun n hn => hwords n (by simp only [List.map_cons, List.cons_append]; exact .tail _ hn))
      (fun x hx => hliteral x (.tail _ hx)) (before ++ text ++ placeholderText name false)
      (hliteral _ (.head _))
      (c := ⟨c.rx ++ escape text ++ bytes "([^/]+)", c.names ++ [name],
        (before ++ text ++ placeholderText name false).length⟩) rfl (by rw [huri]; simp)
    refine ⟨hrest.1.trans ?_, hrest.2.trans ?_⟩
    · simp [groups]
    · simp

/-- The placeholders of a template are found again. -/
theorem compileUri_uri (t : Template) :
    (compileUri t.uri).finish t.uri = bytes "^" ++ escape t.head ++ groups t.tail t.segments ∧
      (compileUri t.uri).names = t.names :=
  foldl_segment t.words t.literal.2 [] t.literal.1 (c := ⟨bytes "^", [], 0⟩) rfl rfl

/-! ### The expression -/

/-- `([^/]+)` and the text behind it, one after the other, then `(.*)`. -/
def expression (tail : Option Bytes) (segments : List (Bytes × Bytes)) : List (Regex UInt8) :=
  segments.flatMap (fun x =>
    .group (.seq .empty (.many (· ≠ 47) 1)) :: x.2.map fun c => .sym (· = c)) ++
  (tail.map fun _ => [.group (.seq .empty (.many (fun c => !isLineTerminator c) 0))]).getD []

theorem compiles_groups (tail : Option Bytes) (segments : List (Bytes × Bytes)) :
    Compiles (groups tail segments) (expression tail segments) := by
  have htail : Compiles ((tail.map fun _ => bytes "(.*)").getD [])
      ((tail.map fun _ =>
        [.group (.seq .empty (.many (fun c => !isLineTerminator c) 0))]).getD []) := by
    cases tail with
    | none => exact .nil
    | some name => exact compiles_catchAll
  induction segments with
  | nil => exact htail
  | cons x segments ih =>
    have hcons := (compiles_segment.append (compiles_escape x.2)).append ih
    simpa [groups, expression] using hcons

/-- A path along the names: what each of them gets. -/
def Splits (tail : Option Bytes) : List (Bytes × Bytes) → Bytes → List Bytes → Prop
  | [], s, values =>
    match tail with
    | none => s = [] ∧ values = []
    | some _ => (∀ c ∈ s, isLineTerminator c = false) ∧ values = [s]
  | (_, text) :: segments, s, values =>
    ∃ v t values', s = v ++ (text ++ t) ∧ v ≠ [] ∧ 47 ∉ v ∧ Splits tail segments t values' ∧
      values = v :: values'

/-- A parse behind the head splits the rest of the path. -/
theorem parsesSeq_expression {n : Nat} {tail : Option Bytes} {segments : List (Bytes × Bytes)}
    {s u : Bytes} {values : List Bytes} :
    Regex.ParsesSeq n (expression tail segments ++ [.stop]) s u values ↔
      u = [] ∧ Splits tail segments s values := by
  induction segments generalizing s values with
  | nil =>
    cases tail with
    | none =>
      show Regex.ParsesSeq n [.stop] s u values ↔ _
      rw [Regex.parsesSeq_stop]
      simp [Splits, and_left_comm]
    | some name =>
      show Regex.ParsesSeq n [.group (.seq .empty (.many _ 0)), .stop] s u values ↔ _
      simp only [Regex.parsesSeq_group_many, Regex.parsesSeq_stop, Splits]
      constructor
      · rintro ⟨v, t, cs, rfl, hv, -, ⟨rfl, rfl, rfl⟩, rfl⟩
        simpa using hv
      · rintro ⟨rfl, hs, rfl⟩
        exact ⟨s, [], [], by simp, by simpa using hs, Nat.zero_le _, ⟨rfl, rfl, rfl⟩, rfl⟩
  | cons x segments ih =>
    obtain ⟨name, text⟩ := x
    have hcons : expression tail ((name, text) :: segments) ++ [.stop] =
        .group (.seq .empty (.many (· ≠ 47) 1)) :: (text.map (fun c => .sym (· = c)) ++
          (expression tail segments ++ [.stop])) := by
      simp [expression]
    rw [hcons, Regex.parsesSeq_group_many]
    simp only [Regex.parsesSeq_text, ih, Splits]
    constructor
    · rintro ⟨v, _, cs, rfl, hv, hlength, ⟨t, rfl, rfl, hsplits⟩, rfl⟩
      refine ⟨rfl, v, t, cs, rfl, List.ne_nil_of_length_pos hlength, fun hmem => ?_, hsplits, rfl⟩
      simpa using hv 47 hmem
    · rintro ⟨rfl, v, t, cs, rfl, hne, hslash, hsplits, rfl⟩
      refine ⟨v, text ++ t, cs, rfl, fun c hc => ?_, List.length_pos_iff.mpr hne,
        ⟨t, rfl, rfl, hsplits⟩, rfl⟩
      exact decide_eq_true fun h => hslash (h ▸ hc)

/-- A path is split in one way at most: a segment ends where the next `/` is. -/
theorem Splits.unique {tail : Option Bytes} {segments : List (Bytes × Bytes)}
    (hclosed : Closed tail segments) {s : Bytes} {values values' : List Bytes}
    (h : Splits tail segments s values) (h' : Splits tail segments s values') :
    values = values' := by
  induction segments generalizing s values values' with
  | nil =>
    cases tail with
    | none => exact h.2.trans h'.2.symm
    | some name => exact h.2.trans h'.2.symm
  | cons x segments ih =>
    obtain ⟨name, text⟩ := x
    obtain ⟨v, t, vs, rfl, -, hv, hsplits, rfl⟩ := h
    obtain ⟨v', t', vs', heq, -, hv', hsplits', rfl⟩ := h'
    rcases hclosed.1 with htext | ⟨rfl, rfl, rfl⟩
    · obtain ⟨text, rfl⟩ := List.head?_eq_some_iff.mp htext
      -- A value has no `/`, and the text behind it begins with one.
      have hends : ∀ w rest : Bytes, 47 ∉ w →
          (w ++ (47 :: rest)).takeWhile (· ≠ 47) = w := by
        intro w rest hw
        have hall : ∀ c ∈ w, decide (c ≠ 47) = true := by
          intro c hc
          rw [decide_eq_true_iff]
          rintro rfl
          exact hw hc
        rw [List.takeWhile_append_of_pos hall]
        simp
      obtain rfl : v = v' := by
        rw [← hends v (text ++ t) hv, ← hends v' (text ++ t') hv']
        exact congrArg _ heq
      obtain rfl : t = t' := List.append_cancel_left (List.append_cancel_left heq)
      rw [ih hclosed.2 hsplits hsplits']
    · -- Nothing stands behind the last value.
      obtain ⟨rfl, rfl⟩ := hsplits
      obtain ⟨rfl, rfl⟩ := hsplits'
      simp only [List.append_nil] at heq
      rw [heq]

/-! ### Values by name -/

/-- What is written depends on the values of the names only. -/
theorem write_congr {σ σ' : Bytes → Bytes} {tail : Option Bytes} {segments : List (Bytes × Bytes)}
    (h : ∀ name ∈ segments.map Prod.fst ++ tail.toList, σ name = σ' name) :
    write σ σ tail segments = write σ' σ' tail segments := by
  have hsegments : segments.flatMap (fun x => σ x.1 ++ x.2) =
      segments.flatMap fun x => σ' x.1 ++ x.2 := by
    refine List.flatMap_congr fun x hx => ?_
    rw [h x.1 (List.mem_append_left _ (List.mem_map_of_mem hx))]
  rw [write, write, hsegments]
  cases tail with
  | none => rfl
  | some name => simp [h name (by simp)]

/-- A path is split exactly if it is what is written with some values. -/
theorem splits_iff {tail : Option Bytes} {segments : List (Bytes × Bytes)}
    (hdistinct : (segments.map Prod.fst ++ tail.toList).Nodup) {s : Bytes} {values : List Bytes} :
    Splits tail segments s values ↔
      ∃ σ : Bytes → Bytes, (∀ name ∈ segments.map Prod.fst, σ name ≠ [] ∧ 47 ∉ σ name) ∧
        (∀ name ∈ tail, ∀ c ∈ σ name, isLineTerminator c = false) ∧
        s = write σ σ tail segments ∧ values = (segments.map Prod.fst ++ tail.toList).map σ := by
  induction segments generalizing s values with
  | nil =>
    cases tail with
    | none => simp [Splits, write]
    | some name =>
      constructor
      · rintro ⟨hs, rfl⟩
        exact ⟨fun _ => s, by simp, by simpa using hs, by simp [write], by simp⟩
      · rintro ⟨σ, -, hfits, rfl, rfl⟩
        simpa [Splits, write] using hfits
  | cons x segments ih =>
    obtain ⟨name, text⟩ := x
    obtain ⟨hname, hdistinct⟩ := List.nodup_cons.mp hdistinct
    constructor
    · rintro ⟨v, t, values', rfl, hne, hslash, hsplits, rfl⟩
      obtain ⟨σ, hsegments, htail, rfl, rfl⟩ := (ih hdistinct).mp hsplits
      -- The names behind this one are others.
      have hother : ∀ n ∈ segments.map Prod.fst ++ tail.toList,
          Function.update σ name v n = σ n := by
        intro n hn
        have hne' : n ≠ name := by
          rintro rfl
          exact hname hn
        exact Function.update_of_ne hne' v σ
      refine ⟨Function.update σ name v, ?_, ?_, ?_, ?_⟩
      · intro n hn
        rcases List.mem_cons.mp hn with rfl | hn
        · simpa using ⟨hne, hslash⟩
        · rw [hother n (List.mem_append_left _ hn)]
          exact hsegments n hn
      · intro n hn
        rw [hother n (List.mem_append_right _ (Option.mem_toList.mpr hn))]
        exact htail n hn
      · rw [← write_congr hother]
        simp [write]
      · have hmap := List.map_congr_left hother
        rw [List.map_cons, List.cons_append, List.map_cons, hmap, Function.update_self]
    · rintro ⟨σ, hsegments, htail, rfl, rfl⟩
      have hhead := hsegments name List.mem_cons_self
      refine ⟨σ name, write σ σ tail segments, _, by simp [write], hhead.1, hhead.2,
        (ih hdistinct).mpr ⟨σ, ?_, htail, rfl, rfl⟩, rfl⟩
      exact fun n hn => hsegments n (List.mem_cons_of_mem _ hn)

/-! ### The route -/

section
variable {W : Type}

/-- The parameters of a match are the values by their names. -/
theorem params_iff {r : Route W} {names : List Bytes} (hnames : r.paramNames = names)
    (hdistinct : names.Nodup) {σ : Bytes → Bytes} {params : StringMap} :
    params = r.params (names.map σ) ↔
      (∀ name ∈ names, params.lookup name = some (σ name)) ∧
        ∀ name ∉ names, params.lookup name = none := by
  have hentries : names.zipIdx.map (fun x => (x.1, ((names.map σ)[x.2]?).getD [])) =
      names.map fun name => (name, σ name) := by
    refine List.ext_getElem (by simp) fun i hi hi' => ?_
    have hlt : i < names.length := by simpa using hi
    simp [hlt]
  have hkeys : (names.map fun name => (name, σ name)).map Prod.fst = names := by
    simp [Function.comp_def]
  have hmem : ∀ name ∈ names, (r.params (names.map σ)).lookup name = some (σ name) := by
    intro name hname
    rw [Route.params, hnames, hentries]
    exact lookup_insertAll_of_mem (hkeys.symm ▸ hdistinct) (List.mem_map.mpr ⟨name, hname, rfl⟩)
  have hnot : ∀ name ∉ names, (r.params (names.map σ)).lookup name = none := by
    intro name hname
    rw [Route.params, hnames, hentries, lookup_insertAll_of_notMem (hkeys.symm ▸ hname)]
    exact Finmap.lookup_empty name
  constructor
  · rintro rfl
    exact ⟨hmem, hnot⟩
  · rintro ⟨h, h'⟩
    refine Finmap.ext_lookup fun name => ?_
    by_cases hname : name ∈ names
    · rw [h name hname, hmem name hname]
    · rw [h' name hname, hnot name hname]

/-- `add` makes a route of every template, whose expression accepts the splits of a path. -/
theorem add_uri (t : Template) (routes : List (Route W)) (method : Bytes) (handler : Handler W)
    (middleware : List (Middleware W)) :
    ∃ pattern, add routes method t.uri handler middleware =
        some (routes ++ [⟨method, t.uri, pattern, t.names, handler, middleware⟩]) ∧
      ∀ path values, pattern.Accepts path values ↔
        ∃ rest, path = t.head ++ rest ∧ Splits t.tail t.segments rest values := by
  obtain ⟨hrx, hnames⟩ := compileUri_uri t
  have hcompiles := (((compiles_start.append (compiles_escape t.head)).append
    (compiles_groups t.tail t.segments)).append compiles_stop)
  generalize hitems : [Regex.start] ++ _ ++ expression t.tail t.segments ++ [Regex.stop] = items
    at hcompiles
  refine ⟨items.foldl .seq .empty, ?_, fun path values => ?_⟩
  · rw [Compiled.finish] at hrx
    rw [add, hnames]
    simp only [hrx]
    rw [compile_of_compiles hcompiles]
    rfl
  · rw [Regex.Accepts, Regex.parses_foldl_seq, Regex.parsesSeq_empty, ← hitems]
    simp only [List.cons_append, List.nil_append, List.append_assoc]
    rw [Regex.parsesSeq_start, Regex.parsesSeq_text]
    simp only [parsesSeq_expression, true_and]

/-- The route of a template matches the paths that the template can be filled to, each with the
values as its parameters. -/
theorem match_template (t : Template) (routes : List (Route W)) (method : Bytes)
    (handler : Handler W) (middleware : List (Middleware W)) :
    ∃ r, add routes method t.uri handler middleware = some (routes ++ [r]) ∧
      (∀ path, r.Matches path ↔ ∃ σ, t.Fits σ ∧ path = t.fill σ) ∧
      ∀ req, (∀ q ∈ routes, ¬ q.Answers req) → req.method = method → ∀ params,
        matchRequest req (routes ++ [r]) = some (r, params) ↔
          ∃ σ, t.Fits σ ∧ req.path = t.fill σ ∧
            (∀ name ∈ t.names, params.lookup name = some (σ name)) ∧
            ∀ name ∉ t.names, params.lookup name = none := by
  obtain ⟨pattern, hadd, haccepts⟩ := add_uri t routes method handler middleware
  -- What the pattern accepts, by the values of the names.
  have hvalues : ∀ path values, pattern.Accepts path values ↔
      ∃ σ, t.Fits σ ∧ path = t.fill σ ∧ values = t.names.map σ := by
    intro path values
    rw [haccepts]
    simp only [splits_iff t.distinct]
    constructor
    · rintro ⟨rest, rfl, σ, hsegments, htail, rfl, rfl⟩
      exact ⟨σ, ⟨hsegments, htail⟩, rfl, rfl⟩
    · rintro ⟨σ, hfits, rfl, rfl⟩
      exact ⟨_, rfl, σ, hfits.1, hfits.2, rfl, rfl⟩
  have hunique : ∀ path values values', pattern.Accepts path values →
      pattern.Accepts path values' → values = values' := by
    intro path values values' h h'
    obtain ⟨rest, rfl, hsplits⟩ := (haccepts path values).mp h
    obtain ⟨rest', heq, hsplits'⟩ := (haccepts _ values').mp h'
    obtain rfl := List.append_cancel_left heq
    exact hsplits.unique t.closed hsplits'
  refine ⟨_, hadd, fun path => ?_, fun req hbefore hmethod params => ?_⟩
  · constructor
    · rintro ⟨values, h⟩
      obtain ⟨σ, hfits, hpath, -⟩ := (hvalues path values).mp h
      exact ⟨σ, hfits, hpath⟩
    · rintro ⟨σ, hfits, hpath⟩
      exact ⟨_, (hvalues path _).mpr ⟨σ, hfits, hpath, rfl⟩⟩
  · rw [matchRequest_append _ hbefore, matchRequest, if_neg (by simp [hmethod]), Route.matchPath]
    have hmatch : ∀ values, pattern.fullMatch req.path = some values ↔ _ := fun values =>
      (Regex.fullMatch_eq_some_iff (hunique req.path)).trans (hvalues req.path values)
    constructor
    · intro h
      cases hfound : pattern.fullMatch req.path with
      | none => simp [hfound, matchRequest] at h
      | some values =>
        obtain ⟨σ, hfits, hpath, rfl⟩ := (hmatch values).mp hfound
        simp only [hfound, Option.map_some, Option.some.injEq, Prod.mk.injEq, true_and] at h
        exact ⟨σ, hfits, hpath, (params_iff rfl t.distinct).mp h.symm⟩
    · rintro ⟨σ, hfits, hpath, hparams⟩
      rw [(hmatch _).mpr ⟨σ, hfits, hpath, rfl⟩]
      let r : Route W := ⟨method, t.uri, pattern, t.names, handler, middleware⟩
      obtain rfl := (params_iff (r := r) rfl t.distinct).mpr hparams
      rfl

/-- `/a.b/{id}/{path*}`. -/
example : Template where
  head := bytes "/a.b/"
  segments := [(bytes "id", bytes "/")]
  tail := some (bytes "path")
  words := List.forall_mem_cons.mpr ⟨⟨by decide, List.all_eq_true.mp (by decide)⟩,
    List.forall_mem_singleton.mpr ⟨by decide, List.all_eq_true.mp (by decide)⟩⟩
  literal := by
    have hliteral : ∀ s : Bytes, 123 ∉ s → Literal s := fun s hs name star _ _ h =>
      hs (h.subset List.mem_cons_self)
    exact ⟨hliteral _ (by decide), by simpa using hliteral _ (by decide)⟩
  closed := ⟨.inl rfl, trivial⟩
  distinct := by decide

end

end CppLaravel.Routing
