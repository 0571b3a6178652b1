import CppLaravel.Proofs.Blade.Blocks

/-!
# `CppLaravel.Proofs.Blade.Meaning`: rendering a printed template

* `scan_literal`, `scan_here`: the first directive behind a text without any.
* `condAt_print`, `condElseAt_print`, `loopAt_print`: what the engine makes of a printed block.
* `render_print`: the engine renders what a template means.
-/

set_option autoImplicit false

namespace CppLaravel.Blade

open CppLaravel.Lib
open CppLaravel.Http

/-! ### Positions in a text -/

/-- What stands at a position of a text. -/
structure At (t : Bytes) (i : Nat) (u : Bytes) : Prop where
  le : i ≤ t.length
  drop_eq : t.drop i = u

section
variable {t u x : Bytes} {i : Nat}

theorem At.skip (h : At t i (x ++ u)) : At t (i + x.length) u where
  le := by
    have hlen := congrArg List.length h.drop_eq
    have hle := h.le
    rw [List.length_drop, List.length_append] at hlen
    omega
  drop_eq := by rw [← List.drop_drop, h.drop_eq, List.drop_left]

theorem At.slice (h : At t i (x ++ u)) : slice t i (some (i + x.length)) = x := by
  rw [Blade.slice, if_pos (Nat.le_add_right i _), substr, h.drop_eq, Nat.add_sub_cancel_left,
    List.take_left]

/-- A search passes a text that does not contain the first byte of its pattern. -/
theorem At.find (h : At t i (x ++ u)) {c : UInt8} {q : Bytes} (hx : c ∉ x) (hu : c :: q <+: u) :
    find t (c :: q) i = some (i + x.length) := by
  rw [find_eq h.le, h.drop_eq, firstAt_append_of_not_mem hx, firstAt_of_isPrefix hu]
  rfl

end

/-! ### Trimming -/

theorem trim_eq {a w b : Bytes} (ha : ∀ c ∈ a, isBlank c) (hb : ∀ c ∈ b, isBlank c)
    (hfirst : ∀ c, w.head? = some c → isBlank c = false)
    (hlast : ∀ c, w.getLast? = some c → isBlank c = false) (hne : w ≠ []) :
    trim (a ++ (w ++ b)) = w := by
  have hleft : (a ++ (w ++ b)).dropWhile isBlank = w ++ b := by
    rw [List.dropWhile_append_of_pos ha]
    obtain ⟨c, w, rfl⟩ := List.exists_cons_of_ne_nil hne
    rw [List.cons_append, List.dropWhile_cons_of_neg (by simp [hfirst c rfl])]
  rw [trim, hleft, List.rdropWhile, List.reverse_append,
    List.dropWhile_append_of_pos (by simpa using hb)]
  obtain ⟨w, c, rfl⟩ := List.eq_nil_or_concat w |>.resolve_left hne
  have hc : isBlank c = false := hlast c (by simp)
  rw [List.concat_eq_append, List.reverse_append, List.reverse_singleton, List.singleton_append,
    List.dropWhile_cons_of_neg (by simp [hc])]
  simp

theorem isBlank_of_isWordByte {c : UInt8} (h : isWordByte c) : isBlank c = false := by
  have hblank : ∀ x ∈ [(32 : UInt8), 9, 13, 10], c ≠ x := by
    have hword : ∀ x ∈ [(32 : UInt8), 9, 13, 10], isWordByte x = false :=
      List.all_iff_forall_prop.mp (by decide)
    exact fun x hx => ne_of_isWordByte h (hword x hx)
  simp [isBlank, hblank]

theorem Identifier.trim_eq (v : Identifier) {a b : Bytes} (ha : ∀ c ∈ a, isBlank c)
    (hb : ∀ c ∈ b, isBlank c) : trim (a ++ (v.text ++ b)) = v.text :=
  Blade.trim_eq ha hb
    (fun c hc => isBlank_of_isWordByte (v.isWord c (List.mem_of_mem_head? hc)))
    (fun c hc => isBlank_of_isWordByte (v.isWord c (List.mem_of_mem_getLast? hc))) v.ne_nil

/-! ### The first directive -/

/-- The beginnings of the directives that `render_impl` looks for. -/
def beginnings : List Bytes :=
  [bytes "\x7b!!", bytes "\x7b\x7b", bytes "@if(", bytes "@foreach(", bytes "@include(",
    bytes "@yield(", bytes "@section("]

theorem scan_skip {t : Bytes} {i : Nat} (hi : i < t.length)
    (hno : ∀ p ∈ beginnings, ¬ p <+: t.drop i) : scan t i = scan t (i + 1) := by
  have h : ∀ p ∈ beginnings, find t p i = find t p (i + 1) := fun p hp => find_succ hi (hno p hp)
  simp only [beginnings, List.forall_mem_cons] at h
  obtain ⟨hraw, hint, hif, hfor, hinc, hyield, hsec, -⟩ := h
  rw [scan, scan, hraw, hint, hif, hfor, hinc, hyield, hsec]

/-- A text without `@` and `{` is passed. -/
theorem scan_literal {t x u : Bytes} {i : Nat} (h : At t i (x ++ u)) (hat : atSign ∉ x)
    (hbrace : 123 ∉ x) : scan t i = scan t (i + x.length) := by
  induction x generalizing i with
  | nil => rfl
  | cons c x ih =>
    rw [List.mem_cons, not_or] at hat hbrace
    have hheads : ∀ p ∈ beginnings, p.head? = some atSign ∨ p.head? = some 123 := by
      decide
    have hlt : i < t.length := by
      have hlen := congrArg List.length h.drop_eq
      rw [List.length_drop, List.cons_append, List.length_cons] at hlen
      omega
    have hno : ∀ p ∈ beginnings, ¬ p <+: t.drop i := by
      intro p hp hpre
      rw [h.drop_eq, List.cons_append] at hpre
      rcases hheads p hp with hhead | hhead
      · exact not_prefix_cons_of_ne hhead (Ne.symm hat.1) hpre
      · exact not_prefix_cons_of_ne hhead (Ne.symm hbrace.1) hpre
    have hstep : At t (i + 1) (x ++ u) := At.skip (x := [c]) h
    rw [scan_skip hlt hno, ih hstep hat.2 hbrace.2, List.length_cons, Nat.add_assoc,
      Nat.add_comm 1]

/-- The directive that stands at the position. -/
theorem scan_here {t : Bytes} {i : Nat} (hi : i ≤ t.length) {p : Bytes} (hp : p ∈ beginnings)
    (h : p <+: t.drop i) :
    scan t i = some (i,
      if bytes "\x7b!!" <+: t.drop i then rawAt t i
      else if bytes "\x7b\x7b" <+: t.drop i then escapedAt t i
      else if bytes "@if(" <+: t.drop i then condAt t i
      else if bytes "@foreach(" <+: t.drop i then loopAt t i
      else if bytes "@include(" <+: t.drop i then includeAt t i
      else if bytes "@yield(" <+: t.drop i then yieldAt t i
      else namedAt t i) := by
  have hearly : earliest [find t (bytes "\x7b!!") i, find t (bytes "\x7b\x7b") i,
      find t (bytes "@if(") i, find t (bytes "@foreach(") i, find t (bytes "@include(") i,
      find t (bytes "@yield(") i, find t (bytes "@section(") i] = some i :=
    earliest_find hp hi h
  rw [scan, hearly, Option.map_some]
  simp only [eq_comm (a := some i), find_eq_self_iff hi]

/-! ### Printed directives -/

section
variable {t rest : Bytes} {i : Nat}

theorem scan_escaped (hi : i ≤ t.length) (h : bytes "\x7b\x7b" <+: t.drop i) :
    scan t i = some (i, escapedAt t i) := by
  rw [scan_here hi (by simp [beginnings]) h,
    if_neg (not_prefix_of_other h (by decide) (by decide)), if_pos h]

theorem scan_raw (hi : i ≤ t.length) (h : bytes "\x7b!!" <+: t.drop i) :
    scan t i = some (i, rawAt t i) := by
  rw [scan_here hi (by simp [beginnings]) h, if_pos h]

theorem scan_cond (hi : i ≤ t.length) (h : bytes "@if(" <+: t.drop i) :
    scan t i = some (i, condAt t i) := by
  rw [scan_here hi (by simp [beginnings]) h,
    if_neg (not_prefix_of_other h (by decide) (by decide)),
    if_neg (not_prefix_of_other h (by decide) (by decide)), if_pos h]

theorem scan_loop (hi : i ≤ t.length) (h : bytes "@foreach(" <+: t.drop i) :
    scan t i = some (i, loopAt t i) := by
  rw [scan_here hi (by simp [beginnings]) h,
    if_neg (not_prefix_of_other h (by decide) (by decide)),
    if_neg (not_prefix_of_other h (by decide) (by decide)),
    if_neg (not_prefix_of_other h (by decide) (by decide)), if_pos h]

theorem scan_include (hi : i ≤ t.length) (h : bytes "@include(" <+: t.drop i) :
    scan t i = some (i, includeAt t i) := by
  rw [scan_here hi (by simp [beginnings]) h,
    if_neg (not_prefix_of_other h (by decide) (by decide)),
    if_neg (not_prefix_of_other h (by decide) (by decide)),
    if_neg (not_prefix_of_other h (by decide) (by decide)),
    if_neg (not_prefix_of_other h (by decide) (by decide)), if_pos h]

theorem scan_yield (hi : i ≤ t.length) (h : bytes "@yield(" <+: t.drop i) :
    scan t i = some (i, yieldAt t i) := by
  rw [scan_here hi (by simp [beginnings]) h,
    if_neg (not_prefix_of_other h (by decide) (by decide)),
    if_neg (not_prefix_of_other h (by decide) (by decide)),
    if_neg (not_prefix_of_other h (by decide) (by decide)),
    if_neg (not_prefix_of_other h (by decide) (by decide)),
    if_neg (not_prefix_of_other h (by decide) (by decide)), if_pos h]

theorem scan_named (hi : i ≤ t.length) (h : bytes "@section(" <+: t.drop i) :
    scan t i = some (i, namedAt t i) := by
  rw [scan_here hi (by simp [beginnings]) h,
    if_neg (not_prefix_of_other h (by decide) (by decide)),
    if_neg (not_prefix_of_other h (by decide) (by decide)),
    if_neg (not_prefix_of_other h (by decide) (by decide)),
    if_neg (not_prefix_of_other h (by decide) (by decide)),
    if_neg (not_prefix_of_other h (by decide) (by decide)),
    if_neg (not_prefix_of_other h (by decide) (by decide))]

/-- A name with a blank on either side. -/
def spaced (v : Identifier) : Bytes := bytes " " ++ (v.text ++ bytes " ")

theorem trim_spaced (v : Identifier) : trim (spaced v) = v.text :=
  v.trim_eq (List.all_eq_true.mp (by decide)) (List.all_eq_true.mp (by decide))

theorem not_mem_spaced (v : Identifier) {x : UInt8} (hx : isWordByte x = false) (hblank : x ≠ 32) :
    x ∉ spaced v := by
  have hspace : x ∉ bytes " " := by
    intro hmem
    exact hblank (List.mem_singleton.mp hmem)
  rw [spaced, List.mem_append, List.mem_append]
  exact not_or.mpr ⟨hspace, not_or.mpr ⟨v.not_mem hx, hspace⟩⟩

/-- What the scan finds at a printed directive, where it begins with the directive's text. -/
theorem scan_print {directiveAt : Bytes → Nat → Directive × Nat} {directive : Directive}
    (hscan : scan t i = some (i, directiveAt t i))
    (h : ∃ j, directiveAt t i = (directive, j) ∧ At t j rest) :
    ∃ j, scan t i = some (i, directive, j) ∧ At t j rest := by
  obtain ⟨j, hdirective, hj⟩ := h
  exact ⟨j, by rw [hscan, hdirective], hj⟩

/-- An interpolation. -/
theorem escapedAt_print (v : Identifier)
    (h : At t i (bytes "\x7b\x7b " ++ (v.text ++ (bytes " \x7d\x7d" ++ rest)))) :
    ∃ j, escapedAt t i = (.escaped v.text, j) ∧ At t j rest := by
  have hopen : At t i (bytes "\x7b\x7b" ++ (spaced v ++ (bytes "\x7d\x7d" ++ rest))) := by
    simpa [spaced, bytes] using h
  have hkey : At t (i + 2) (spaced v ++ (bytes "\x7d\x7d" ++ rest)) := hopen.skip
  have hfind : find t (bytes "\x7d\x7d") i = some (i + 2 + (spaced v).length) := by
    rw [← List.append_assoc] at hopen
    have hend := hopen.find (c := 125) (q := [125])
      (by rw [List.mem_append, not_or]
          exact ⟨by decide, not_mem_spaced v (by decide) (by decide)⟩) (List.prefix_append _ _)
    rw [List.length_append, ← Nat.add_assoc] at hend
    exact hend
  refine ⟨i + 2 + (spaced v).length + 2, ?_, hkey.skip.skip⟩
  rw [escapedAt, hfind, hkey.slice, trim_spaced]
  rfl

/-- A raw interpolation. -/
theorem rawAt_print (v : Identifier)
    (h : At t i (bytes "\x7b!! " ++ (v.text ++ (bytes " !!\x7d" ++ rest)))) :
    ∃ j, rawAt t i = (.raw v.text, j) ∧ At t j rest := by
  have hopen : At t i (bytes "\x7b!!" ++ (spaced v ++ (bytes "!!\x7d" ++ rest))) := by
    simpa [spaced, bytes] using h
  have hkey : At t (i + 3) (spaced v ++ (bytes "!!\x7d" ++ rest)) := hopen.skip
  have hfind : find t (bytes "!!\x7d") i = some (i + 3 + (spaced v).length) := by
    have hfirst : At t i (bytes "\x7b" ++ (bytes "!! " ++
        (v.text ++ (bytes " !!\x7d" ++ rest)))) := h
    have hsecond : At t (i + 1) (bytes "!" ++ (bytes "! " ++
        (v.text ++ (bytes " !!\x7d" ++ rest)))) := hfirst.skip
    have hthird : At t (i + 2) (bytes "! " ++ (v.text ++ (bytes " !!\x7d" ++ rest))) :=
      hsecond.skip
    have hlen := hkey.le
    have hopening : ¬ bytes "!!\x7d" <+: t.drop i :=
      not_prefix_of_other ⟨_, hfirst.drop_eq.symm⟩ (by decide) (by decide)
    have hmarks : ¬ bytes "!!\x7d" <+: t.drop (i + 1) :=
      not_prefix_of_other (q := bytes "!! ") ⟨_, hsecond.drop_eq.symm⟩ (by decide)
        (by decide)
    have hmark : ¬ bytes "!!\x7d" <+: t.drop (i + 2) :=
      not_prefix_of_other ⟨_, hthird.drop_eq.symm⟩ (by decide) (by decide)
    -- The end is not where the exclamation marks of the beginning are.
    rw [find_succ (by omega) hopening, find_succ (by omega) hmarks, find_succ (by omega) hmark]
    exact hkey.find (c := 33) (q := [33, 125]) (not_mem_spaced v (by decide) (by decide))
      (List.prefix_append _ _)
  refine ⟨i + 3 + (spaced v).length + 3, ?_, hkey.skip.skip⟩
  rw [rawAt, hfind, hkey.slice, trim_spaced]
  rfl

/-- The name in the head of a conditional, and where its body begins. -/
theorem condHead (v : Identifier) (h : At t i (bytes "@if(" ++ (v.text ++ (bytes ")" ++ rest)))) :
    find t (bytes ")") i = some (i + 4 + v.text.length) ∧
      trim (slice t (i + 4) (some (i + 4 + v.text.length))) = v.text ∧
      At t (i + 4 + v.text.length + 1) rest := by
  have hkey : At t (i + 4) (v.text ++ (bytes ")" ++ rest)) := h.skip
  refine ⟨?_, ?_, hkey.skip.skip⟩
  · rw [← List.append_assoc] at h
    have hend := h.find (c := 41) (q := [])
      (by rw [List.mem_append, not_or]
          exact ⟨by decide, v.not_mem (by decide)⟩) (List.prefix_append _ _)
    rw [List.length_append, ← Nat.add_assoc] at hend
    exact hend
  · have htrim := v.trim_eq (a := []) (b := []) (by simp) (by simp)
    rw [List.nil_append, List.append_nil] at htrim
    rw [hkey.slice, htrim]

/-- The end of a block is behind what the walk passes. -/
theorem matchingEnd_closed {kind : BlockKind} {x : Bytes} (hx : Closed kind x)
    (h : At t i (x ++ (kind.closing ++ rest))) :
    matchingEnd t kind i 1 = some (i + x.length) := by
  rw [matchingEnd_eq h.le, h.drop_eq, hx _ 1 (le_refl 1), closeAt_closing, if_pos rfl]
  simp

/-- A conditional without an `@else`. -/
theorem condAt_print (v : Identifier) {a : Bytes} (ha : Nested a)
    (h : At t i (bytes "@if(" ++ (v.text ++ (bytes ")" ++ (a ++ (bytes "@endif" ++ rest)))))) :
    ∃ j, condAt t i = (.cond v.text a [], j) ∧ At t j rest := by
  obtain ⟨hfind, hkey, hbody⟩ := condHead v h
  have hstop : matchingEnd t .cond _ 1 = some _ := matchingEnd_closed ha.closed hbody
  have helse : findElse t (some (i + 4 + v.text.length + 1 + a.length))
      (i + 4 + v.text.length + 1) 0 = none := by
    rw [findElse_eq hbody.le, hbody.drop_eq, ha.passed _ _ 0 (le_refl 0)]
    rw [Nat.add_sub_cancel_left, Nat.sub_self, elseAt_zero]
    rfl
  refine ⟨i + 4 + v.text.length + 1 + a.length + 6, ?_, hbody.skip.skip⟩
  rw [condAt]
  simp only [hfind, plus, Option.elim_some, hstop, helse]
  rw [hkey, if_true, hbody.slice]
  rfl

/-- A conditional with an `@else`. -/
theorem condElseAt_print (v : Identifier) {a b : Bytes} (ha : Nested a) (hb : Nested b)
    (h : At t i (bytes "@if(" ++ (v.text ++ (bytes ")" ++ (a ++ (bytes "@else" ++
      (b ++ (bytes "@endif" ++ rest)))))))) :
    ∃ j, condAt t i = (.cond v.text a b, j) ∧ At t j rest := by
  obtain ⟨hfind, hkey, hbody⟩ := condHead v h
  have hinner : At t (i + 4 + v.text.length + 1)
      ((a ++ (bytes "@else" ++ b)) ++ (bytes "@endif" ++ rest)) := by
    simpa using hbody
  -- Both branches and the `@else` between them are one closed text in front of `@endif`.
  have hlen : (a ++ (bytes "@else" ++ b)).length =
      a.length + (5 + b.length) := by
    rw [List.length_append, List.length_append]
    rfl
  have hstop : matchingEnd t .cond _ 1 = some _ :=
    matchingEnd_closed (ha.closed.append (closed_else.append hb.closed)) hinner
  rw [hlen] at hstop
  -- The first branch is passed, and the `@else` behind it stands at depth zero.
  have helse : findElse t
      (some (i + 4 + v.text.length + 1 + (a.length + (5 + b.length))))
      (i + 4 + v.text.length + 1) 0 = some (i + 4 + v.text.length + 1 + a.length) := by
    have hlimit : 5 + b.length = (4 + b.length) + 1 := by omega
    rw [findElse_eq hbody.le, hbody.drop_eq, ha.passed _ _ 0 (le_refl 0),
      Nat.add_sub_cancel_left, Nat.add_sub_cancel_left, hlimit, elseAt_else, if_pos rfl]
    simp
  have hrest : At t (i + 4 + v.text.length + 1 + a.length + 5)
      (b ++ (bytes "@endif" ++ rest)) := hbody.skip.skip
  have hend : i + 4 + v.text.length + 1 + (a.length + (5 + b.length)) =
      i + 4 + v.text.length + 1 + a.length + 5 + b.length := by omega
  rw [hend] at hstop helse
  refine ⟨i + 4 + v.text.length + 1 + a.length + 5 + b.length + 6, ?_,
    hrest.skip.skip⟩
  rw [condAt]
  simp only [hfind, plus, Option.elim_some, hstop, helse]
  rw [hkey, if_neg (by simp), hbody.slice, hrest.slice]

/-- The name of the list in the head of a loop. -/
theorem trim_loopSpec (l x : Identifier) :
    trim (slice (trim (l.text ++ (bytes " as " ++ x.text))) 0
      (find (trim (l.text ++ (bytes " as " ++ x.text))) (bytes " as ") 0)) = l.text := by
  have hspec : trim (l.text ++ (bytes " as " ++ x.text)) = l.text ++ (bytes " as " ++ x.text) := by
    have htrim := trim_eq (a := []) (b := []) (w := l.text ++ (bytes " as " ++ x.text))
      (by simp) (by simp) ?_ ?_ (by simp [l.ne_nil])
    · simpa using htrim
    · intro c hc
      rw [List.head?_append_of_ne_nil _ l.ne_nil] at hc
      exact isBlank_of_isWordByte (l.isWord c (List.mem_of_mem_head? hc))
    · intro c hc
      rw [List.getLast?_append_of_ne_nil _ (by simp [x.ne_nil]),
        List.getLast?_append_of_ne_nil _ x.ne_nil] at hc
      exact isBlank_of_isWordByte (x.isWord c (List.mem_of_mem_getLast? hc))
  have hat : At (l.text ++ (bytes " as " ++ x.text)) 0 (l.text ++ (bytes " as " ++ x.text)) :=
    ⟨Nat.zero_le _, rfl⟩
  have hfind := hat.find (c := 32) (q := bytes "as ") (l.not_mem (by decide))
    (List.prefix_append (bytes " as ") x.text)
  have htrim := l.trim_eq (a := []) (b := []) (by simp) (by simp)
  rw [List.nil_append, List.append_nil] at htrim
  have hfind' : find (l.text ++ (bytes " as " ++ x.text)) (bytes " as ") 0 =
      some (0 + l.text.length) := hfind
  rw [hspec, hfind', hat.slice, htrim]

/-- A loop. -/
theorem loopAt_print (l x : Identifier) {a : Bytes} (ha : Nested a)
    (h : At t i (bytes "@foreach(" ++ (l.text ++ (bytes " as " ++ (x.text ++ (bytes ")" ++
      (a ++ (bytes "@endforeach" ++ rest)))))))) :
    ∃ j, loopAt t i = (.loop l.text a, j) ∧ At t j rest := by
  have hhead : At t i (bytes "@foreach(" ++ ((l.text ++ (bytes " as " ++ x.text)) ++ (bytes ")" ++
      (a ++ (bytes "@endforeach" ++ rest))))) := by
    simpa using h
  have hspec : At t (i + 9) ((l.text ++ (bytes " as " ++ x.text)) ++ (bytes ")" ++
      (a ++ (bytes "@endforeach" ++ rest)))) := hhead.skip
  have hbody : At t (i + 9 + (l.text ++ (bytes " as " ++ x.text)).length + 1)
      (a ++ (bytes "@endforeach" ++ rest)) := hspec.skip.skip
  have hfind : find t (bytes ")") i =
      some (i + 9 + (l.text ++ (bytes " as " ++ x.text)).length) := by
    rw [← List.append_assoc] at hhead
    have hend := hhead.find (c := 41) (q := [])
      (by simp only [List.mem_append, not_or]
          exact ⟨by decide, l.not_mem (by decide), by decide, x.not_mem (by decide)⟩)
      (List.prefix_append _ _)
    rw [List.length_append, ← Nat.add_assoc] at hend
    exact hend
  have hlist := trim_loopSpec l x
  have hstop : matchingEnd t .loop _ 1 = some _ := matchingEnd_closed ha.closed hbody
  refine ⟨i + 9 + (l.text ++ (bytes " as " ++ x.text)).length + 1 + a.length + 11, ?_,
    hbody.skip.skip⟩
  rw [loopAt]
  simp only [hfind, plus, Option.elim_some, hstop, hspec.slice, hlist, hbody.slice]

end

/-! ### Rendering -/

/-- The scope of an item's context is the item's scope. -/
theorem Scope.of_merged (ctx item : View) :
    Scope.of (ctx.merged item) = (Scope.of ctx).enter item := by
  have hvar : (ctx.merged item).var = fun key => (item.vars.lookup key).getD (ctx.var key) := by
    funext key
    rw [View.var, View.merged]
    by_cases hmem : key ∈ item.vars
    · rw [Finmap.lookup_union_left hmem]
      obtain ⟨v, hv⟩ := Finmap.mem_iff.mp hmem
      rw [hv]
      rfl
    · rw [Finmap.lookup_union_right hmem, Finmap.lookup_eq_none.mpr hmem]
      rfl
  rw [Scope.of, hvar]
  rfl

theorem renderItems_eq {render : View → Option Bytes} {f : View → Bytes} {items : List View}
    (h : ∀ item ∈ items, render item = some (f item)) :
    renderItems render items = some (items.flatMap f) := by
  induction items with
  | nil => rfl
  | cons item items ih =>
    rw [renderItems, h item List.mem_cons_self,
      ih fun item hitem => h item (List.mem_cons_of_mem _ hitem)]
    rfl

/-- A round of the loop, over a text without directives and a directive. -/
theorem renderLoop_round {P : Directive → Option Bytes} {t x u r : Bytes} {i j : Nat}
    {directive : Directive} (h : At t i (x ++ u)) (hat : atSign ∉ x) (hbrace : 123 ∉ x)
    (hscan : scan t (i + x.length) = some (i + x.length, directive, j))
    (hdirective : P directive = some r) (fuel : Nat) (out : Bytes) (hu : u ≠ []) :
    renderLoop P t (fuel + 1) i out = renderLoop P t fuel j (out ++ x ++ r) := by
  have hlt : i < t.length := by
    have hlen := congrArg List.length h.drop_eq
    have hpos := List.length_pos_iff.mpr hu
    rw [List.length_drop, List.length_append] at hlen
    omega
  rw [renderLoop, if_pos hlt, scan_literal h hat hbrace, hscan]
  simp only [hdirective, Option.bind_some, h.slice]

theorem scan_nil {t : Bytes} {i : Nat} (hi : t.length ≤ i) : scan t i = none := by
  rw [scan, Option.map_eq_none_iff, earliest_eq_none_iff]
  intro q hq
  have hnone : ∀ p ∈ beginnings, find t p i = none := by
    have hne : ∀ p ∈ beginnings, p ≠ [] := by decide
    exact fun p hp => find_eq_none_of_length_le (hne p hp) hi
  obtain ⟨p, hp, hpq⟩ : ∃ p ∈ beginnings, find t p i = some q := List.mem_map.mp hq
  rw [hnone p hp] at hpq
  cases hpq

/-- The last round, over a text without directives. -/
theorem renderLoop_last {P : Directive → Option Bytes} {t x : Bytes} {i : Nat} (h : At t i x)
    (hat : atSign ∉ x) (hbrace : 123 ∉ x) (fuel : Nat) (out : Bytes) :
    renderLoop P t (fuel + 1) i out = some (out ++ x) := by
  have hlen := congrArg List.length h.drop_eq
  have hle := h.le
  rw [List.length_drop] at hlen
  have hscan : scan t i = none := by
    have hx : At t i (x ++ []) := by simpa using h
    rw [scan_literal hx hat hbrace]
    exact scan_nil (by omega)
  rw [renderLoop]
  split
  · rw [hscan, h.drop_eq]
  · have hnil : x = [] := List.length_eq_zero_iff.mp (by omega)
    rw [hnil, List.append_nil]

/-- In `n` rounds the loop reads a text that stands behind one without directives, and appends
`r` for it. -/
def Follows (P : Directive → Option Bytes) (t u : Bytes) (n : Nat) (r : Bytes) : Prop :=
  ∀ (x : Bytes) (i fuel : Nat) (out : Bytes), atSign ∉ x → 123 ∉ x → At t i (x ++ u) →
    n ≤ fuel → renderLoop P t fuel i out = some (out ++ x ++ r)

/-- The loop renders what a template says, from any position where it stands behind a text
without directives. -/
def LoopRenders (P : Directive → Option Bytes) (t : Bytes) (scope : Scope) (b : Template) : Prop :=
  ∀ (x : Bytes) (i fuel : Nat) (out : Bytes), atSign ∉ x → 123 ∉ x → At t i (x ++ b.print) →
    b.size ≤ fuel → renderLoop P t fuel i out = some (out ++ x ++ b.eval scope)

section
variable {P : Directive → Option Bytes} {t u r : Bytes} {n : Nat}

theorem Follows.mono {n' : Nat} (h : Follows P t u n r) (hn : n ≤ n') : Follows P t u n' r :=
  fun x i fuel out hat hbrace hx hfuel => h x i fuel out hat hbrace hx (hn.trans hfuel)

theorem follows_nil : Follows P t [] 1 [] := by
  intro x i fuel out hat hbrace h hfuel
  obtain ⟨fuel, rfl⟩ : ∃ f, fuel = f + 1 := ⟨fuel - 1, by omega⟩
  rw [List.append_nil] at h
  rw [renderLoop_last h hat hbrace, List.append_nil]

theorem follows_text (s : Literal) (h : Follows P t u n r) :
    Follows P t (s.text ++ u) n (s.text ++ r) := by
  intro x i fuel out hat hbrace hx hfuel
  rw [← List.append_assoc] at hx
  rw [h (x ++ s.text) i fuel out (by simp [hat, s.no_at]) (by simp [hbrace, s.no_brace]) hx hfuel]
  simp

/-- A text that begins with a directive. -/
theorem follows_directive {w r' : Bytes} (directive : Directive) (h : Follows P t u n r')
    (hscan : ∀ i, At t i w → ∃ j, scan t i = some (i, directive, j) ∧ At t j u)
    (hP : P directive = some r) (hne : w ≠ []) : Follows P t w (n + 1) (r ++ r') := by
  intro x i fuel out hat hbrace hx hfuel
  obtain ⟨fuel, rfl⟩ : ∃ f, fuel = f + 1 := ⟨fuel - 1, by omega⟩
  obtain ⟨j, hj, hat'⟩ := hscan _ hx.skip
  rw [renderLoop_round hx hat hbrace hj hP fuel out hne,
    h [] j fuel _ (by simp) (by simp) hat' (by omega)]
  simp

/-- What the loop reads of a whole text without `@extends` is what the text renders to. -/
theorem renderImpl_of_follows {partials : Bytes → Bytes} {sections : Option StringMap}
    {ctx : View} {fuel : Nat} (hu : Nested u) (hn : n ≤ fuel)
    (h : Follows (perform (fun t v => renderImpl fuel t v partials sections) partials sections ctx)
      u u n r) : renderImpl (fuel + 1) u ctx partials sections = some r := by
  have hextends : find u (bytes "@extends(") 0 = none := by
    have hseek := hu.skipped_extends []
    have hnil : seek (bytes "@extends(") [] = none := rfl
    rw [List.append_nil, hnil, seek, Option.map_eq_none_iff] at hseek
    rw [find_zero, hseek]
  have hat : At u 0 ([] ++ u) := ⟨Nat.zero_le _, rfl⟩
  rw [renderImpl, hextends]
  exact h [] 0 fuel [] (by simp) (by simp) hat hn

end

section
variable {P : Directive → Option Bytes} {t : Bytes} {scope : Scope}

/-- A template that begins with a directive. -/
theorem loopRenders_directive {b rest : Template} {r : Bytes} (directive : Directive)
    (hrest : LoopRenders P t scope rest)
    (hscan : ∀ i, At t i b.print → ∃ j, scan t i = some (i, directive, j) ∧ At t j rest.print)
    (hP : P directive = some r) (heval : b.eval scope = r ++ rest.eval scope)
    (hsize : rest.size < b.size) (hne : b.print ≠ []) : LoopRenders P t scope b := by
  have hfollows : Follows P t rest.print rest.size (rest.eval scope) := hrest
  show Follows P t b.print b.size (b.eval scope)
  rw [heval]
  exact (follows_directive directive hfollows hscan hP hne).mono hsize

end

theorem Template.size_pos (b : Template) : 0 < b.size := by
  cases b <;> exact Nat.succ_pos _

/-- The recursive calls render the templates below a size. -/
def RendersBelow (R : Bytes → View → Option Bytes) (n : Nat) : Prop :=
  ∀ (b : Template) (ctx : View), b.size < n → R b.print ctx = some (b.eval (Scope.of ctx))

/-- **The loop renders a template** if the recursive calls render the smaller ones. -/
theorem loopRenders_print {R : Bytes → View → Option Bytes} {partials : Bytes → Bytes}
    {sections : Option StringMap} {n : Nat} (hR : RendersBelow R n) (t : Bytes) (ctx : View)
    (b : Template) (hn : b.size ≤ n) :
    LoopRenders (perform R partials sections ctx) t (Scope.of ctx) b := by
  induction b with
  | done => exact follows_nil
  | text s rest ih =>
    rw [Template.size] at hn
    have hrest : Follows _ t rest.print rest.size (rest.eval (Scope.of ctx)) := ih (by omega)
    exact (follows_text s hrest).mono (Nat.le_succ _)
  | escaped v rest ih =>
    rw [Template.size] at hn
    refine loopRenders_directive (.escaped v.text) (ih (by omega)) ?_ rfl rfl
      (Nat.lt_succ_self _) (by simp [Template.print, bytes])
    intro i h
    exact scan_print (scan_escaped h.le ⟨_, h.drop_eq.symm⟩) (escapedAt_print v h)
  | raw v rest ih =>
    rw [Template.size] at hn
    refine loopRenders_directive (.raw v.text) (ih (by omega)) ?_ rfl rfl
      (Nat.lt_succ_self _) (by simp [Template.print, bytes])
    intro i h
    exact scan_print (scan_raw h.le ⟨_, h.drop_eq.symm⟩) (rawAt_print v h)
  -- The branch that is taken is smaller than the template, so the recursive call renders it.
  | cond v a rest iha ih =>
    rw [Template.size] at hn
    have hpos := rest.size_pos
    have hperform : perform R partials sections ctx (.cond v.text a.print []) =
        some (if truthy (ctx.var v.text) then a.eval (Scope.of ctx) else []) := by
      rw [perform]
      split
      · exact hR a ctx (by omega)
      · exact hR .done ctx (by rw [Template.size]; have := a.size_pos; omega)
    refine loopRenders_directive _ (ih (by omega)) ?_ hperform rfl (by rw [Template.size]; omega)
      (by simp [Template.print, bytes])
    intro i h
    exact scan_print (scan_cond h.le ⟨_, h.drop_eq.symm⟩) (condAt_print v a.nested_print h)
  | condElse v a b rest iha ihb ih =>
    rw [Template.size] at hn
    have hperform : perform R partials sections ctx (.cond v.text a.print b.print) =
        some (if truthy (ctx.var v.text) then a.eval (Scope.of ctx)
          else b.eval (Scope.of ctx)) := by
      rw [perform]
      split
      · exact hR a ctx (by omega)
      · exact hR b ctx (by omega)
    refine loopRenders_directive _ (ih (by omega)) ?_ hperform rfl (by rw [Template.size]; omega)
      (by simp [Template.print, bytes])
    intro i h
    exact scan_print (scan_cond h.le ⟨_, h.drop_eq.symm⟩)
      (condElseAt_print v a.nested_print b.nested_print h)
  -- The body is rendered once for each item, in the scope that the item opens.
  | loop l x a rest iha ih =>
    rw [Template.size] at hn
    have hpos := rest.size_pos
    have hperform : perform R partials sections ctx (.loop l.text a.print) =
        some ((ctx.items l.text).flatMap fun item => a.eval ((Scope.of ctx).enter item)) := by
      refine renderItems_eq fun item _ => ?_
      rw [← Scope.of_merged]
      exact hR a (ctx.merged item) (by omega)
    refine loopRenders_directive _ (ih (by omega)) ?_ hperform rfl (by rw [Template.size]; omega)
      (by simp [Template.print, bytes])
    intro i h
    exact scan_print (scan_loop h.le ⟨_, h.drop_eq.symm⟩) (loopAt_print l x a.nested_print h)

/-- **A template is rendered to what it says**, at every depth of recursion above its size. -/
theorem renderImpl_print (b : Template) (ctx : View) (partials : Bytes → Bytes)
    (sections : Option StringMap) {fuel : Nat} (hfuel : b.size < fuel) :
    renderImpl fuel b.print ctx partials sections = some (b.eval (Scope.of ctx)) := by
  induction fuel generalizing b ctx with
  | zero => omega
  | succ fuel ih =>
    exact renderImpl_of_follows b.nested_print (Nat.le_of_lt_succ hfuel)
      (loopRenders_print (fun b' ctx' hb => ih b' ctx' hb) b.print ctx b (by omega))

/-- **`render` of a printed template is its direct evaluation.** -/
theorem render_print (b : Template) (ctx : View) (k : Nat) :
    render (b.size + 1 + k) b.print ctx = some (b.eval (Scope.of ctx)) :=
  renderImpl_print b ctx _ none (by omega)

end CppLaravel.Blade
