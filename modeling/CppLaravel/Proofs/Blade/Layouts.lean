import CppLaravel.Blade.Layout
import CppLaravel.Proofs.Blade.Meaning
import CppLaravel.Proofs.Blade.TwoRuns
import Mathlib.Order.Filter.AtTopBot.Basic
import Mathlib.Order.Filter.Finite

/-!
# `CppLaravel.Proofs.Blade.Layouts`: rendering a layout

* `unquote_text`, `quotedHead`: the name in the head of a directive.
* `Layout.nested_print`: the blocks of a layout are nested.
* `shows_print`: the engine renders what a layout says, where the sections that are passed to it
  stand for what is yielded.
-/

set_option autoImplicit false

namespace CppLaravel.Blade

open CppLaravel.Lib
open CppLaravel.Http
open Filter

/-! ### Names in quotes -/

theorem Quoted.isBlank_mark (q : Quoted) : isBlank q.mark = false := by
  rw [Quoted.mark]
  split <;> decide

theorem Quoted.mark_ne (q : Quoted) : q.mark ≠ atSign ∧ q.mark ≠ 41 := by
  rw [Quoted.mark]
  split <;> decide

theorem Quoted.not_mem_text (q : Quoted) {x : UInt8} (hmark : x ≠ q.mark) (hname : x ∉ q.name) :
    x ∉ q.text := by
  rw [Quoted.text, List.mem_cons, List.mem_append, List.mem_singleton]
  exact not_or.mpr ⟨hmark, not_or.mpr ⟨hname, hmark⟩⟩

theorem Quoted.no_at_text (q : Quoted) : atSign ∉ q.text :=
  q.not_mem_text q.mark_ne.1.symm q.no_at

/-- The quotes are stripped. -/
theorem unquote_text (q : Quoted) : unquote q.text = q.name := by
  have hlast : q.text.getLast? = some q.mark := by
    rw [Quoted.text, ← List.cons_append, List.getLast?_append]
    rfl
  have htrim : trim q.text = q.text := by
    have h := trim_eq (a := []) (b := []) (w := q.text) (by simp) (by simp) ?_ ?_
      (by simp [Quoted.text])
    · simpa using h
    · intro c hc
      obtain rfl : q.mark = c := Option.some.inj hc
      exact q.isBlank_mark
    · intro c hc
      obtain rfl := Option.some.inj (hlast.symm.trans hc)
      exact q.isBlank_mark
  have hmark : q.mark = 34 ∨ q.mark = 39 := by
    rw [Quoted.mark]
    split
    · exact .inl rfl
    · exact .inr rfl
  have hlen : q.text.length = q.name.length + 2 := by simp [Quoted.text]
  have hquoted : 2 ≤ q.text.length ∧ (q.text.head? = some 34 ∨ q.text.head? = some 39) ∧
      q.text.getLast? = q.text.head? :=
    ⟨by omega, hmark.imp (congrArg some) (congrArg some), hlast⟩
  rw [unquote, htrim, if_pos hquoted, hlen, Nat.add_sub_cancel]
  show ((q.name ++ [q.mark]).take q.name.length) = q.name
  exact List.take_left

section
variable {t rest : Bytes} {i : Nat}

/-- The name in the head of a directive, and where the head ends. -/
theorem quotedHead {p : Bytes} (hp : 41 ∉ p) (q : Quoted)
    (h : At t i (p ++ (q.text ++ (bytes ")" ++ rest)))) :
    find t (bytes ")") i = some (i + p.length + q.text.length) ∧
      unquote (slice t (i + p.length) (some (i + p.length + q.text.length))) = q.name ∧
      At t (i + p.length + q.text.length + 1) rest := by
  have hname : At t (i + p.length) (q.text ++ (bytes ")" ++ rest)) := h.skip
  refine ⟨?_, ?_, hname.skip.skip⟩
  · rw [← List.append_assoc] at h
    have hend := h.find (c := 41) (q := [])
      (by rw [List.mem_append, not_or]
          exact ⟨hp, q.not_mem_text q.mark_ne.2.symm q.no_paren⟩) (List.prefix_append _ _)
    rw [List.length_append, ← Nat.add_assoc] at hend
    exact hend
  · rw [hname.slice, unquote_text]

/-- An included template. -/
theorem includeAt_print (q : Quoted)
    (h : At t i (bytes "@include(" ++ (q.text ++ (bytes ")" ++ rest)))) :
    ∃ j, includeAt t i = (.included q.name, j) ∧ At t j rest := by
  obtain ⟨hfind, hname, hrest⟩ := quotedHead (by decide) q h
  refine ⟨_, ?_, hrest⟩
  rw [includeAt, hfind]
  exact Prod.ext (congrArg Directive.included hname) rfl

/-- A yield. -/
theorem yieldAt_print (q : Quoted)
    (h : At t i (bytes "@yield(" ++ (q.text ++ (bytes ")" ++ rest)))) :
    ∃ j, yieldAt t i = (.yield q.name, j) ∧ At t j rest := by
  obtain ⟨hfind, hname, hrest⟩ := quotedHead (by decide) q h
  refine ⟨_, ?_, hrest⟩
  rw [yieldAt, hfind]
  exact Prod.ext (congrArg Directive.yield hname) rfl

/-- A section. -/
theorem namedAt_print (q : Quoted) {a : Bytes} (ha : Nested a)
    (h : At t i (bytes "@section(" ++ (q.text ++ (bytes ")" ++ (a ++
      (bytes "@endsection" ++ rest)))))) :
    ∃ j, namedAt t i = (.named a, j) ∧ At t j rest := by
  obtain ⟨hfind, -, hbody⟩ := quotedHead (by decide) q h
  have hstop : matchingEnd t .named _ 1 = some _ := matchingEnd_closed ha.closed hbody
  refine ⟨_, ?_, hbody.skip.skip⟩
  rw [namedAt]
  simp only [hfind, plus, Option.elim_some, hstop, hbody.slice]
  rfl

end

/-! ### Blocks -/

theorem no_at_quotedHead (q : Quoted) : atSign ∉ q.text ++ bytes ")" := by
  rw [List.mem_append, not_or]
  exact ⟨q.no_at_text, by decide⟩

/-- A section with its head. -/
theorem nested_named (q : Quoted) {x : Bytes} (hx : Nested x) :
    Nested (bytes "@section(" ++ (q.text ++ (bytes ")" ++ (x ++ bytes "@endsection")))) := by
  simpa [BlockKind.opening, BlockKind.closing] using
    Nested.block .named ((Nested.plain (no_at_quotedHead q)).append hx)

/-- The blocks of a layout are nested. -/
theorem Layout.nested_print (b : Layout) : Nested b.print := by
  induction b with
  | done => exact .plain (by simp [print])
  | text s rest ih => exact (Nested.plain s.no_at).append ih
  | escaped v rest ih => simpa [print] using (nested_escaped v).append ih
  | raw v rest ih => simpa [print] using (nested_raw v).append ih
  | cond v a rest iha ih => simpa [print] using (nested_cond v iha).append ih
  | condElse v a b rest iha ihb ih => simpa [print] using (nested_condElse v iha ihb).append ih
  | loop l i a rest iha ih => simpa [print] using (nested_loop l i iha).append ih
  | included q rest ih => simpa [print] using (Nested.included (no_at_quotedHead q)).append ih
  | yield q rest ih => simpa [print] using (Nested.yield (no_at_quotedHead q)).append ih
  | named q a rest iha ih => simpa [print] using (nested_named q iha).append ih

/-! ### Rendering -/

section
variable (partials : Bytes → Bytes) (sections : Option StringMap)

/-- A text is rendered to an output, with every bound that is large enough. -/
def Shows (t : Bytes) (ctx : View) (r : Bytes) : Prop :=
  ∀ᶠ fuel in atTop, renderImpl fuel t ctx partials sections = some r

/-- The directives of a text, with a bound on what they render. -/
def performs (fuel : Nat) (ctx : View) : Directive → Option Bytes :=
  perform (fun t v => renderImpl fuel t v partials sections) partials sections ctx

/-- A text is read to an output in any text, with every bound that is large enough. -/
def Reads (u : Bytes) (ctx : View) (r : Bytes) : Prop :=
  ∃ n, ∀ᶠ fuel in atTop, ∀ t, Follows (performs partials sections fuel ctx) t u n r

variable {partials sections} {ctx : View} {u r r' : Bytes}

/-- What is read of a whole text, the text shows. -/
theorem Reads.shows (hu : Nested u) (h : Reads partials sections u ctx r) :
    Shows partials sections u ctx r := by
  obtain ⟨n, h⟩ := h
  obtain ⟨m, hm⟩ := eventually_atTop.mp h
  refine eventually_atTop.mpr ⟨max n m + 1, fun fuel hfuel => ?_⟩
  obtain ⟨fuel, rfl⟩ : ∃ f, fuel = f + 1 := ⟨fuel - 1, by omega⟩
  exact renderImpl_of_follows hu (by omega) (hm fuel (by omega) u)

/-- A directive before a text that is read. -/
theorem Reads.directive {w : Bytes} (directive : Directive)
    (hP : ∀ᶠ fuel in atTop, performs partials sections fuel ctx directive = some r)
    (h : Reads partials sections u ctx r')
    (hscan : ∀ t i, At t i w → ∃ j, scan t i = some (i, directive, j) ∧ At t j u) (hne : w ≠ []) :
    Reads partials sections w ctx (r ++ r') := by
  obtain ⟨n, h⟩ := h
  refine ⟨n + 1, ?_⟩
  filter_upwards [h, hP] with fuel hfuel hdirective t
  exact follows_directive directive (hfuel t) (hscan t) hdirective hne

end

/-- **The engine reads what a layout says.** -/
theorem reads_print {partials : Bytes → Bytes} {sections : Option StringMap}
    {known : Bytes → Option Layout}
    (hknown : ∀ name layout, known name = some layout → partials name = layout.print)
    {b : Layout} {scope : Scope} {r : Bytes} (h : b.Says known (yielded sections) scope r) :
    ∀ ctx, scope = Scope.of ctx → Reads partials sections b.print ctx r := by
  induction h with
  | done => exact fun ctx _ => ⟨1, .of_forall fun _ _ => follows_nil⟩
  | text _ ih =>
    intro ctx hctx
    obtain ⟨n, h⟩ := ih ctx hctx
    exact ⟨n, h.mono fun fuel hfuel t => follows_text _ (hfuel t)⟩
  | @escaped v rest scope r _ ih =>
    rintro ctx rfl
    refine (ih ctx rfl).directive (.escaped v.text) (.of_forall fun _ => rfl) ?_
      (by simp [Layout.print, bytes])
    intro t i h
    exact scan_print (scan_escaped h.le ⟨_, h.drop_eq.symm⟩) (escapedAt_print v h)
  | @raw v rest scope r _ ih =>
    rintro ctx rfl
    refine (ih ctx rfl).directive (.raw v.text) (.of_forall fun _ => rfl) ?_
      (by simp [Layout.print, bytes])
    intro t i h
    exact scan_print (scan_raw h.le ⟨_, h.drop_eq.symm⟩) (rawAt_print v h)
  | @cond v a rest scope r r' _ _ iha ih =>
    rintro ctx rfl
    have hshows := (iha ctx rfl).shows (Layout.nested_print _)
    rw [apply_ite Layout.print] at hshows
    refine (ih ctx rfl).directive (.cond v.text a.print []) hshows ?_
      (by simp [Layout.print, bytes])
    intro t i h
    exact scan_print (scan_cond h.le ⟨_, h.drop_eq.symm⟩) (condAt_print v a.nested_print h)
  | @condElse v a b rest scope r r' _ _ iha ih =>
    rintro ctx rfl
    have hshows := (iha ctx rfl).shows (Layout.nested_print _)
    rw [apply_ite Layout.print] at hshows
    refine (ih ctx rfl).directive (.cond v.text a.print b.print) hshows ?_
      (by simp [Layout.print, bytes])
    intro t i h
    exact scan_print (scan_cond h.le ⟨_, h.drop_eq.symm⟩)
      (condElseAt_print v a.nested_print b.nested_print h)
  | @loop l x a rest scope r r' _ _ iha ih =>
    rintro ctx rfl
    -- The items are finitely many, so one bound does for all of them.
    have hitems : ∀ᶠ fuel in atTop, ∀ item ∈ ctx.items l.text,
        renderImpl fuel a.print (ctx.merged item) partials sections = some (r item) :=
      (eventually_all_finite (List.finite_toSet (ctx.items l.text))).mpr fun item hitem =>
        (iha item hitem (ctx.merged item) (Scope.of_merged ctx item).symm).shows a.nested_print
    refine (ih ctx rfl).directive (.loop l.text a.print)
      (hitems.mono fun fuel hfuel => renderItems_eq hfuel) ?_ (by simp [Layout.print, bytes])
    intro t i h
    exact scan_print (scan_loop h.le ⟨_, h.drop_eq.symm⟩) (loopAt_print l x a.nested_print h)
  | @included q layout rest scope r r' hlayout _ _ iha ih =>
    rintro ctx rfl
    have hshows := (iha ctx rfl).shows layout.nested_print
    rw [← hknown q.name layout hlayout] at hshows
    refine (ih ctx rfl).directive (.included q.name) hshows ?_ (by simp [Layout.print, bytes])
    intro t i h
    exact scan_print (scan_include h.le ⟨_, h.drop_eq.symm⟩) (includeAt_print q h)
  | @yield q rest scope r _ ih =>
    rintro ctx rfl
    refine (ih ctx rfl).directive (.yield q.name) (.of_forall fun _ => rfl) ?_
      (by simp [Layout.print, bytes])
    intro t i h
    exact scan_print (scan_yield h.le ⟨_, h.drop_eq.symm⟩) (yieldAt_print q h)
  | @named q a rest scope r r' _ _ iha ih =>
    rintro ctx rfl
    have hshows := (iha ctx rfl).shows a.nested_print
    refine (ih ctx rfl).directive (.named a.print) hshows ?_ (by simp [Layout.print, bytes])
    intro t i h
    exact scan_print (scan_named h.le ⟨_, h.drop_eq.symm⟩) (namedAt_print q a.nested_print h)

/-- **The engine renders what a layout says.** -/
theorem shows_print {partials : Bytes → Bytes} {sections : Option StringMap}
    {known : Bytes → Option Layout}
    (hknown : ∀ name layout, known name = some layout → partials name = layout.print)
    {b : Layout} {ctx : View} {r : Bytes}
    (h : b.Says known (yielded sections) (Scope.of ctx) r) :
    Shows partials sections b.print ctx r :=
  (reads_print hknown h ctx rfl).shows b.nested_print

end CppLaravel.Blade
