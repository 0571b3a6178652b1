import CppLaravel.Proofs.Blade.Layouts
import CppLaravel.Proofs.Blade.Termination

/-!
# `CppLaravel.Proofs.Blade.Extends`: a chain of templates that extend each other

The sections of a child are collected before its parent is rendered, and passed to it. If the
parent extends another template again, it collects its own sections and passes only these on: at
the end of a chain the layout is rendered with the sections of the last child (`chain_shows`). A
layout that yields to certain names says what it should iff these names say the same in the last
child as in the first child that defines them (`extends_iff`).
-/

set_option autoImplicit false

namespace CppLaravel.Blade

open CppLaravel.Lib
open CppLaravel.Http
open Filter

/-! ### The sections of a child -/

/-- A text in which the sections stand behind each other, among texts without any. -/
inductive Gathers : Bytes → List (Quoted × Layout) → Prop
  | nil {u : Bytes} : Skipped (bytes "@section(") u → Gathers u []
  | cons {x u : Bytes} {q : Quoted} {body : Layout} {blocks : List (Quoted × Layout)} :
      Skipped (bytes "@section(") x → Gathers u blocks →
      Gathers (x ++ (bytes "@section(" ++ (q.text ++ (bytes ")" ++ (body.print ++
        (bytes "@endsection" ++ u)))))) ((q, body) :: blocks)

namespace Gathers

variable {u v x : Bytes} {blocks blocks' : List (Quoted × Layout)}

theorem skip (hx : Skipped (bytes "@section(") x) (h : Gathers u blocks) :
    Gathers (x ++ u) blocks := by
  cases h with
  | nil hu => exact .nil (hx.append hu)
  | cons hx' h =>
    rw [← List.append_assoc]
    exact .cons (hx.append hx') h

theorem append (h : Gathers u blocks) (h' : Gathers v blocks') :
    Gathers (u ++ v) (blocks ++ blocks') := by
  induction h with
  | nil hu => exact h'.skip hu
  | cons hx _ ih => simpa using Gathers.cons hx ih

/-- The parts of a child. -/
theorem parts (parts : List Part) :
    Gathers (parts.flatMap Part.print) (parts.filterMap Part.block?) := by
  have hempty : Skipped (bytes "@section(") [] := skipped_plain rfl (by simp)
  induction parts with
  | nil => exact .nil hempty
  | cons part parts ih =>
    cases part with
    | between s no_at => exact ih.skip (skipped_plain rfl no_at)
    | block q body =>
      rw [List.filterMap_cons_some (show Part.block? (.block q body) = some (q, body) from rfl)]
      simpa [Part.print] using @Gathers.cons _ _ q body _ hempty ih

end Gathers

/-- The directive by which a child extends its parent. -/
theorem skipped_extendsHead (q : Quoted) :
    Skipped (bytes "@section(") (bytes "@extends(" ++ (q.text ++ bytes ")")) :=
  (skipped_directive (q := bytes "extends(") rfl (by decide) (by decide) (by decide)).append
    (skipped_plain rfl (no_at_quotedHead q))

/-- The sections of a child, in its text. -/
theorem Child.gathers (child : Child) : Gathers child.print child.blocks := by
  have h := (Gathers.parts child.before).append
    ((Gathers.parts child.behind).skip (skipped_extendsHead child.parent))
  rw [← List.filterMap_append] at h
  simpa [print, blocks] using h

theorem nested_parts (parts : List Part) : Nested (parts.flatMap Part.print) := by
  induction parts with
  | nil => exact .plain (by simp)
  | cons part parts ih =>
    cases part with
    | between s no_at => exact (Nested.plain no_at).append ih
    | block q body => exact (nested_named q body.nested_print).append ih

/-- A search passes what it skips. -/
theorem At.find_skipped {t p x u : Bytes} {i : Nat} (h : At t i (x ++ u)) (hx : Skipped p x)
    (hu : p <+: u) : ∃ k, Lib.find t p i = some k ∧ At t k u := by
  have hseek : seek p (t.drop i) = some u := by rw [h.drop_eq, hx, seek_of_isPrefix hu]
  obtain ⟨k, hk, hdrop, hle⟩ := find_of_seek h.le hseek
  exact ⟨k, hk, hle, hdrop⟩

theorem At.find_none {t p x : Bytes} {i : Nat} (h : At t i x) (hx : Skipped p x) (hp : p ≠ []) :
    Lib.find t p i = none := by
  have hseek := hx []
  have hnil : seek p [] = none := by
    rw [seek, firstAt, if_neg hp]
    rfl
  rw [List.append_nil, hnil, ← h.drop_eq, ← seek_of_find h.le, Option.map_eq_none_iff] at hseek
  exact hseek

/-- The `@extends` of a child. -/
theorem Child.extended_print (child : Child) : extended child.print = some child.parent.name ∧
    ∃ k, find child.print (bytes "@extends(") 0 = some k := by
  have hstart : At child.print 0 (child.before.flatMap Part.print ++ (bytes "@extends(" ++
      (child.parent.text ++ (bytes ")" ++ child.behind.flatMap Part.print)))) :=
    ⟨Nat.zero_le _, rfl⟩
  obtain ⟨k, hk, hat⟩ := hstart.find_skipped (nested_parts child.before).skipped_extends
    (List.prefix_append _ _)
  obtain ⟨hclose, hname, -⟩ := quotedHead (by decide) child.parent hat
  refine ⟨?_, k, hk⟩
  rw [extended, hk, Option.map_some, hclose]
  exact congrArg some hname

/-- The loop of `collect_sections` stores what the sections show, in order. -/
theorem collectSections_eq {render : Bytes → Option Bytes} {child u : Bytes}
    {blocks : List (Quoted × Layout)} (h : Gathers u blocks) {said : List (Bytes × Bytes)}
    (hsaid : List.Forall₂ (fun block entry => entry.1 = block.1.name ∧
      render block.2.print = some entry.2) blocks said) {p fuel : Nat} (hp : At child p u)
    (hfuel : blocks.length < fuel) (m : StringMap) :
    collectSections render child fuel p m = some (insertAll m said) := by
  induction h generalizing said p fuel m with
  | nil hu =>
    cases hsaid
    obtain ⟨fuel, rfl⟩ : ∃ f, fuel = f + 1 := ⟨fuel - 1, by omega⟩
    rw [collectSections, hp.find_none hu (by decide)]
    rfl
  | @cons x u q body blocks hx _ ih =>
    cases hsaid with
    | @cons _ entry _ said hentry hrest =>
      obtain ⟨fuel, rfl⟩ : ∃ f, fuel = f + 1 := ⟨fuel - 1, by omega⟩
      obtain ⟨k, hk, hat⟩ := hp.find_skipped hx (List.prefix_append _ _)
      obtain ⟨hclose, hname, hbody⟩ := quotedHead (by decide) q hat
      have hstop : matchingEnd child .named _ 1 = some _ :=
        matchingEnd_closed body.nested_print.closed hbody
      rw [List.length_cons] at hfuel
      rw [collectSections, hk]
      simp only [hclose, plus, Option.elim_some, hstop, hbody.slice, hentry.2, Option.bind_some]
      rw [insertAll_cons, hentry.1, ← hname]
      exact ih hrest hbody.skip.skip (by omega) _

/-! ### Rendering a chain -/

section
variable {partials : Bytes → Bytes} {known : Bytes → Option Layout} {ctx : View}

/-- A child shows what its parent shows with the sections of the child, whatever sections are
passed to the child. -/
theorem Child.shows (hknown : ∀ name layout, known name = some layout →
      partials name = layout.print) {child : Child} {said : List (Bytes × Bytes)}
    (hsaid : child.Says known (Scope.of ctx) said) {r : Bytes} (sections : Option StringMap)
    (h : Shows partials (some (insertAll ∅ said)) (partials child.parent.name) ctx r) :
    Shows partials sections child.print ctx r := by
  obtain ⟨hextended, ext, hext⟩ := child.extended_print
  -- The sections are finitely many, so one bound does for all of them.
  have hsections : ∀ᶠ fuel in atTop, List.Forall₂ (fun block entry => entry.1 = block.1.name ∧
      renderImpl fuel block.2.print ctx partials none = some entry.2) child.blocks said := by
    clear h
    rw [Child.Says] at hsaid
    generalize child.blocks = blocks at hsaid
    induction hsaid with
    | nil => exact .of_forall fun _ => .nil
    | @cons block entry _ _ hblock _ ih =>
      have hbody : Shows partials none block.2.print ctx entry.2 := shows_print hknown hblock.2
      filter_upwards [hbody, ih] with fuel hfuel hrest
      exact .cons ⟨hblock.1, hfuel⟩ hrest
  obtain ⟨n, hn⟩ := eventually_atTop.mp (hsections.and h)
  refine eventually_atTop.mpr ⟨max n (child.blocks.length + 1) + 1, fun fuel hfuel => ?_⟩
  obtain ⟨fuel, rfl⟩ : ∃ f, fuel = f + 1 := ⟨fuel - 1, by omega⟩
  obtain ⟨hblocks, hlayout⟩ := hn fuel (by omega)
  have hcollect : collectSections (fun body => renderImpl fuel body ctx partials none) child.print
      fuel 0 ∅ = some (insertAll ∅ said) :=
    collectSections_eq child.gathers hblocks ⟨Nat.zero_le _, rfl⟩ (by omega) ∅
  -- The engine takes the branch of `@extends`: sections first, then the parent with them.
  rw [extended, hext] at hextended
  rw [renderImpl, hext]
  dsimp only
  have hparent : unquote (slice child.print (ext + 9) (find child.print (bytes ")") ext)) =
      child.parent.name := Option.some.inj hextended
  rw [hcollect, Option.bind_some, hparent]
  exact hlayout

/-- **Along a chain only the sections of the last child reach the layout.** -/
theorem chain_shows {views : Views} (hknown : ∀ name layout, known name = some layout →
      views.get name = layout.print) {top name : Bytes} {children : List Child}
    (hchain : Chain views top name children) {chain : List (List (Bytes × Bytes))}
    (hsaid : List.Forall₂ (Child.Says known (Scope.of ctx)) children chain) {r : Bytes}
    (h : ∀ said, chain.getLast? = some said →
      Shows views.get (some (insertAll ∅ said)) (views.get top) ctx r)
    (sections : Option StringMap) : Shows views.get sections (views.get name) ctx r := by
  induction hchain generalizing chain sections with
  | last _ hget hparent =>
    cases hsaid with
    | cons hchild hrest =>
      cases hrest
      rw [hget]
      refine Child.shows hknown hchild sections ?_
      rw [hparent]
      exact h _ rfl
  | cons _ hget hrest ih =>
    cases hsaid with
    | @cons _ said _ chain hchild hchain =>
      rw [hget]
      refine Child.shows hknown hchild sections (ih hchain (fun said' hlast => h said' ?_) _)
      rw [List.getLast?_cons, hlast]
      rfl

end

/-! ### What a chain should say -/

/-- Of the sections of one name the last one is kept. -/
theorem lookup_insertAll (m : StringMap) (said : List (Bytes × Bytes)) (name : Bytes) :
    (insertAll m said).lookup name = (defined said name).or (m.lookup name) := by
  induction said generalizing m with
  | nil => rfl
  | cons entry said ih =>
    rw [insertAll_cons, ih, defined, defined, List.reverse_cons, List.lookup_append,
      Option.or_assoc]
    congr 1
    by_cases hname : name = entry.1
    · subst hname
      rw [Finmap.lookup_insert, List.lookup_cons_self]
      rfl
    · rw [Finmap.lookup_insert_of_ne _ hname, List.lookup_cons, beq_false_of_ne hname]
      rfl

/-- The sections that are passed to a layout stand for what it yields to. -/
theorem yielded_insertAll (said : List (Bytes × Bytes)) :
    yielded (some (insertAll ∅ said)) = fun name => (defined said name).getD [] := by
  funext name
  rw [yielded, Option.bind_some, lookup_insertAll, Finmap.lookup_empty, Option.or_none]

/-- What a layout says depends on what is yielded for the names it yields to. -/
theorem Layout.Says.congr {known : Bytes → Option Layout} {f g : Bytes → Bytes}
    {N : Set Bytes} (hfg : ∀ q : Quoted, q.name ∈ N → f q.name = g q.name)
    (hknown : ∀ name layout, known name = some layout → ∀ s ∈ layout.yields, s ∈ N)
    {b : Layout} {scope : Scope} {r : Bytes} (h : b.Says known f scope r)
    (hb : ∀ s ∈ b.yields, s ∈ N) : b.Says known g scope r := by
  induction h with
  | done => exact .done
  | text _ ih => exact .text (ih hb)
  | escaped _ ih => exact .escaped (ih hb)
  | raw _ ih => exact .raw (ih hb)
  -- Only the branch that is taken has been said; the other one is not looked at.
  | cond _ _ iha ih =>
    refine .cond (iha fun s hs => ?_) (ih fun s hs => hb s (List.mem_append_right _ hs))
    split at hs
    · exact hb s (List.mem_append_left _ hs)
    · cases hs
  | condElse _ _ iha ih =>
    refine .condElse (iha fun s hs => ?_) (ih fun s hs => hb s
      (List.mem_append_right _ (List.mem_append_right _ hs)))
    split at hs
    · exact hb s (List.mem_append_left _ hs)
    · exact hb s (List.mem_append_right _ (List.mem_append_left _ hs))
  | loop _ _ iha ih =>
    exact .loop (fun item hitem => iha item hitem fun s hs => hb s (List.mem_append_left _ hs))
      (ih fun s hs => hb s (List.mem_append_right _ hs))
  | included hlayout _ _ iha ih => exact .included hlayout (iha (hknown _ _ hlayout)) (ih hb)
  -- The one place where what is yielded matters.
  | @yield q _ _ _ _ ih =>
    rw [hfg q (hb q.name List.mem_cons_self)]
    exact .yield (ih fun s hs => hb s (List.mem_cons_of_mem _ hs))
  | named _ _ iha ih =>
    exact .named (iha fun s hs => hb s (List.mem_append_left _ hs))
      (ih fun s hs => hb s (List.mem_append_right _ hs))

theorem get_define_self (views : Views) (name tpl : Bytes) :
    (views.define name tpl).get name = tpl := by
  rw [Views.get, Views.define, Finmap.lookup_insert]
  rfl

theorem get_define_ne (views : Views) {name name' : Bytes} (tpl : Bytes) (h : name' ≠ name) :
    (views.define name tpl).get name' = views.get name' := by
  rw [Views.get, Views.define, Finmap.lookup_insert_of_ne _ h]
  rfl

/-- The layout may be another one. -/
theorem Chain.define {views : Views} {top name : Bytes} {children : List Child}
    (h : Chain views top name children) (tpl : Bytes) :
    Chain (views.define top tpl) top name children := by
  induction h with
  | last hne hget hparent =>
    exact .last hne ((get_define_ne views tpl hne).trans hget) hparent
  | cons hne hget _ ih => exact .cons hne ((get_define_ne views tpl hne).trans hget) ih

section
variable {views : Views} {top name : Bytes} {known : Bytes → Option Layout}
  {children : List Child} {chain : List (List (Bytes × Bytes))} {ctx : View}

/-- A chain renders what its layout says with the sections of the last child. -/
theorem renders_nearest (hchain : Chain views top name children) (hviews : views.Holds top known)
    (hsaid : List.Forall₂ (Child.Says known (Scope.of ctx)) children chain) {layout : Layout}
    {r : Bytes} (h : layout.Says known (nearest chain) (Scope.of ctx) r) :
    (views.define top layout.print).Renders name ctx r := by
  have hknown : ∀ name b, known name = some b →
      (views.define top layout.print).get name = b.print := fun name b hb =>
    (get_define_ne views layout.print (hviews name b hb).1).trans (hviews name b hb).2
  refine (chain_shows hknown (hchain.define layout.print) hsaid (fun said hlast => ?_) none).exists
  rw [get_define_self]
  have hnearest : nearest chain = yielded (some (insertAll ∅ said)) := by
    rw [yielded_insertAll]
    funext s
    rw [nearest, hlast, Option.bind_some]
  rw [hnearest] at h
  exact shows_print hknown h

/-- **When a chain renders what it should**: for every layout that yields to names of `N` only,
the template at the start of the chain renders what the layout says with the section of the first
child that defines it for each name, iff for the names of `N` this is the section of the last
child. -/
theorem extends_iff (hchain : Chain views top name children) (hviews : views.Holds top known)
    (hsaid : List.Forall₂ (Child.Says known (Scope.of ctx)) children chain) (N : Set Bytes)
    (hN : ∀ name layout, known name = some layout → ∀ s ∈ layout.yields, s ∈ N) :
    (∀ (layout : Layout) (r : Bytes), (∀ s ∈ layout.yields, s ∈ N) →
        layout.Says known (lowest chain) (Scope.of ctx) r →
        (views.define top layout.print).Renders name ctx r) ↔
      ∀ q : Quoted, q.name ∈ N → lowest chain q.name = nearest chain q.name := by
  constructor
  · intro h q hq
    -- The layout that yields to the name, and says nothing else.
    have hlow : (Layout.yield q .done).Says known (lowest chain) (Scope.of ctx) _ := .yield .done
    have hnear : (Layout.yield q .done).Says known (nearest chain) (Scope.of ctx) _ := .yield .done
    have hyields : ∀ s ∈ (Layout.yield q .done).yields, s ∈ N := by
      intro s hs
      rw [List.mem_singleton.mp hs]
      exact hq
    have heq := (h _ _ hyields hlow).unique (renders_nearest hchain hviews hsaid hnear)
    rwa [List.append_nil, List.append_nil] at heq
  · intro hsections layout r hyields h
    exact renders_nearest hchain hviews hsaid (h.congr hsections hN hyields)

end

/-! ### A section that is lost -/

/-- A name in single quotes. -/
def quoted (name : Bytes) (h : 64 ∉ name ∧ 41 ∉ name) : Quoted := ⟨name, false, h.1, h.2⟩

/-- A post with a body. It extends the section of the site it is in. -/
def post : Child where
  before := []
  parent := quoted (bytes "blog") (by decide)
  behind := [.block (quoted (bytes "body") (by decide))
    (.text ⟨bytes "Hello", by decide, by decide⟩ .done)]

/-- The section of the site, which has nothing of its own. -/
def blog : Child where
  before := []
  parent := quoted (bytes "site") (by decide)
  behind := []

/-- The layout of the site. -/
def site : Layout := .yield (quoted (bytes "body") (by decide)) .done

/-- The templates of the two children. -/
def pages : Views :=
  ⟨(Finmap.singleton (bytes "post") post.print).insert (bytes "blog") blog.print⟩

theorem chain_pages : Chain pages (bytes "site") (bytes "post") [post, blog] :=
  .cons (by decide) rfl (.last (by decide) rfl rfl)

theorem says_pages : List.Forall₂ (Child.Says (fun _ => none) (Scope.of {})) [post, blog]
    [[(bytes "body", bytes "Hello")], []] :=
  .cons (.cons ⟨rfl, .text .done⟩ .nil) (.cons .nil .nil)

theorem holds_pages : pages.Holds (bytes "site") fun _ => none := by
  intro name layout h
  cases h

/-- The body of the post is lost on the way through the section of the site. -/
theorem section_is_lost :
    Chain pages (bytes "site") (bytes "post") [post, blog] ∧
      List.Forall₂ (Child.Says (fun _ => none) (Scope.of {})) [post, blog]
        [[(bytes "body", bytes "Hello")], []] ∧
      site.Says (fun _ => none) (lowest [[(bytes "body", bytes "Hello")], []]) (Scope.of {})
        (bytes "Hello") ∧
      ¬ (pages.define (bytes "site") site.print).Renders (bytes "post") {} (bytes "Hello") := by
  have hsays : site.Says (fun _ => none) (lowest [[(bytes "body", bytes "Hello")], []])
      (Scope.of {}) (bytes "Hello") := .yield .done
  have hnear : site.Says (fun _ => none) (nearest [[(bytes "body", bytes "Hello")], []])
      (Scope.of {}) [] := .yield .done
  refine ⟨chain_pages, says_pages, hsays, fun h => ?_⟩
  have heq := h.unique (renders_nearest chain_pages holds_pages says_pages hnear)
  exact absurd heq (by decide)

/-- The two children, for layouts that yield to a title only. -/
theorem extends_iff_applies :
    (∀ (layout : Layout) (r : Bytes), (∀ s ∈ layout.yields, s ∈ ({bytes "title"} : Set Bytes)) →
        layout.Says (fun _ => none) (lowest [[(bytes "body", bytes "Hello")], []])
          (Scope.of {}) r →
        (pages.define (bytes "site") layout.print).Renders (bytes "post") {} r) ↔
      ∀ q : Quoted, q.name ∈ ({bytes "title"} : Set Bytes) →
        lowest [[(bytes "body", bytes "Hello")], []] q.name =
          nearest [[(bytes "body", bytes "Hello")], []] q.name :=
  extends_iff chain_pages holds_pages says_pages {bytes "title"} (fun name layout h => by cases h)

end CppLaravel.Blade
