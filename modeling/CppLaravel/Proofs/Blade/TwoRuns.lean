import CppLaravel.Blade.Render
import Mathlib.Data.List.Forall2

/-!
# `CppLaravel.Proofs.Blade.TwoRuns`: two renderings of one template

A `Similarity` relates contexts and outputs such that what a directive appends is related in
related contexts. Then so is what whole templates render to, at any nesting and with a larger
bound on the right (`Similarity.renderImpl`). That a larger bound changes nothing is the first
case of it.
-/

set_option autoImplicit false

namespace CppLaravel.Blade

open CppLaravel.Lib
open CppLaravel.Http

/-! ### The parts of a directive -/

/-- The texts that a directive renders. -/
def Directive.bodies : Directive → List Bytes
  | .cond _ thenPart elsePart => [thenPart, elsePart]
  | .loop _ inner => [inner]
  | .named body => [body]
  | _ => []

theorem slice_isInfix (t : Bytes) (b : Nat) (e : Option Nat) : slice t b e <:+: t := by
  have hdrop : t.drop b <:+: t := (List.drop_suffix b t).isInfix
  cases e with
  | none => exact hdrop
  | some e =>
    rw [slice]
    split
    · exact (List.take_prefix _ _).isInfix.trans hdrop
    · exact hdrop

/-- What a directive renders is a part of the template. -/
theorem infix_of_mem_bodies {t u : Bytes} {i n j : Nat} {directive : Directive}
    (h : scan t i = some (n, directive, j)) (hu : u ∈ directive.bodies) : u <:+: t := by
  rw [scan, Option.map_eq_some_iff] at h
  obtain ⟨next, -, h⟩ := h
  obtain ⟨-, h⟩ := Prod.mk.inj h
  -- In the order in which `scan` tells the directives apart: two that have no body,
  split at h
  · cases congrArg Prod.fst h
    cases hu
  split at h
  · cases congrArg Prod.fst h
    cases hu
  -- the conditional, whose two bodies are cut at the end and at the `@else`,
  split at h
  · cases congrArg Prod.fst h
    rcases List.mem_pair.mp hu with rfl | rfl
    · exact slice_isInfix t _ _
    · cases findElse t (matchingEnd t .cond (plus (find t (bytes ")") next) 1) 1)
        (plus (find t (bytes ")") next) 1) 0 with
      | none => exact List.nil_infix
      | some els => exact slice_isInfix t _ _
  -- the loop, two more that have no body, and the section.
  split at h
  · cases congrArg Prod.fst h
    cases List.mem_singleton.mp hu
    exact slice_isInfix t _ _
  split at h
  · cases congrArg Prod.fst h
    cases hu
  split at h
  · cases congrArg Prod.fst h
    cases hu
  · cases congrArg Prod.fst h
    cases List.mem_singleton.mp hu
    exact slice_isInfix t _ _

/-- Only the beginning of a raw interpolation makes a raw directive. -/
theorem raw_of_scan {t key : Bytes} {i n j : Nat} (h : scan t i = some (n, .raw key, j)) :
    bytes "\x7b!!" <:+: t := by
  rw [scan, Option.map_eq_some_iff] at h
  obtain ⟨next, -, h⟩ := h
  obtain ⟨-, h⟩ := Prod.mk.inj h
  split at h
  · rename_i hraw
    exact (prefix_drop_of_find hraw.symm).isInfix.trans (List.drop_suffix next t).isInfix
  · repeat' split at h
    all_goals cases congrArg Prod.fst h

/-! ### Similar runs -/

/-- What stands for a section in a layout. -/
def yielded (sections : Option StringMap) (name : Bytes) : Bytes :=
  (sections.bind fun secs => secs.lookup name).getD []

/-- A relation between contexts and one between outputs that the directives of some templates
respect. -/
structure Similarity where
  ctx : View → View → Prop
  out : Bytes → Bytes → Prop
  template : Bytes → Prop
  out_refl : ∀ x, out x x
  out_append : ∀ {x x' y y'}, out x x' → out y y' → out (x ++ y) (x' ++ y')
  template_part : ∀ {t u}, template t → u <:+: t → template u
  raw : ∀ {t i n key j v w}, template t → scan t i = some (n, .raw key, j) → ctx v w →
    out (v.var key) (w.var key)
  escaped : ∀ {v w} key, ctx v w → out (escape (v.var key)) (escape (w.var key))
  truthy : ∀ {v w} key, ctx v w → truthy (v.var key) = truthy (w.var key)
  items : ∀ {v w} list, ctx v w →
    List.Forall₂ (fun a b => ctx (v.merged a) (w.merged b)) (v.items list) (w.items list)

namespace Similarity

variable (S : Similarity)

/-- Where the left run ends, the right one ends with a related output. -/
def Leads (o o' : Option Bytes) : Prop := ∀ r, o = some r → ∃ r', o' = some r' ∧ S.out r r'

/-- The sections of two runs. -/
def Sections (s s' : Option StringMap) : Prop := ∀ name, S.out (yielded s name) (yielded s' name)

variable {S}

theorem renderItems {R : View → View → Prop} {f g : View → Option Bytes} {items items' : List View}
    (h : List.Forall₂ R items items') (hfg : ∀ a b, R a b → S.Leads (f a) (g b)) :
    S.Leads (renderItems f items) (renderItems g items') := by
  induction h with
  | nil =>
    intro r hr
    exact ⟨r, hr, S.out_refl r⟩
  | cons hab _ ih =>
    intro r hr
    obtain ⟨r₁, h₁, hr⟩ := Option.bind_eq_some_iff.mp hr
    obtain ⟨r₂, h₂, rfl⟩ := Option.map_eq_some_iff.mp hr
    obtain ⟨r₁', h₁', hout₁⟩ := hfg _ _ hab r₁ h₁
    obtain ⟨r₂', h₂', hout₂⟩ := ih r₂ h₂
    refine ⟨r₁' ++ r₂', ?_, S.out_append hout₁ hout₂⟩
    rw [Blade.renderItems, h₁', h₂']
    rfl

/-- The recursive calls of two runs. -/
def Calls (R R' : Bytes → View → Option Bytes) : Prop :=
  ∀ {t v w}, S.template t → S.ctx v w → S.Leads (R t v) (R' t w)

/-- A directive appends related outputs. -/
theorem perform {R R' : Bytes → View → Option Bytes} {partials : Bytes → Bytes}
    {s s' : Option StringMap} {v w : View} {t : Bytes} {i n j : Nat} {directive : Directive}
    (hR : S.Calls R R') (hpartials : ∀ name, S.template (partials name)) (hs : S.Sections s s')
    (hctx : S.ctx v w) (ht : S.template t) (h : scan t i = some (n, directive, j)) :
    S.Leads (perform R partials s v directive) (perform R' partials s' w directive) := by
  have hbody : ∀ u ∈ directive.bodies, S.template u :=
    fun u hu => S.template_part ht (infix_of_mem_bodies h hu)
  cases directive with
  | raw key =>
    rintro r ⟨⟩
    exact ⟨_, rfl, S.raw ht h hctx⟩
  | escaped key =>
    rintro r ⟨⟩
    exact ⟨_, rfl, S.escaped key hctx⟩
  | cond key thenPart elsePart =>
    rw [Blade.perform, Blade.perform, S.truthy key hctx]
    split
    · exact hR (hbody thenPart (by simp [Directive.bodies])) hctx
    · exact hR (hbody elsePart (by simp [Directive.bodies])) hctx
  | loop list inner =>
    exact renderItems (S.items list hctx) fun a b hab =>
      hR (hbody inner (by simp [Directive.bodies])) hab
  | included name => exact hR (hpartials name) hctx
  | yield name =>
    rintro r ⟨⟩
    exact ⟨_, rfl, hs name⟩
  | named body => exact hR (hbody body (by simp [Directive.bodies])) hctx

/-- The loop appends related outputs to related ones. -/
theorem renderLoop {P P' : Directive → Option Bytes} {t : Bytes}
    (hP : ∀ {i n j directive}, scan t i = some (n, directive, j) →
      S.Leads (P directive) (P' directive))
    {fuel fuel' : Nat} (hfuel : fuel ≤ fuel') (i : Nat) {out out' : Bytes} (hout : S.out out out') :
    S.Leads (renderLoop P t fuel i out) (renderLoop P' t fuel' i out') := by
  induction fuel generalizing fuel' i out out' with
  | zero =>
    rintro r ⟨⟩
  | succ fuel ih =>
    obtain ⟨fuel', rfl⟩ : ∃ f, fuel' = f + 1 := ⟨fuel' - 1, by omega⟩
    rw [Blade.renderLoop, Blade.renderLoop]
    split
    · cases hscan : scan t i with
      | none =>
        rintro r ⟨⟩
        exact ⟨_, rfl, S.out_append hout (S.out_refl _)⟩
      | some found =>
        obtain ⟨next, directive, j⟩ := found
        intro r hr
        obtain ⟨r₁, h₁, hr⟩ := Option.bind_eq_some_iff.mp hr
        obtain ⟨r₁', h₁', hout₁⟩ := hP hscan r₁ h₁
        have happend := S.out_append (S.out_append hout (S.out_refl (slice t i (some next)))) hout₁
        obtain ⟨r', hr', hout'⟩ := ih (Nat.le_of_succ_le_succ hfuel) j happend r hr
        exact ⟨r', by dsimp only; rw [h₁']; exact hr', hout'⟩
    · rintro r ⟨⟩
      exact ⟨_, rfl, hout⟩

/-- The sections of a child are related. -/
theorem collectSections {f g : Bytes → Option Bytes} {child : Bytes} (ht : S.template child)
    (hfg : ∀ {u}, S.template u → S.Leads (f u) (g u)) {fuel fuel' : Nat} (hfuel : fuel ≤ fuel')
    (p : Nat) {m m' : StringMap} (hm : S.Sections (some m) (some m')) :
    ∀ secs, collectSections f child fuel p m = some secs →
      ∃ secs', collectSections g child fuel' p m' = some secs' ∧
        S.Sections (some secs) (some secs') := by
  induction fuel generalizing fuel' p m m' with
  | zero =>
    rintro secs ⟨⟩
  | succ fuel ih =>
    obtain ⟨fuel', rfl⟩ : ∃ f, fuel' = f + 1 := ⟨fuel' - 1, by omega⟩
    rw [Blade.collectSections, Blade.collectSections]
    cases find child (bytes "@section(") p with
    | none =>
      rintro secs ⟨⟩
      exact ⟨m', rfl, hm⟩
    | some q =>
      intro secs hsecs
      obtain ⟨r, hr, hsecs⟩ := Option.bind_eq_some_iff.mp hsecs
      obtain ⟨r', hr', hout⟩ := hfg (S.template_part ht (slice_isInfix child _ _)) r hr
      -- The two maps get related texts under one name.
      have hinsert : ∀ name, S.Sections (some (m.insert name r)) (some (m'.insert name r')) := by
        intro name name'
        show S.out (((m.insert name r).lookup name').getD [])
          (((m'.insert name r').lookup name').getD [])
        by_cases heq : name' = name
        · subst heq
          rw [Finmap.lookup_insert, Finmap.lookup_insert]
          exact hout
        · rw [Finmap.lookup_insert_of_ne _ heq, Finmap.lookup_insert_of_ne _ heq]
          exact hm name'
      obtain ⟨secs', hsecs', hrel⟩ :=
        ih (Nat.le_of_succ_le_succ hfuel) _ (hinsert _) secs hsecs
      exact ⟨secs', by dsimp only; rw [hr']; exact hsecs', hrel⟩

/-- **Similar contexts render to related outputs**: whatever the templates include, extend and
yield. -/
theorem renderImpl {partials : Bytes → Bytes} (hpartials : ∀ name, S.template (partials name))
    {fuel fuel' : Nat} (hfuel : fuel ≤ fuel') {t : Bytes} {v w : View} {s s' : Option StringMap}
    (ht : S.template t) (hctx : S.ctx v w) (hs : S.Sections s s') :
    S.Leads (renderImpl fuel t v partials s) (renderImpl fuel' t w partials s') := by
  induction fuel generalizing fuel' t v w s s' with
  | zero =>
    rintro r ⟨⟩
  | succ fuel ih =>
    obtain ⟨fuel', rfl⟩ : ∃ f, fuel' = f + 1 := ⟨fuel' - 1, by omega⟩
    have hle : fuel ≤ fuel' := by omega
    have hnone : S.Sections none none := fun name => S.out_refl _
    rw [Blade.renderImpl, Blade.renderImpl]
    cases find t (bytes "@extends(") 0 with
    | some ext =>
      -- The sections are rendered first, and the layout with them.
      intro r hr
      obtain ⟨secs, hsecs, hr⟩ := Option.bind_eq_some_iff.mp hr
      have hempty : S.Sections (some ∅) (some ∅) := fun name => S.out_refl _
      obtain ⟨secs', hsecs', hrel⟩ :=
        collectSections ht (fun hu => ih hle hu hctx hnone) hle 0 hempty secs hsecs
      obtain ⟨r', hr', hout⟩ := ih hle (hpartials _) hctx hrel r hr
      exact ⟨r', by dsimp only; rw [hsecs']; exact hr', hout⟩
    | none =>
      refine renderLoop (fun hscan => ?_) hle 0 (S.out_refl [])
      exact perform (fun ht' hctx' => ih hle ht' hctx' hs) hpartials hs hctx ht hscan

end Similarity

/-! ### The bound -/

/-- A context is similar to itself, in every template. -/
def same : Similarity where
  ctx := Eq
  out := Eq
  template _ := True
  out_refl _ := rfl
  out_append := by
    rintro x x' y y' rfl rfl
    rfl
  template_part _ _ := trivial
  raw := by
    rintro t i n key j v w - - rfl
    rfl
  escaped := by
    rintro v w key rfl
    rfl
  truthy := by
    rintro v w key rfl
    rfl
  items := by
    rintro v w list rfl
    exact List.forall₂_same.mpr fun _ _ => rfl

/-- A larger bound changes nothing. -/
theorem renderImpl_mono {partials : Bytes → Bytes} {fuel fuel' : Nat} (hfuel : fuel ≤ fuel')
    {t r : Bytes} {v : View} {s : Option StringMap}
    (h : renderImpl fuel t v partials s = some r) : renderImpl fuel' t v partials s = some r := by
  obtain ⟨r', hr', heq⟩ := Similarity.renderImpl (S := same) (fun _ => trivial) hfuel trivial rfl
    (fun _ => rfl) r h
  rw [hr', ← show r = r' from heq]

/-- A template renders to one output. -/
theorem Views.Renders.unique {views : Views} {name : Bytes} {ctx : View} {out out' : Bytes}
    (h : views.Renders name ctx out) (h' : views.Renders name ctx out') : out = out' := by
  obtain ⟨fuel, h⟩ := h
  obtain ⟨fuel', h'⟩ := h'
  rcases Nat.le_total fuel fuel' with hle | hle
  · exact Option.some.inj ((renderImpl_mono hle h).symm.trans h')
  · exact Option.some.inj (h.symm.trans (renderImpl_mono hle h'))

end CppLaravel.Blade
