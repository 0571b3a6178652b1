import CppLaravel.Proofs.Blade.TwoRuns

/-!
# `CppLaravel.Proofs.Blade.Markup`: values add no markup

Without raw interpolations, the markup characters of a rendering depend on the shape of the
context only: on what is true and on the lengths of the lists, wherever a template looks.

* `SameShape`: the shape, scope by scope; `Matching.sameShape` reads it off the contexts.
* `markup_escape`: an escaped value has no markup character.
* `markup_of_sameShape`: two contexts of one shape.
-/

set_option autoImplicit false

namespace CppLaravel.Blade

open CppLaravel.Lib
open CppLaravel.Http

/-- One of `< > " '`. -/
def isMarkup (c : UInt8) : Bool := c = 60 ∨ c = 62 ∨ c = 34 ∨ c = 39

/-- The markup characters of a text, in order. -/
def markup (s : Bytes) : Bytes := s.filter isMarkup

theorem markup_append (s t : Bytes) : markup (s ++ t) = markup s ++ markup t :=
  List.filter_append s t

/-- **An escaped value has no markup character.** -/
theorem markup_escape (s : Bytes) : markup (escape s) = [] := by
  induction s with
  | nil => rfl
  | cons c s ih =>
    rw [escape]
    split
    · rw [markup_append, ih]
      rfl
    split
    · rw [markup_append, ih]
      rfl
    split
    · rw [markup_append, ih]
      rfl
    split
    · rw [markup_append, ih]
      rfl
    split
    · rw [markup_append, ih]
      rfl
    · rename_i _ hlt hgt hquote happ
      have hplain : ¬ isMarkup c := by simp [isMarkup, hlt, hgt, hquote, happ]
      rw [markup, List.filter_cons_of_neg hplain]
      exact ih

/-! ### Shapes -/

/-- Contexts of one shape: the same variables are true, the lists have the same lengths, and the
scopes of their items are of one shape again. -/
inductive SameShape : View → View → Prop
  | intro {v w : View} (truthy_eq : ∀ key, truthy (v.var key) = truthy (w.var key))
      (length_eq : ∀ list, (v.items list).length = (w.items list).length)
      (items : ∀ list (n : Nat) a b, (v.items list)[n]? = some a → (w.items list)[n]? = some b →
        SameShape (v.merged a) (w.merged b)) :
      SameShape v w

/-- Contexts with the same names at every level, of variables and of lists, with lists of the
same lengths and variables of the same truth. -/
inductive Matching : View → View → Prop
  | intro {v w : View} (names : ∀ key, key ∈ v.vars ↔ key ∈ w.vars)
      (truthy_eq : ∀ key, truthy (v.var key) = truthy (w.var key))
      (length_eq : ∀ list, (v.items list).length = (w.items list).length)
      (items : ∀ list (n : Nat) a b, (v.items list)[n]? = some a → (w.items list)[n]? = some b →
        Matching a b) :
      Matching v w

/-- A variable of an item's scope is the item's, or the outer one. -/
theorem var_merged (v a : View) (key : Bytes) :
    (v.merged a).var key = if key ∈ a.vars then a.var key else v.var key := by
  rw [View.var, View.merged]
  split
  · rename_i h
    rw [Finmap.lookup_union_left h]
    rfl
  · rename_i h
    rw [Finmap.lookup_union_right h]
    rfl

/-- Items that match have scopes of one shape, in contexts in which the same is true. -/
theorem Matching.merged {a b : View} (h : Matching a b) {v w : View}
    (hvw : ∀ key, truthy (v.var key) = truthy (w.var key)) :
    SameShape (v.merged a) (w.merged b) := by
  induction h generalizing v w with
  | @intro a b names truthy_eq length_eq _ ih =>
    have hmerged : ∀ key, truthy ((v.merged a).var key) = truthy ((w.merged b).var key) := by
      intro key
      rw [var_merged, var_merged, if_congr (names key) rfl rfl]
      split
      · exact truthy_eq key
      · exact hvw key
    exact .intro hmerged length_eq fun list n a b ha hb => ih list n a b ha hb hmerged

theorem Matching.sameShape {v w : View} (h : Matching v w) : SameShape v w := by
  cases h with
  | intro names truthy_eq length_eq items =>
    refine .intro truthy_eq length_eq fun list n a b ha hb => ?_
    exact (items list n a b ha hb).merged truthy_eq

theorem SameShape.forall₂ {v w : View} (h : SameShape v w) (list : Bytes) :
    List.Forall₂ (fun a b => SameShape (v.merged a) (w.merged b)) (v.items list)
      (w.items list) := by
  cases h with
  | intro _ length_eq items =>
    refine List.forall₂_iff_get.mpr ⟨length_eq list, fun n hn hn' => ?_⟩
    exact items list n _ _ (List.getElem?_eq_getElem hn) (List.getElem?_eq_getElem hn')

/-! ### Two renderings -/

/-- Contexts of one shape and outputs with the same markup, for templates without raw
interpolations. -/
def shape : Similarity where
  ctx := SameShape
  out r r' := markup r = markup r'
  template t := ¬ bytes "\x7b!!" <:+: t
  out_refl _ := rfl
  out_append := by
    intro x x' y y' hx hy
    rw [markup_append, markup_append, hx, hy]
  template_part := by
    intro t u ht hu hraw
    exact ht (hraw.trans hu)
  raw := by
    intro t i n key j v w ht hscan _
    exact absurd (raw_of_scan hscan) ht
  escaped := by
    intro v w key _
    rw [markup_escape, markup_escape]
  truthy := by
    rintro v w key ⟨truthy_eq, -, -⟩
    exact truthy_eq key
  items list h := h.forall₂ list

/-- **The markup of a rendering depends on the shape of the context only**: where one of two
contexts of one shape is rendered, the other one is too, and every output for it has the same
markup characters in the same order. -/
theorem markup_of_sameShape {views : Views}
    (hraw : ∀ name, ¬ bytes "\x7b!!" <:+: views.get name) {v w : View} (hshape : SameShape v w)
    {name out : Bytes} (hv : views.Renders name v out) :
    (∃ out', views.Renders name w out') ∧
      ∀ out', views.Renders name w out' → markup out' = markup out := by
  obtain ⟨fuel, hfuel⟩ := hv
  obtain ⟨r, hr, hmarkup⟩ := Similarity.renderImpl (S := shape) hraw (le_refl fuel) (hraw name)
    hshape (fun _ => rfl) out hfuel
  have hw : views.Renders name w r := ⟨fuel, hr⟩
  refine ⟨⟨r, hw⟩, fun out' hout' => ?_⟩
  rw [hout'.unique hw]
  exact hmarkup.symm

/-- A page with one value between two tags. -/
def page : Views := ⟨Finmap.singleton (bytes "page") (bytes "<b>\x7b\x7b x \x7d\x7d</b>")⟩

/-- A context with one value. -/
def single (value : Bytes) : View := ⟨Finmap.singleton (bytes "x") value, []⟩

/-- A tag and an ampersand as the value. -/
theorem markup_of_sameShape_applies :
    page.Renders (bytes "page") (single (bytes "<i>")) (bytes "<b>&lt;i&gt;</b>") ∧
      (∃ out', page.Renders (bytes "page") (single (bytes "&")) out') ∧
      ∀ out', page.Renders (bytes "page") (single (bytes "&")) out' →
        markup out' = markup (bytes "<b>&lt;i&gt;</b>") := by
  have hv : page.Renders (bytes "page") (single (bytes "<i>")) (bytes "<b>&lt;i&gt;</b>") :=
    ⟨4, by decide⟩
  have hget : ∀ name, page.get name = bytes "<b>\x7b\x7b x \x7d\x7d</b>" ∨ page.get name = [] := by
    intro name
    by_cases hname : name = bytes "page"
    · subst hname
      exact .inl rfl
    · right
      have hmem : name ∉ page.templates := by simpa [page] using hname
      rw [Views.get, Finmap.lookup_eq_none.mpr hmem]
      rfl
  have hraw : ∀ name, ¬ bytes "\x7b!!" <:+: page.get name := by
    intro name
    rcases hget name with h | h <;> rw [h] <;> decide
  have hshape : SameShape (single (bytes "<i>")) (single (bytes "&")) := by
    refine Matching.sameShape (.intro ?_ ?_ (fun _ => rfl) ?_)
    · intro key
      simp [single]
    · intro key
      by_cases hkey : key = bytes "x"
      · subst hkey
        decide
      · have hnone : ∀ value, (single value).var key = [] := by
          intro value
          have hmem : key ∉ (single value).vars := by simpa [single] using hkey
          rw [View.var, Finmap.lookup_eq_none.mpr hmem]
          rfl
        rw [hnone, hnone]
    · intro list n a b ha
      cases ha
  exact ⟨hv, markup_of_sameShape hraw hshape hv⟩

end CppLaravel.Blade
