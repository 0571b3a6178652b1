import CppLaravel.Livewire.Page

/-!
# `CppLaravel.Proofs.Livewire.Morph`: a morphed page shows the HTML

`reconcile_shows`: the client's patching does not throw, and leaves the HTML's nodes with the HTML's
attributes and texts in the HTML's order. It is an induction over the HTML: `renew` of an element
comes down to the lists of children, and both loops go along the new list.
-/

set_option autoImplicit false

namespace CppLaravel.Livewire

open CppLaravel.Lib CppLaravel.Lib.Dom CppLaravel.Lib.Dom.Node

/-! ### Attributes -/

/-- The first loop drops what the HTML does not have. -/
theorem get_foldl_remove (n : Attributes Bytes) (es : List (Bytes × Bytes)) (o : Attributes Bytes)
    (name : Bytes) :
    (es.foldl (fun o a => if n.has a.1 then o else o.remove a.1) o).get name =
      if name ∈ es.map Prod.fst ∧ ¬ n.has name then none else o.get name := by
  induction es generalizing o with
  | nil => simp
  | cons e es ih =>
    have hstep : (if n.has e.1 then o else o.remove e.1).get name =
        if name = e.1 ∧ ¬ n.has name then none else o.get name := by
      by_cases hne : name = e.1
      · subst hne
        by_cases he : n.has e.1 <;> simp [he, Attributes.get_remove]
      · by_cases he : n.has e.1 <;> simp [he, hne, Attributes.get_remove]
    rw [List.foldl_cons, ih, hstep, List.map_cons]
    simp only [List.mem_cons]
    grind

/-- The second loop sets what the HTML has. -/
theorem get_foldl_set {n : Attributes Bytes} {es : List (Bytes × Bytes)} (hes : es ⊆ n.entries)
    (o : Attributes Bytes) (name : Bytes) :
    (es.foldl (fun o a => if o.get a.1 = some a.2 then o else o.set a.1 a.2) o).get name =
      if name ∈ es.map Prod.fst then n.get name else o.get name := by
  induction es generalizing o with
  | nil => simp
  | cons e es ih =>
    rw [List.cons_subset] at hes
    rw [List.foldl_cons, ih hes.2]
    by_cases hin : name ∈ es.map Prod.fst
    · simp [hin]
    · have hget : n.get e.1 = some e.2 := Attributes.get_of_mem hes.1
      by_cases hne : name = e.1
      · subst hne
        by_cases hsame : o.get e.1 = some e.2
        · simp [hin, hsame, hget]
        · simp [hin, hsame, hget, Attributes.get_set]
      · by_cases hsame : o.get e.1 = some e.2
        · simp [hin, hsame, hne]
        · simp [hin, hsame, hne, Attributes.get_set]

/-- **`syncAttrs` leaves the attributes of the HTML.** -/
theorem syncAttributes_same (o n : Attributes Bytes) : (syncAttributes o n).Same n := by
  intro name
  rw [syncAttributes, get_foldl_set (List.Subset.refl _), get_foldl_remove]
  by_cases hn : name ∈ n.entries.map Prod.fst
  · rw [if_pos hn]
  · have hnot : ¬ n.has name := Attributes.not_has.mpr hn
    have hnone : n.get name = none := by simpa [Attributes.has] using hnot
    rw [if_neg hn, hnone]
    by_cases ho : name ∈ o.entries.map Prod.fst
    · rw [if_pos ⟨ho, hnot⟩]
    · rw [if_neg fun h => ho h.1]
      simpa [Attributes.has] using Attributes.not_has.mpr ho

/-! ### Nodes -/

section

variable {ι : Type} {copy : ι → ι}

/-- Copies show what they are copies of. -/
theorem showsAll_map_clone {kept : ι → Prop} {n : List (Node ι Bytes)}
    (h : ∀ c ∈ n, Shows kept (c.clone copy) c) (keyed : Bool) :
    ShowsAll kept keyed (n.map (clone copy)) n := by
  induction n with
  | nil => exact .nil keyed
  | cons c n ih =>
    rw [List.forall_mem_cons] at h
    exact .cons h.1 (ih h.2)

theorem shows_clone {kept : ι → Prop} {n : Node ι Bytes} (h : ∀ m ∈ n.nodes, m.nodeType ≠ 8) :
    Shows kept (n.clone copy) n := by
  induction n using Node.induct with
  | text i d => exact .text _ _ d
  | comment i d => exact absurd rfl (h _ (mem_nodes_self _))
  | element i tag as typed cs ih =>
    refine .element (fun _ => .inl rfl) ?_
    rw [cloneAll_eq_map]
    refine showsAll_map_clone (fun c hc => ih c hc fun m hm => h m ?_) _
    exact List.mem_cons_of_mem _ (mem_nodesAll.mpr ⟨c, hc, hm⟩)

theorem differs_eq_false_iff {oc nc : Node ι Bytes} :
    differs oc nc = false ↔
      oc.nodeType = nc.nodeType ∧ (oc.nodeType = 1 → oc.tagName = nc.tagName) := by
  simp [differs]

variable [DecidableEq ι] {focus : Option ι} {present : Node ι Bytes → Prop}

/-- `reconcile` of the children is what `renew` comes down to. -/
theorem renew_element (i j : ι) (tag tag' : Bytes) (as as' : Attributes Bytes)
    (typed typed' : Option Bytes) (o n : List (Node ι Bytes)) :
    renew copy focus (.element i tag as typed o) (.element j tag' as' typed' n) =
      (reconcile copy focus o n).map (.element i tag (syncAttributes as as')
        (syncValue focus i tag (syncAttributes as as') as' typed)) := rfl

/-- What has to be shown of a node of the HTML: that it can be made of any old element with its
tag. -/
def Renews (copy : ι → ι) (focus : Option ι) (present : Node ι Bytes → Prop)
    (nc : Node ι Bytes) : Prop :=
  nc.nodeType = 1 → ∀ oc, (∀ m ∈ oc.nodes, present m) → oc.tagName = nc.tagName →
    ∃ x, renew copy focus oc nc = some x ∧ Shows (Component present) x nc

/-- An old child becomes one that shows the new child. -/
theorem patchChild_shows {oc nc : Node ι Bytes} (hnc : Renews copy focus present nc)
    (hfits : ∀ m ∈ nc.nodes, Fits present m) (hold : ∀ m ∈ oc.nodes, present m) :
    ∃ x, patchChild copy oc nc (renew copy focus oc nc) = some x ∧
      Shows (Component present) x nc := by
  cases hdiffers : differs oc nc with
  | true =>
    refine ⟨nc.clone copy, ?_, shows_clone fun m hm => (hfits m hm).comment⟩
    unfold patchChild
    rw [if_pos hdiffers]
  | false =>
    obtain ⟨htype, htag⟩ := differs_eq_false_iff.mp hdiffers
    have hif : ¬ differs oc nc = true := by simp [hdiffers]
    cases nc with
    | text j data =>
      cases oc with
      | text i d => exact ⟨.text i data, by rw [patchChild, if_neg hif], .text i j data⟩
      | comment i d => cases htype
      | element i tag as typed o => cases htype
    | comment j data => exact absurd rfl (hfits _ (mem_nodes_self _)).comment
    | element j tag as typed n =>
      have hone : oc.nodeType = 1 := htype
      obtain ⟨x, hx, hshows⟩ := hnc rfl oc hold (htag hone)
      have hpatch : patchChild copy oc (.element j tag as typed n)
          (renew copy focus oc (.element j tag as typed n)) =
          if oc.nodeType = 1 ∧ oc.hasAttribute wireId then some oc
          else renew copy focus oc (.element j tag as typed n) := by
        unfold patchChild
        rw [if_neg hif]
        cases oc <;> rfl
      by_cases hnested : oc.nodeType = 1 ∧ oc.hasAttribute wireId
      · exact ⟨oc, by rw [hpatch, if_pos hnested],
          .nested ⟨oc, hold _ (mem_nodes_self _), hnested.2, rfl⟩ hnested.2 (htag hone)⟩
      · exact ⟨x, by rw [hpatch, if_neg hnested, hx], hshows⟩

/-- The loops of `reconcile` leave children that show the new ones. -/
theorem reconcileLoop_shows {n : List (Node ι Bytes)}
    (hn : ∀ c ∈ n, Renews copy focus present c) (hfits : ∀ m ∈ nodesAll n, Fits present m)
    {o : List (Node ι Bytes)} (hold : ∀ m ∈ nodesAll o, present m) :
    ∃ rs, reconcileLoop copy focus o n = some rs ∧ ShowsAll (Component present) false rs n := by
  induction n generalizing o with
  | nil => exact ⟨[], by cases o <;> rfl, .nil false⟩
  | cons nc n ih =>
    rw [List.forall_mem_cons] at hn
    rw [nodesAll_cons, List.forall_mem_append] at hfits
    cases o with
    | nil =>
      obtain ⟨rs, hrs, hshows⟩ := ih hn.2 hfits.2 hold
      refine ⟨nc.clone copy :: rs, ?_, .cons ?_ hshows⟩
      · rw [reconcileLoop, hrs]
        rfl
      · exact shows_clone fun m hm => (hfits.1 m hm).comment
    | cons oc o =>
      rw [nodesAll_cons, List.forall_mem_append] at hold
      obtain ⟨rs, hrs, hshows⟩ := ih hn.2 hfits.2 hold.2
      obtain ⟨x, hx, hfirst⟩ := patchChild_shows hn.1 hfits.1 hold.1
      refine ⟨x :: rs, ?_, .cons hfirst hshows⟩
      rw [reconcileLoop, hx, hrs]
      rfl

/-- The loop of `reconcileKeyed` leaves children that show the new ones. -/
theorem reconcileKeyed_shows {n : List (Node ι Bytes)}
    (hn : ∀ c ∈ n, Renews copy focus present c) (hfits : ∀ m ∈ nodesAll n, Fits present m)
    {byKey : List (Node ι Bytes)} (hold : ∀ m ∈ nodesAll byKey, present m) :
    ∃ rs, reconcileKeyed copy focus byKey n = some rs ∧ ShowsAll (Component present) true rs n := by
  induction n generalizing byKey with
  | nil => exact ⟨[], rfl, .nil true⟩
  | cons nc n ih =>
    rw [List.forall_mem_cons] at hn
    rw [nodesAll_cons, List.forall_mem_append] at hfits
    have hclone : Shows (Component present) (nc.clone copy) nc :=
      shows_clone fun m hm => (hfits.1 m hm).comment
    rw [reconcileKeyed]
    split
    · rename_i hnot
      obtain ⟨rs, hrs, hshows⟩ := ih hn.2 hfits.2 hold
      exact ⟨rs, hrs, .between hnot hshows⟩
    · rename_i hone
      rw [not_not] at hone
      split
      · obtain ⟨rs, hrs, hshows⟩ := ih hn.2 hfits.2 hold
        exact ⟨_, by rw [hrs]; rfl, .cons hclone hshows⟩
      · rename_i hkey
        obtain ⟨k, hk⟩ : ∃ k, keyOf nc = some k := by
          cases hk : keyOf nc with
          | none => exact absurd (.inl hk) hkey
          | some k => exact ⟨k, rfl⟩
        cases hfound : getKey keyOf (keyOf nc) byKey with
        | none =>
          have hnot := (hfits.1 _ (mem_nodes_self nc)).key k hk
          obtain ⟨rs, hrs, hshows⟩ := ih hn.2 hfits.2 hold
          refine ⟨nc.clone copy :: rs, ?_, .cons hclone hshows⟩
          dsimp only
          rw [hk, Option.getD_some, if_neg hnot, hrs]
          rfl
        | some oc =>
          have hoc : oc ∈ byKey := List.mem_of_find?_eq_some hfound
          have hsame : keyOf oc = keyOf nc := by simpa using List.find?_some hfound
          have holdc : ∀ m ∈ oc.nodes, present m := fun m hm =>
            hold m (mem_nodesAll.mpr ⟨oc, hoc, hm⟩)
          have htag : oc.tagName = nc.tagName :=
            (hfits.1 _ (mem_nodes_self nc)).tag oc (holdc oc (mem_nodes_self oc)) k
              (hsame.trans hk) hk
          have herased : ∀ m ∈ nodesAll (eraseKey keyOf (keyOf nc) byKey), present m := by
            intro m hm
            obtain ⟨c, hc, hmc⟩ := mem_nodesAll.mp hm
            exact hold m (mem_nodesAll.mpr ⟨c, List.mem_of_mem_filter hc, hmc⟩)
          obtain ⟨rs, hrs, hshows⟩ := ih hn.2 hfits.2 herased
          obtain ⟨x, hx, hfirst⟩ : ∃ x, patchKeyed oc (renew copy focus oc nc) = some x ∧
              Shows (Component present) x nc := by
            rw [patchKeyed]
            split
            · rename_i hnested
              exact ⟨oc, rfl, .nested ⟨oc, holdc oc (mem_nodes_self oc), hnested, rfl⟩ hnested htag⟩
            · exact hn.1 hone oc holdc htag
          refine ⟨x :: rs, ?_, .cons hfirst hshows⟩
          dsimp only
          rw [hx, Option.bind_some, hrs]
          rfl

/-- What `reconcile` does with children, if each can be made. -/
theorem reconcile_shows_of_renews {o n : List (Node ι Bytes)}
    (hn : ∀ c ∈ n, Renews copy focus present c) (hfits : ∀ m ∈ nodesAll n, Fits present m)
    (hold : ∀ m ∈ nodesAll o, present m) :
    ∃ rs, reconcile copy focus o n = some rs ∧
      ShowsAll (Component present) (n.any hasKey) rs n := by
  rw [reconcile]
  by_cases hkeyed : n.any hasKey
  · rw [if_pos hkeyed, hkeyed]
    refine reconcileKeyed_shows hn hfits fun m hm => ?_
    obtain ⟨c, hc, hmc⟩ := mem_nodesAll.mp hm
    refine hold m (mem_nodesAll.mpr ⟨c, ?_, hmc⟩)
    exact List.mem_of_mem_filter (List.mem_reverse.mp hc)
  · rw [if_neg hkeyed, Bool.eq_false_iff.mpr hkeyed]
    exact reconcileLoop_shows hn hfits hold

/-- `renew` comes down to the children, so this is an induction over the HTML. -/
theorem renews_of_fits {nc : Node ι Bytes} (hfits : ∀ m ∈ nc.nodes, Fits present m) :
    Renews copy focus present nc := by
  induction nc using Node.induct with
  | text i d =>
    intro h
    cases h
  | comment i d =>
    intro h
    cases h
  | element j tag' as' typed' n ih =>
    intro _ oc hold htag
    have hbelow : ∀ m ∈ nodesAll n, Fits present m := fun m hm =>
      hfits m (List.mem_cons_of_mem _ hm)
    have hn : ∀ c ∈ n, Renews copy focus present c := fun c hc =>
      ih c hc fun m hm => hbelow m (mem_nodesAll.mpr ⟨c, hc, hm⟩)
    cases oc with
    | text i d => cases htag
    | comment i d => cases htag
    | element i tag as typed o =>
      obtain rfl : tag = tag' := Option.some.inj htag
      have holdc : ∀ m ∈ nodesAll o, present m := fun m hm => hold m (List.mem_cons_of_mem _ hm)
      obtain ⟨rs, hrs, hshows⟩ := reconcile_shows_of_renews hn hbelow holdc
      rw [renew_element, hrs]
      exact ⟨_, rfl, .element (fun name => .inl (syncAttributes_same as as' name)) hshows⟩

/-- **A morphed component shows the HTML**, and the patching does not throw. -/
theorem reconcile_shows {o n : List (Node ι Bytes)} (hfits : ∀ m ∈ nodesAll n, Fits present m)
    (hold : ∀ m ∈ nodesAll o, present m) :
    ∃ rs, reconcile copy focus o n = some rs ∧
      ShowsAll (Component present) (n.any hasKey) rs n := by
  refine reconcile_shows_of_renews (fun c hc => renews_of_fits fun m hm => ?_) hfits hold
  exact hfits m (mem_nodesAll.mpr ⟨c, hc, hm⟩)

end

end CppLaravel.Livewire
