import CppLaravel.Proofs.Livewire.Morph

/-!
# `CppLaravel.Proofs.Livewire.Origin`: where the nodes of a morphed page come from

`reconcile` never uses a node twice: a node of the result is an old one, the same throughout, or an
old one that no component has, patched, or a copy (`Traced`). So a nested component is left alone,
and so is what is being typed.
-/

set_option autoImplicit false

namespace CppLaravel.Livewire

open CppLaravel.Lib CppLaravel.Lib.Dom
open CppLaravel.Lib.Dom.Node hiding id

variable {ι : Type} {copy : ι → ι} {focus : Option ι}

/-- Where a node of the page comes from. -/
inductive Origin (copy : ι → ι) (focus : Option ι) (old new : List (Node ι Bytes))
    (m : Node ι Bytes) : Prop
  | unchanged (h : m ∈ old)
  | copied (c : Node ι Bytes) (hc : c ∈ new) (hid : m.id = copy c.id)
  | patched (c : Node ι Bytes) (hc : c ∈ old) (hid : m.id = c.id)
      (hown : ¬ c.hasAttribute wireId) (htyped : focus = some c.id → m.typed = c.typed)

theorem Origin.mono {old new old' new' : List (Node ι Bytes)} {m : Node ι Bytes}
    (h : Origin copy focus old new m) (hold : old ⊆ old') (hnew : new ⊆ new') :
    Origin copy focus old' new' m := by
  cases h with
  | unchanged h => exact .unchanged (hold h)
  | copied c hc hid => exact .copied c (hnew hc) hid
  | patched c hc hid hown htyped => exact .patched c (hold hc) hid hown htyped

/-- A child that is found under its key, and those that are left after it is deleted. -/
theorem cons_eraseKey_subperm {k : Option Bytes} {byKey : List (Node ι Bytes)} {oc : Node ι Bytes}
    (h : getKey keyOf k byKey = some oc) :
    (oc :: eraseKey keyOf k byKey).Subperm byKey := by
  have hsame : keyOf oc = k := by simpa using List.find?_some h
  refine List.cons_subperm_of_not_mem_of_mem (fun hmem => ?_) (List.mem_of_find?_eq_some h)
    List.filter_sublist.subperm
  exact of_decide_eq_true (List.mem_filter.mp hmem).2 hsame

theorem hasKey_iff {c : Node ι Bytes} : hasKey c ↔ c.nodeType = 1 ∧ (keyOf c).isSome := by
  rw [hasKey, hasAttribute, ← keyOf, Bool.and_eq_true, decide_eq_true_iff]

/-- The identity of the child that a new child becomes: that of the old child with its key. -/
def identity (copy : ι → ι) (byKey : List (Node ι Bytes)) (nc : Node ι Bytes) : ι :=
  if keyOf nc = none ∨ keyOf nc = some [] then copy nc.id
  else ((getKey keyOf (keyOf nc) byKey).map Node.id).getD (copy nc.id)

/-- Children with other keys are found as before. -/
theorem identity_eraseKey {k : Option Bytes} {byKey : List (Node ι Bytes)} {nc : Node ι Bytes}
    (h : keyOf nc ≠ k) : identity copy (eraseKey keyOf k byKey) nc = identity copy byKey nc := by
  rw [identity, identity, getKey_eraseKey_ne h]

variable [DecidableEq ι]

/-- The nodes come from old and new ones, none of which is used twice. -/
structure Traced (copy : ι → ι) (focus : Option ι) (old new res : List (Node ι Bytes)) : Prop where
  origin : ∀ m ∈ res, Origin copy focus old new m
  count : ∀ i, (res.map Node.id).count i ≤
    (old.map Node.id).count i + (new.map fun m => copy m.id).count i

namespace Traced

variable {old new res old' new' res' : List (Node ι Bytes)}

theorem nil (old new : List (Node ι Bytes)) : Traced copy focus old new [] where
  origin := fun _ hm => by cases hm
  count := fun _ => Nat.zero_le _

/-- The rest of the old nodes may be left over. -/
theorem mono (h : Traced copy focus old new res) (hold : old.Subperm old') :
    Traced copy focus old' new res where
  origin := fun m hm => (h.origin m hm).mono hold.subset (List.Subset.refl _)
  count := fun i => by
    obtain ⟨l, hperm, hsub⟩ := hold
    have hle : (old.map Node.id).count i ≤ (old'.map Node.id).count i :=
      (hperm.symm.map Node.id).count_eq i ▸ (hsub.map Node.id).count_le i
    have := h.count i
    omega

/-- What comes from one part and what comes from another. -/
theorem append (h : Traced copy focus old new res) (h' : Traced copy focus old' new' res') :
    Traced copy focus (old ++ old') (new ++ new') (res ++ res') where
  origin := fun m hm => by
    rcases List.mem_append.mp hm with hm | hm
    · exact (h.origin m hm).mono (List.subset_append_left _ _) (List.subset_append_left _ _)
    · exact (h'.origin m hm).mono (List.subset_append_right _ _) (List.subset_append_right _ _)
  count := fun i => by
    have := h.count i
    have := h'.count i
    simp only [List.map_append, List.count_append]
    omega

theorem self : Traced copy focus old new old where
  origin := fun _ hm => .unchanged hm
  count := fun _ => Nat.le_add_right _ _

theorem clone (old : List (Node ι Bytes)) (nc : Node ι Bytes) :
    Traced copy focus old nc.nodes (nc.clone copy).nodes where
  origin := fun m hm => by
    have hid : m.id ∈ (nc.clone copy).nodes.map Node.id := List.mem_map_of_mem hm
    rw [ids_clone] at hid
    obtain ⟨c, hc, heq⟩ := List.mem_map.mp hid
    exact .copied c hc heq.symm
  count := fun i => by
    rw [ids_clone]
    exact Nat.le_add_left _ _

/-- An element that is patched, from its children. -/
theorem patched {oc nc m : Node ι Bytes} (h : Traced copy focus old new res) (hid : m.id = oc.id)
    (hown : ¬ oc.hasAttribute wireId) (htyped : focus = some oc.id → m.typed = oc.typed) :
    Traced copy focus (oc :: old) (nc :: new) (m :: res) where
  origin := fun x hx => by
    rcases List.mem_cons.mp hx with rfl | hx
    · exact .patched oc List.mem_cons_self hid hown htyped
    · exact (h.origin x hx).mono (List.subset_cons_self _ _) (List.subset_cons_self _ _)
  count := fun i => by
    have := h.count i
    simp only [List.map_cons, List.count_cons, hid]
    omega

end Traced

/-- What has to be shown of a node of the HTML. -/
def Retraces (copy : ι → ι) (focus : Option ι) (nc : Node ι Bytes) : Prop :=
  ∀ oc x, ¬ oc.hasAttribute wireId → renew copy focus oc nc = some x →
    Traced copy focus oc.nodes nc.nodes x.nodes

theorem patchChild_traced {oc nc x : Node ι Bytes} (hnc : Retraces copy focus nc)
    (hx : patchChild copy oc nc (renew copy focus oc nc) = some x) :
    Traced copy focus oc.nodes nc.nodes x.nodes := by
  unfold patchChild at hx
  split at hx
  · obtain rfl := Option.some.inj hx
    exact .clone _ nc
  · split at hx
    · rename_i i d j data
      obtain rfl := Option.some.inj hx
      exact (Traced.nil _ _).patched rfl (by exact Bool.false_ne_true) fun _ => rfl
    · split at hx
      · obtain rfl := Option.some.inj hx
        exact .self
      · rename_i hnot
        refine hnc oc x (fun hown => hnot ⟨?_, hown⟩) hx
        cases oc with
        | text i d => cases hown
        | comment i d => cases hown
        | element i tag as typed o => rfl

theorem reconcileLoop_traced {n : List (Node ι Bytes)} (hn : ∀ c ∈ n, Retraces copy focus c)
    {o rs : List (Node ι Bytes)} (hrs : reconcileLoop copy focus o n = some rs) :
    Traced copy focus (nodesAll o) (nodesAll n) (nodesAll rs) := by
  induction n generalizing o rs with
  | nil =>
    have hnil : reconcileLoop copy focus o [] = some [] := by cases o <;> rfl
    obtain rfl := Option.some.inj (hnil.symm.trans hrs)
    exact .nil _ _
  | cons nc n ih =>
    rw [List.forall_mem_cons] at hn
    cases o with
    | nil =>
      rw [reconcileLoop] at hrs
      obtain ⟨xs, hxs, rfl⟩ := Option.map_eq_some_iff.mp hrs
      exact (Traced.clone [] nc).append (ih hn.2 hxs)
    | cons oc o =>
      rw [reconcileLoop] at hrs
      obtain ⟨x, hx, hrest⟩ := Option.bind_eq_some_iff.mp hrs
      obtain ⟨xs, hxs, rfl⟩ := Option.map_eq_some_iff.mp hrest
      exact (patchChild_traced hn.1 hx).append (ih hn.2 hxs)

theorem reconcileKeyed_traced {n : List (Node ι Bytes)} (hn : ∀ c ∈ n, Retraces copy focus c)
    {byKey rs : List (Node ι Bytes)} (hrs : reconcileKeyed copy focus byKey n = some rs) :
    Traced copy focus (nodesAll byKey) (nodesAll n) (nodesAll rs) := by
  induction n generalizing byKey rs with
  | nil =>
    obtain rfl := Option.some.inj hrs
    exact .nil _ _
  | cons nc n ih =>
    rw [List.forall_mem_cons] at hn
    have hclone : ∀ {xs}, reconcileKeyed copy focus byKey n = some xs →
        Traced copy focus (nodesAll byKey) (nodesAll (nc :: n))
          (nodesAll (nc.clone copy :: xs)) := fun hxs =>
      (Traced.clone [] nc).append (ih hn.2 hxs)
    rw [reconcileKeyed] at hrs
    split at hrs
    · exact (Traced.nil [] nc.nodes).append (ih hn.2 hrs)
    · split at hrs
      · obtain ⟨xs, hxs, rfl⟩ := Option.map_eq_some_iff.mp hrs
        exact hclone hxs
      · cases hfound : getKey keyOf (keyOf nc) byKey with
        | none =>
          rw [hfound] at hrs
          dsimp only at hrs
          split at hrs
          · cases hrs
          · obtain ⟨xs, hxs, rfl⟩ := Option.map_eq_some_iff.mp hrs
            exact hclone hxs
        | some oc =>
          rw [hfound] at hrs
          dsimp only at hrs
          obtain ⟨x, hx, hrest⟩ := Option.bind_eq_some_iff.mp hrs
          obtain ⟨xs, hxs, rfl⟩ := Option.map_eq_some_iff.mp hrest
          have hfirst : Traced copy focus oc.nodes nc.nodes x.nodes := by
            rw [patchKeyed] at hx
            split at hx
            · obtain rfl := Option.some.inj hx
              exact .self
            · exact hn.1 oc x ‹_› hx
          exact (hfirst.append (ih hn.2 hxs)).mono (nodesAll_subperm (cons_eraseKey_subperm hfound))

/-- `reconcile`, from what is known of the new children. -/
theorem reconcile_traced_of_retraces {n : List (Node ι Bytes)}
    (hn : ∀ c ∈ n, Retraces copy focus c) {o rs : List (Node ι Bytes)}
    (hrs : reconcile copy focus o n = some rs) :
    Traced copy focus (nodesAll o) (nodesAll n) (nodesAll rs) := by
  rw [reconcile] at hrs
  split at hrs
  · refine (reconcileKeyed_traced hn hrs).mono (nodesAll_subperm ?_)
    exact (List.reverse_perm _).subperm.trans List.filter_sublist.subperm
  · exact reconcileLoop_traced hn hrs

theorem retraces (nc : Node ι Bytes) : Retraces copy focus nc := by
  induction nc using Node.induct with
  | text i d =>
    intro oc x _ hx
    cases hx
  | comment i d =>
    intro oc x _ hx
    cases hx
  | element j tag' as' typed' n ih =>
    intro oc x hown hx
    cases oc with
    | text i d => cases hx
    | comment i d => cases hx
    | element i tag as typed o =>
      rw [renew_element] at hx
      obtain ⟨rs, hrs, rfl⟩ := Option.map_eq_some_iff.mp hx
      refine (reconcile_traced_of_retraces ih hrs).patched rfl hown fun hfocus => ?_
      -- What is typed into the focused element stays.
      change syncValue _ _ _ _ _ _ = _
      rw [syncValue, if_neg fun h => h.2.1 hfocus]
      rfl

/-- **Every node of a morphed component comes from one place.** -/
theorem reconcile_traced {o n rs : List (Node ι Bytes)}
    (hrs : reconcile copy focus o n = some rs) :
    Traced copy focus (nodesAll o) (nodesAll n) (nodesAll rs) :=
  reconcile_traced_of_retraces (fun nc _ => retraces nc) hrs

/-! ### Identities of children with keys -/

theorem id_renew {oc nc x : Node ι Bytes} (h : renew copy focus oc nc = some x) :
    x.id = oc.id := by
  cases nc with
  | text i d => cases h
  | comment i d => cases h
  | element j tag' as' typed' n =>
    cases oc with
    | text i d => cases h
    | comment i d => cases h
    | element i tag as typed o =>
      rw [renew_element] at h
      obtain ⟨rs, -, rfl⟩ := Option.map_eq_some_iff.mp h
      rfl

theorem id_patchKeyed {oc nc x : Node ι Bytes}
    (h : patchKeyed oc (renew copy focus oc nc) = some x) : x.id = oc.id := by
  rw [patchKeyed] at h
  split at h
  · rw [Option.some.inj h]
  · exact id_renew h

theorem reconcileKeyed_ids {n : List (Node ι Bytes)} {byKey rs : List (Node ι Bytes)}
    (hkeys : ((n.filter hasKey).map keyOf).Nodup)
    (hrs : reconcileKeyed copy focus byKey n = some rs) :
    rs.map Node.id = (n.filter (·.nodeType = 1)).map (identity copy byKey) := by
  induction n generalizing byKey rs with
  | nil =>
    obtain rfl := Option.some.inj hrs
    rfl
  | cons nc n ih =>
    have hrest : ((n.filter hasKey).map keyOf).Nodup :=
      hkeys.sublist (((List.sublist_cons_self nc n).filter hasKey).map keyOf)
    rw [reconcileKeyed] at hrs
    split at hrs
    · rename_i hnot
      rw [ih hrest hrs, List.filter_cons_of_neg (by simpa using hnot)]
    · rename_i hone
      rw [not_not] at hone
      rw [List.filter_cons_of_pos (by simpa using hone), List.map_cons]
      split at hrs
      · rename_i hnone
        obtain ⟨xs, hxs, rfl⟩ := Option.map_eq_some_iff.mp hrs
        rw [List.map_cons, ih hrest hxs, identity, if_pos hnone, id_clone]
      · rename_i hkey
        cases hfound : getKey keyOf (keyOf nc) byKey with
        | none =>
          rw [hfound] at hrs
          dsimp only at hrs
          split at hrs
          · cases hrs
          · obtain ⟨xs, hxs, rfl⟩ := Option.map_eq_some_iff.mp hrs
            rw [List.map_cons, ih hrest hxs, identity, if_neg hkey, hfound, id_clone]
            rfl
        | some oc =>
          rw [hfound] at hrs
          dsimp only at hrs
          obtain ⟨x, hx, hrest'⟩ := Option.bind_eq_some_iff.mp hrs
          obtain ⟨xs, hxs, rfl⟩ := Option.map_eq_some_iff.mp hrest'
          rw [List.map_cons, ih hrest hxs, identity, if_neg hkey, hfound, id_patchKeyed hx]
          -- No other new child has this key.
          refine congrArg (oc.id :: ·) (List.map_congr_left fun c hc =>
            identity_eraseKey fun heq => ?_)
          have hsome : (keyOf nc).isSome := by
            rw [Option.isSome_iff_ne_none]
            exact fun h => hkey (.inl h)
          obtain ⟨hc, hcone⟩ := List.mem_filter.mp hc
          have hnc : hasKey nc := hasKey_iff.mpr ⟨hone, hsome⟩
          have hck : hasKey c := hasKey_iff.mpr ⟨by simpa using hcone, heq ▸ hsome⟩
          rw [List.filter_cons_of_pos hnc, List.map_cons, List.nodup_cons] at hkeys
          exact hkeys.1 (heq ▸ List.mem_map_of_mem (List.mem_filter.mpr ⟨hc, hck⟩))

/-- **Children keep their identity under their key**, in the order of the HTML, whatever their
order on the page was. -/
theorem reconcile_ids {o n rs : List (Node ι Bytes)} (hkeyed : n.any hasKey)
    (hkeys : ((n.filter hasKey).map keyOf).Nodup)
    (hrs : reconcile copy focus o n = some rs) :
    rs.map Node.id = (n.filter (·.nodeType = 1)).map (identity copy (oldByKey o)) := by
  rw [reconcile, if_pos hkeyed] at hrs
  exact reconcileKeyed_ids hkeys hrs

/-- An item of a list with a key. -/
def item (i : Nat) (key : Bytes) : Node Nat Bytes :=
  .element i (bytes "LI") ⟨[(wireKey, key)], List.nodup_singleton _⟩ none []

theorem reconcile_ids_swapped : ∃ rs,
    reconcile (· + 3) none [item 0 (bytes "a"), item 1 (bytes "b"), item 2 (bytes "c")]
      [item 0 (bytes "c"), item 1 (bytes "d"), item 2 (bytes "a")] = some rs ∧
    rs.map Node.id = [2, 4, 0] := by
  refine ⟨_, rfl, ?_⟩
  refine reconcile_ids (n := [item 0 (bytes "c"), item 1 (bytes "d"), item 2 (bytes "a")])
    (o := [item 0 (bytes "a"), item 1 (bytes "b"), item 2 (bytes "c")]) ?_ ?_ rfl
  · decide
  · decide

end CppLaravel.Livewire
