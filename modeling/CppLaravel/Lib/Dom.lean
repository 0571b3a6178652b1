import CppLaravel.Lib.Keyed
import Mathlib.Data.List.Flatten
import Mathlib.Data.List.Perm.Basic

/-!
# `CppLaravel.Lib.Dom`: trees of nodes as a browser keeps them

A node has an identity, by which a program holds on to it, and a content: a text, a comment, or an
element with attributes and children. An element also remembers what a user has typed into it.
`nodes` lists a tree, `clone` copies one under new identities, `replace` puts another node in the
place of one.
-/

set_option autoImplicit false

namespace CppLaravel.Lib.Dom

/-- The attributes of an element: no name occurs twice. -/
structure Attributes (σ : Type) where
  entries : List (σ × σ)
  nodup : (entries.map Prod.fst).Nodup

namespace Attributes

variable {σ : Type} [DecidableEq σ]

/-- `getAttribute`. -/
def get (as : Attributes σ) (name : σ) : Option σ :=
  (getKey Prod.fst name as.entries).map Prod.snd

/-- `hasAttribute`. -/
def has (as : Attributes σ) (name : σ) : Bool := (as.get name).isSome

/-- `removeAttribute`. -/
def remove (as : Attributes σ) (name : σ) : Attributes σ where
  entries := eraseKey Prod.fst name as.entries
  nodup := as.nodup.sublist (List.filter_sublist.map _)

/-- Two attribute lists with the same values under the same names. -/
def Same (as as' : Attributes σ) : Prop := ∀ name, as.get name = as'.get name

theorem not_has {as : Attributes σ} {name : σ} :
    ¬ as.has name ↔ name ∉ as.entries.map Prod.fst := by
  simp [has, get, getKey]

/-- `setAttribute`. -/
def set (as : Attributes σ) (name value : σ) : Attributes σ where
  entries :=
    if as.has name then setKey Prod.fst name (name, value) as.entries
    else as.entries ++ [(name, value)]
  nodup := by
    by_cases h : as.has name
    · rw [if_pos h, map_setKey (show Prod.fst (name, value) = name from rfl)]
      exact as.nodup
    · rw [if_neg h, List.map_append, List.map_singleton]
      exact List.nodup_append_comm.mp (List.nodup_cons.mpr ⟨not_has.mp h, as.nodup⟩)

theorem get_remove (as : Attributes σ) (name other : σ) :
    (as.remove name).get other = if other = name then none else as.get other := by
  by_cases h : other = name
  · subst h
    simp [get, remove, getKey, eraseKey]
  · rw [if_neg h, get, remove, getKey_eraseKey_ne h]
    rfl

theorem entries_set (as : Attributes σ) (name value : σ) :
    (as.set name value).entries =
      if as.has name then setKey Prod.fst name (name, value) as.entries
      else as.entries ++ [(name, value)] := rfl

theorem get_set (as : Attributes σ) (name value other : σ) :
    (as.set name value).get other = if other = name then some value else as.get other := by
  have hname : Prod.fst (name, value) = name := rfl
  rw [get, entries_set]
  by_cases h : as.has name
  · rw [if_pos h]
    by_cases ho : other = name
    · subst ho
      obtain ⟨e, he, -⟩ := Option.map_eq_some_iff.mp (Option.eq_some_of_isSome h)
      rw [if_pos rfl, getKey_setKey_self hname, he]
      rfl
    · rw [if_neg ho, getKey_setKey_ne hname ho]
      rfl
  · rw [if_neg h, getKey_append, getKey_cons, getKey_nil]
    by_cases ho : other = name
    · subst ho
      have hnone : getKey Prod.fst other as.entries = none := by
        simpa [has, get] using h
      rw [hnone, if_pos rfl, if_pos rfl]
      rfl
    · rw [if_neg ho, if_neg (Ne.symm ho), Option.or_none]
      rfl

/-- A value that is there is found under its name only once. -/
theorem get_of_mem {as : Attributes σ} {e : σ × σ} (h : e ∈ as.entries) :
    as.get e.1 = some e.2 := by
  rw [get, (getKey_eq_some_iff as.nodup).mpr ⟨h, rfl⟩]
  rfl

end Attributes

/-- A node of a tree. -/
inductive Node (ι σ : Type) where
  | text (id : ι) (data : σ)
  | comment (id : ι) (data : σ)
  | element (id : ι) (tag : σ) (attributes : Attributes σ) (typed : Option σ)
      (children : List (Node ι σ))

namespace Node

variable {ι σ : Type}

/-- The identity of a node. -/
def id : Node ι σ → ι
  | text i _ => i
  | comment i _ => i
  | element i _ _ _ _ => i

/-- `nodeType`. -/
def nodeType : Node ι σ → Nat
  | text _ _ => 3
  | comment _ _ => 8
  | element _ _ _ _ _ => 1

/-- `tagName`. -/
def tagName : Node ι σ → Option σ
  | element _ tag _ _ _ => some tag
  | _ => none

/-- `childNodes`. -/
def children : Node ι σ → List (Node ι σ)
  | element _ _ _ _ cs => cs
  | _ => []

/-- What a user has typed. -/
def typed : Node ι σ → Option σ
  | element _ _ _ t _ => t
  | _ => none

/-- An element with other children. -/
def withChildren (n : Node ι σ) (cs : List (Node ι σ)) : Node ι σ :=
  match n with
  | element i tag as t _ => element i tag as t cs
  | n => n

/-- `getAttribute`. -/
def getAttribute [DecidableEq σ] (n : Node ι σ) (name : σ) : Option σ :=
  match n with
  | element _ _ as _ _ => as.get name
  | _ => none

/-- `hasAttribute`. -/
def hasAttribute [DecidableEq σ] (n : Node ι σ) (name : σ) : Bool := (n.getAttribute name).isSome

/-- Induction over a tree: an element, from its children. -/
theorem induct {P : Node ι σ → Prop} (text : ∀ i d, P (.text i d))
    (comment : ∀ i d, P (.comment i d))
    (element : ∀ i tag as t cs, (∀ c ∈ cs, P c) → P (.element i tag as t cs)) (n : Node ι σ) :
    P n :=
  @Node.rec ι σ P (fun cs => ∀ c ∈ cs, P c) text comment element (List.forall_mem_nil _)
    (fun _ _ h hs => List.forall_mem_cons.mpr ⟨h, hs⟩) n

mutual

/-- The nodes of a tree, each before those below it. -/
def nodes : Node ι σ → List (Node ι σ)
  | text i d => [text i d]
  | comment i d => [comment i d]
  | element i tag as t cs => element i tag as t cs :: nodesAll cs

/-- The nodes of a list of trees. -/
def nodesAll : List (Node ι σ) → List (Node ι σ)
  | [] => []
  | c :: cs => nodes c ++ nodesAll cs

end

mutual

/-- `cloneNode(true)`. -/
def clone (copy : ι → ι) : Node ι σ → Node ι σ
  | text i d => text (copy i) d
  | comment i d => comment (copy i) d
  | element i tag as t cs => element (copy i) tag as t (cloneAll copy cs)

/-- The copies of a list of trees. -/
def cloneAll (copy : ι → ι) : List (Node ι σ) → List (Node ι σ)
  | [] => []
  | c :: cs => clone copy c :: cloneAll copy cs

end

mutual

/-- The node `r` in the place of the node with the identity `i`. -/
def replace [DecidableEq ι] (n : Node ι σ) (i : ι) (r : Node ι σ) : Node ι σ :=
  match n with
  | text j d => if j = i then r else text j d
  | comment j d => if j = i then r else comment j d
  | element j tag as t cs => if j = i then r else element j tag as t (replaceAll cs i r)

/-- A replacement in a list of trees. -/
def replaceAll [DecidableEq ι] (cs : List (Node ι σ)) (i : ι) (r : Node ι σ) : List (Node ι σ) :=
  match cs with
  | [] => []
  | c :: cs => replace c i r :: replaceAll cs i r

end

/-! ### The nodes of a tree -/

theorem nodes_element (i : ι) (tag : σ) (as : Attributes σ) (t : Option σ) (cs : List (Node ι σ)) :
    (element i tag as t cs).nodes = element i tag as t cs :: nodesAll cs := rfl

@[simp] theorem nodesAll_nil : nodesAll ([] : List (Node ι σ)) = [] := rfl

@[simp] theorem nodesAll_cons (c : Node ι σ) (cs : List (Node ι σ)) :
    nodesAll (c :: cs) = c.nodes ++ nodesAll cs := rfl

theorem cloneAll_cons (copy : ι → ι) (c : Node ι σ) (cs : List (Node ι σ)) :
    cloneAll copy (c :: cs) = c.clone copy :: cloneAll copy cs := rfl

theorem replaceAll_cons [DecidableEq ι] (c : Node ι σ) (cs : List (Node ι σ)) (i : ι)
    (r : Node ι σ) : replaceAll (c :: cs) i r = c.replace i r :: replaceAll cs i r := rfl

theorem mem_nodes_self (n : Node ι σ) : n ∈ n.nodes := by
  cases n with
  | text i d => exact List.mem_singleton_self _
  | comment i d => exact List.mem_singleton_self _
  | element i tag as t cs => exact List.mem_cons_self

theorem nodes_eq (n : Node ι σ) : n.nodes = n :: nodesAll n.children := by
  cases n <;> rfl

theorem nodesAll_eq_flatMap (cs : List (Node ι σ)) : nodesAll cs = cs.flatMap nodes := by
  induction cs with
  | nil => rfl
  | cons c cs ih => rw [nodesAll_cons, ih, List.flatMap_cons]

theorem mem_nodesAll {cs : List (Node ι σ)} {m : Node ι σ} :
    m ∈ nodesAll cs ↔ ∃ c ∈ cs, m ∈ c.nodes := by
  rw [nodesAll_eq_flatMap, List.mem_flatMap]

/-- Some of the trees have some of the nodes. -/
theorem nodesAll_subperm {cs cs' : List (Node ι σ)} (h : cs.Subperm cs') :
    (nodesAll cs).Subperm (nodesAll cs') := by
  obtain ⟨l, hperm, hsub⟩ := h
  rw [nodesAll_eq_flatMap, nodesAll_eq_flatMap]
  exact (hperm.symm.flatMap_right nodes).subperm.trans (hsub.flatMap nodes).subperm

theorem mem_nodesAll_of_mem {cs : List (Node ι σ)} {c : Node ι σ} (h : c ∈ cs) :
    c ∈ nodesAll cs := mem_nodesAll.mpr ⟨c, h, mem_nodes_self c⟩

/-- The nodes of a node below are nodes below. -/
theorem nodes_subset {n m : Node ι σ} (h : m ∈ n.nodes) : m.nodes ⊆ n.nodes := by
  induction n using induct with
  | text i d =>
    obtain rfl := List.mem_singleton.mp h
    exact List.Subset.refl _
  | comment i d =>
    obtain rfl := List.mem_singleton.mp h
    exact List.Subset.refl _
  | element i tag as t cs ih =>
    rcases List.mem_cons.mp h with rfl | h
    · exact List.Subset.refl _
    · obtain ⟨c, hc, hm⟩ := mem_nodesAll.mp h
      intro x hx
      exact List.mem_cons_of_mem _ (mem_nodesAll.mpr ⟨c, hc, ih c hc hm hx⟩)

theorem nodes_subset_nodesAll {cs : List (Node ι σ)} {m : Node ι σ} (h : m ∈ nodesAll cs) :
    m.nodes ⊆ nodesAll cs := by
  obtain ⟨c, hc, hm⟩ := mem_nodesAll.mp h
  intro x hx
  exact mem_nodesAll.mpr ⟨c, hc, nodes_subset hm hx⟩

theorem nodesAll_children_subset {n m : Node ι σ} (h : m ∈ n.nodes) :
    nodesAll m.children ⊆ n.nodes := by
  intro x hx
  refine nodes_subset h ?_
  rw [nodes_eq]
  exact List.mem_cons_of_mem _ hx

theorem cloneAll_eq_map (copy : ι → ι) (cs : List (Node ι σ)) :
    cloneAll copy cs = cs.map (clone copy) := by
  induction cs with
  | nil => rfl
  | cons c cs ih => rw [cloneAll_cons, ih, List.map_cons]

theorem replaceAll_eq_map [DecidableEq ι] (i : ι) (r : Node ι σ) (cs : List (Node ι σ)) :
    replaceAll cs i r = cs.map (·.replace i r) := by
  induction cs with
  | nil => rfl
  | cons c cs ih => rw [replaceAll_cons, ih, List.map_cons]

/-- A node is the only one with its identity. -/
theorem eq_of_id_eq {t m m' : Node ι σ} (hnodup : (t.nodes.map id).Nodup) (hm : m ∈ t.nodes)
    (hm' : m' ∈ t.nodes) (h : m.id = m'.id) : m = m' :=
  List.inj_on_of_nodup_map hnodup hm hm' h

/-! ### Copies -/

mutual

/-- The identities of a copy are the copied ones, in the same order. -/
theorem ids_clone (copy : ι → ι) :
    (n : Node ι σ) → (n.clone copy).nodes.map id = n.nodes.map fun m => copy m.id
  | text _ _ => rfl
  | comment _ _ => rfl
  | element _ _ _ _ cs => congrArg (List.cons _) (ids_cloneAll copy cs)

theorem ids_cloneAll (copy : ι → ι) : (cs : List (Node ι σ)) →
    (nodesAll (cloneAll copy cs)).map id = (nodesAll cs).map fun m => copy m.id
  | [] => rfl
  | c :: cs => by
    rw [cloneAll_cons, nodesAll_cons, nodesAll_cons, List.map_append, List.map_append,
      ids_clone copy c, ids_cloneAll copy cs]

end

@[simp] theorem tagName_clone (copy : ι → ι) (n : Node ι σ) :
    (n.clone copy).tagName = n.tagName := by
  cases n <;> rfl

@[simp] theorem getAttribute_clone [DecidableEq σ] (copy : ι → ι) (n : Node ι σ) (name : σ) :
    (n.clone copy).getAttribute name = n.getAttribute name := by
  cases n <;> rfl

@[simp] theorem id_clone (copy : ι → ι) (n : Node ι σ) : (n.clone copy).id = copy n.id := by
  cases n <;> rfl

/-! ### Replacements -/

section

variable [DecidableEq ι] {i : ι} {r : Node ι σ}

theorem replace_self {n : Node ι σ} (h : n.id = i) : n.replace i r = r := by
  cases n with
  | text j d => exact if_pos h
  | comment j d => exact if_pos h
  | element j tag as t cs => exact if_pos h

/-- Of a node with another identity only the children are gone through. -/
theorem replace_of_ne {n : Node ι σ} (h : n.id ≠ i) :
    n.replace i r = n.withChildren (replaceAll n.children i r) := by
  cases n with
  | text j d => exact if_neg h
  | comment j d => exact if_neg h
  | element j tag as t cs => exact if_neg h

theorem id_replace {n : Node ι σ} (h : n.id ≠ i) : (n.replace i r).id = n.id := by
  rw [replace_of_ne h]
  cases n <;> rfl

theorem tagName_replace {n : Node ι σ} (h : n.id ≠ i) : (n.replace i r).tagName = n.tagName := by
  rw [replace_of_ne h]
  cases n <;> rfl

theorem typed_replace {n : Node ι σ} (h : n.id ≠ i) : (n.replace i r).typed = n.typed := by
  rw [replace_of_ne h]
  cases n <;> rfl

theorem children_replace {n : Node ι σ} (h : n.id ≠ i) :
    (n.replace i r).children = replaceAll n.children i r := by
  rw [replace_of_ne h]
  cases n <;> rfl

theorem getAttribute_replace [DecidableEq σ] {n : Node ι σ} (h : n.id ≠ i) (name : σ) :
    (n.replace i r).getAttribute name = n.getAttribute name := by
  rw [replace_of_ne h]
  cases n <;> rfl

/-- A node after a replacement is one of those put in, or an old one with the replacement made
below it. -/
theorem mem_nodes_replace {t m : Node ι σ} (h : m ∈ (t.replace i r).nodes) :
    m ∈ r.nodes ∨ ∃ m₀ ∈ t.nodes, m₀.id ≠ i ∧ m = m₀.replace i r := by
  by_cases hi : t.id = i
  · rw [replace_self hi] at h
    exact .inl h
  induction t using induct with
  | text j d =>
    have hself : (text j d).replace i r = (text j d) := if_neg hi
    rw [hself] at h
    obtain rfl := List.mem_singleton.mp h
    exact .inr ⟨_, mem_nodes_self _, hi, hself.symm⟩
  | comment j d =>
    have hself : (comment j d).replace i r = (comment j d) := if_neg hi
    rw [hself] at h
    obtain rfl := List.mem_singleton.mp h
    exact .inr ⟨_, mem_nodes_self _, hi, hself.symm⟩
  | element j tag as t cs ih =>
    have hself : (element j tag as t cs).replace i r = element j tag as t (replaceAll cs i r) :=
      replace_of_ne hi
    rw [hself] at h
    rcases List.mem_cons.mp h with rfl | h
    · exact .inr ⟨_, mem_nodes_self _, hi, hself.symm⟩
    · rw [replaceAll_eq_map] at h
      obtain ⟨c', hc', hm⟩ := mem_nodesAll.mp h
      obtain ⟨c, hc, rfl⟩ := List.mem_map.mp hc'
      by_cases hci : c.id = i
      · rw [replace_self hci] at hm
        exact .inl hm
      · refine (ih c hc hm hci).imp_right ?_
        rintro ⟨m₀, hm₀, hne, heq⟩
        exact ⟨m₀, List.mem_cons_of_mem _ (mem_nodesAll.mpr ⟨c, hc, hm₀⟩), hne, heq⟩

/-- A replacement where there is nothing to replace. -/
theorem replace_of_notMem {t : Node ι σ} (h : ∀ m ∈ t.nodes, m.id ≠ i) : t.replace i r = t := by
  induction t using induct with
  | text j d => exact if_neg (h _ (mem_nodes_self _))
  | comment j d => exact if_neg (h _ (mem_nodes_self _))
  | element j tag as t cs ih =>
    rw [replace_of_ne (h _ (mem_nodes_self _))]
    change element j tag as t (replaceAll cs i r) = _
    rw [replaceAll_eq_map]
    congr 1
    refine (List.map_congr_left fun c hc => ih c hc fun m hm => ?_).trans (List.map_id cs)
    exact h m (List.mem_cons_of_mem _ (mem_nodesAll.mpr ⟨c, hc, hm⟩))

theorem replaceAll_of_notMem {cs : List (Node ι σ)} (h : ∀ m ∈ nodesAll cs, m.id ≠ i) :
    replaceAll cs i r = cs := by
  rw [replaceAll_eq_map]
  refine (List.map_congr_left fun c hc => ?_).trans (List.map_id cs)
  exact replace_of_notMem fun m hm => h m (mem_nodesAll.mpr ⟨c, hc, hm⟩)

/-- What is put in is there afterwards. -/
theorem mem_nodes_replace_self {t el : Node ι σ} (hel : el ∈ t.nodes) :
    r ∈ (t.replace el.id r).nodes := by
  by_cases hi : t.id = el.id
  · rw [replace_self hi]
    exact mem_nodes_self r
  induction t using induct with
  | text j d => exact absurd (List.mem_singleton.mp hel ▸ rfl) hi
  | comment j d => exact absurd (List.mem_singleton.mp hel ▸ rfl) hi
  | element j tag as t cs ih =>
    rcases List.mem_cons.mp hel with rfl | hin
    · exact absurd rfl hi
    · obtain ⟨c, hc, hmem⟩ := mem_nodesAll.mp hin
      have hr : r ∈ (c.replace el.id r).nodes := by
        by_cases hci : c.id = el.id
        · rw [replace_self hci]
          exact mem_nodes_self r
        · exact ih c hc hmem hci
      rw [replace_of_ne hi, replaceAll_eq_map]
      exact List.mem_cons_of_mem _ (mem_nodesAll.mpr ⟨_, List.mem_map_of_mem hc, hr⟩)

/-- What has to be counted: the identities after a replacement are those of the tree without those
of the old node, and those of the new one. -/
theorem count_replaceAll {cs : List (Node ι σ)} {el : Node ι σ} {j : ι}
    (ih : ∀ c ∈ cs, (c.nodes.map id).Nodup → el ∈ c.nodes →
      ((c.replace el.id r).nodes.map id).count j + (el.nodes.map id).count j =
        (c.nodes.map id).count j + (r.nodes.map id).count j)
    (hnodup : ((nodesAll cs).map id).Nodup) (hel : el ∈ nodesAll cs) :
    ((nodesAll (replaceAll cs el.id r)).map id).count j + (el.nodes.map id).count j =
      ((nodesAll cs).map id).count j + (r.nodes.map id).count j := by
  induction cs with
  | nil => cases hel
  | cons c cs ihcs =>
    rw [nodesAll_cons, List.map_append, List.nodup_append] at hnodup
    rw [List.forall_mem_cons] at ih
    rw [replaceAll_cons, nodesAll_cons, nodesAll_cons, List.map_append, List.map_append,
      List.count_append, List.count_append]
    rcases List.mem_append.mp hel with hin | hin
    · have hrest : replaceAll cs el.id r = cs := replaceAll_of_notMem fun m hm heq =>
        hnodup.2.2 el.id (List.mem_map_of_mem hin) m.id (List.mem_map_of_mem hm) heq.symm
      have := ih.1 hnodup.1 hin
      rw [hrest]
      omega
    · have hfirst : c.replace el.id r = c := replace_of_notMem fun m hm heq =>
        hnodup.2.2 m.id (List.mem_map_of_mem hm) el.id (List.mem_map_of_mem hin) heq
      have := ihcs ih.2 hnodup.2.1 hin
      rw [hfirst]
      omega

theorem count_replace {t el : Node ι σ} (hnodup : (t.nodes.map id).Nodup) (hel : el ∈ t.nodes)
    (j : ι) :
    ((t.replace el.id r).nodes.map id).count j + (el.nodes.map id).count j =
      (t.nodes.map id).count j + (r.nodes.map id).count j := by
  induction t using induct with
  | text k d =>
    obtain rfl := List.mem_singleton.mp hel
    rw [replace_self rfl, Nat.add_comm]
  | comment k d =>
    obtain rfl := List.mem_singleton.mp hel
    rw [replace_self rfl, Nat.add_comm]
  | element k tag as t cs ih =>
    rcases List.mem_cons.mp hel with rfl | hin
    · rw [replace_self rfl, Nat.add_comm]
    · rw [nodes_element, List.map_cons, List.nodup_cons] at hnodup
      have hmem : el.id ∈ (nodesAll cs).map id := List.mem_map_of_mem hin
      have hne : k ≠ el.id := fun h => hnodup.1 (show k ∈ _ from h.symm ▸ hmem)
      have := count_replaceAll ih hnodup.2 hin
      have hself : (element k tag as t cs).replace el.id r =
          element k tag as t (replaceAll cs el.id r) := replace_of_ne hne
      rw [hself, nodes_element, nodes_element, List.map_cons, List.map_cons, List.count_cons,
        List.count_cons]
      change _ + (if k == j then 1 else 0) + _ = _ + (if k == j then 1 else 0) + _
      omega

end

end Node

end CppLaravel.Lib.Dom
