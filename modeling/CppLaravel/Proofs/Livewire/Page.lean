import CppLaravel.Proofs.Livewire.Origin

/-!
# `CppLaravel.Proofs.Livewire.Page`: components on one page do not disturb each other

`shows_of_run`: after a response to a component, and any actions of all the others, in any order,
the component still shows its HTML and carries its state. What one action does to the nodes of the
page is said once, in `Page.Sound` and in `Shown`, and both go along a run.
-/

set_option autoImplicit false

namespace CppLaravel.Livewire

open CppLaravel.Lib CppLaravel.Lib.Dom
open CppLaravel.Lib.Dom.Node hiding id

variable {ι : Type} {kept : ι → Prop}

/-! ### What shows the HTML after a change -/

theorem Shows.tagName {m n : Node ι Bytes} (h : Shows kept m n) : m.tagName = n.tagName := by
  cases h with
  | text i j data => rfl
  | element hattributes hchildren => rfl
  | nested hkept hroot htag => exact htag

theorem ShowsAll.map {f : Node ι Bytes → Node ι Bytes} {keyed : Bool}
    {rs ns : List (Node ι Bytes)} (h : ShowsAll kept keyed rs ns)
    (hf : ∀ c ∈ rs, ∀ n, Shows kept c n → Shows kept (f c) n) :
    ShowsAll kept keyed (rs.map f) ns := by
  induction ns generalizing rs keyed with
  | nil =>
    cases h with
    | nil => exact .nil keyed
  | cons n ns ih =>
    cases h with
    | cons h hrest =>
      rw [List.forall_mem_cons] at hf
      exact .cons (hf.1 n h) (ih hrest hf.2)
    | between hn hrest => exact .between hn (ih hrest hf)

/-- A replacement that shows the same, somewhere below. -/
theorem Shows.replace [DecidableEq ι] {i : ι} {r m n : Node ι Bytes} (h : Shows kept m n)
    (hr : ∀ c ∈ m.nodes, c.id = i → ∀ n, Shows kept c n → Shows kept r n) :
    Shows kept (m.replace i r) n := by
  induction m using Node.induct generalizing n with
  | text j d =>
    by_cases hi : (Node.text j d : Node ι Bytes).id = i
    · rw [replace_self hi]
      exact hr _ (mem_nodes_self _) hi n h
    · rw [replace_of_ne hi]
      exact h
  | comment j d =>
    by_cases hi : (Node.comment j d : Node ι Bytes).id = i
    · rw [replace_self hi]
      exact hr _ (mem_nodes_self _) hi n h
    · rw [replace_of_ne hi]
      exact h
  | element j tag as t cs ih =>
    by_cases hi : (Node.element j tag as t cs).id = i
    · rw [replace_self hi]
      exact hr _ (mem_nodes_self _) hi n h
    · cases h with
      | element hattributes hchildren =>
        rw [replace_of_ne hi]
        refine .element hattributes ?_
        change ShowsAll _ _ (replaceAll cs i r) _
        rw [replaceAll_eq_map]
        exact hchildren.map fun c hc n hn => ih c hc hn fun x hx =>
          hr x (List.mem_cons_of_mem _ (mem_nodesAll.mpr ⟨c, hc, hx⟩))
      | nested hkept hroot htag =>
        refine .nested ?_ ?_ ?_
        · rw [id_replace hi]
          exact hkept
        · rw [hasAttribute, getAttribute_replace hi]
          exact hroot
        · rw [tagName_replace hi]
          exact htag

theorem ShowsAll.replaceAll [DecidableEq ι] {i : ι} {r : Node ι Bytes} {keyed : Bool}
    {rs ns : List (Node ι Bytes)} (h : ShowsAll kept keyed rs ns)
    (hr : ∀ c ∈ nodesAll rs, c.id = i → ∀ n, Shows kept c n → Shows kept r n) :
    ShowsAll kept keyed (Node.replaceAll rs i r) ns := by
  rw [replaceAll_eq_map]
  exact h.map fun c hc n hn => hn.replace fun x hx => hr x (mem_nodesAll.mpr ⟨c, hc, hx⟩)

/-! ### Changes of one element -/

/-- A change of an element's own attributes, other than its `wire:id`, or of what is typed. -/
structure Mild (f : Node ι Bytes → Node ι Bytes) : Prop where
  id : ∀ el, (f el).id = el.id
  tagName : ∀ el, (f el).tagName = el.tagName
  children : ∀ el, (f el).children = el.children
  wireId : ∀ el, (f el).hasAttribute wireId = el.hasAttribute wireId

theorem hasAttribute_set_ne {i : ι} {tag : Bytes} {as : Attributes Bytes} {typed : Option Bytes}
    {o : List (Node ι Bytes)} {name value other : Bytes} (h : other ≠ name) :
    (Node.element i tag (as.set name value) typed o).hasAttribute other =
      (Node.element i tag as typed o).hasAttribute other := by
  change ((as.set name value).get other).isSome = (as.get other).isSome
  rw [Attributes.get_set, if_neg h]

theorem setState_mild (state : Bytes) : Mild (ι := ι) (setState · state) where
  id := fun el => by cases el <;> rfl
  tagName := fun el => by cases el <;> rfl
  children := fun el => by cases el <;> rfl
  wireId := fun el => by
    cases el with
    | text i d => rfl
    | comment i d => rfl
    | element i tag as typed o => exact hasAttribute_set_ne (by decide)

theorem retype_mild (text : Bytes) : Mild (ι := ι) (retype · text) where
  id := fun el => by cases el <;> rfl
  tagName := fun el => by cases el <;> rfl
  children := fun el => by cases el <;> rfl
  wireId := fun el => by cases el <;> rfl

theorem restyle_mild (css : Bytes) : Mild (ι := ι) (restyle · css) where
  id := fun el => by cases el <;> rfl
  tagName := fun el => by cases el <;> rfl
  children := fun el => by cases el <;> rfl
  wireId := fun el => by
    cases el with
    | text i d => rfl
    | comment i d => rfl
    | element i tag as typed o =>
      rw [restyle]
      by_cases h : as.has wireLoading
      · rw [if_pos h]
        exact hasAttribute_set_ne (by decide)
      · rw [if_neg h]

theorem retype_shows {text : Bytes} {m n : Node ι Bytes} (h : Shows kept m n) :
    Shows kept (retype m text) n := by
  cases h with
  | text i j data => exact .text i j data
  | element hattributes hchildren => exact .element hattributes hchildren
  | nested hkept hroot htag =>
    have hmild := retype_mild (ι := ι) text
    exact .nested (hmild.id m ▸ hkept) ((hmild.wireId m).trans hroot) ((hmild.tagName m).trans htag)

theorem restyle_shows {css : Bytes} {m n : Node ι Bytes} (h : Shows kept m n) :
    Shows kept (restyle m css) n := by
  cases h with
  | text i j data => exact .text i j data
  | @element i j tag as as' typed typed' o n hattributes hchildren =>
    refine .element (fun name => ?_) hchildren
    by_cases hloading : as.has wireLoading
    · rw [if_pos hloading, Attributes.get_set]
      by_cases hname : name = style
      · -- The HTML's element is one of `[wire:loading]`, too.
        refine .inr ⟨hname, ?_⟩
        rcases hattributes wireLoading with heq | ⟨hstyle, -⟩
        · rw [Attributes.has, ← heq]
          exact hloading
        · exact absurd hstyle (by decide)
      · rw [if_neg hname]
        exact hattributes name
    · rw [if_neg hloading]
      exact hattributes name
  | nested hkept hroot htag =>
    have hmild := restyle_mild (ι := ι) css
    exact .nested (hmild.id m ▸ hkept) ((hmild.wireId m).trans hroot) ((hmild.tagName m).trans htag)

/-- HTML without keys and comments fits any page. -/
theorem fits_of_keyOf_eq_none {present : Node ι Bytes → Prop} {n : Node ι Bytes}
    (h : n.nodeType ≠ 8 ∧ keyOf n = none) : Fits present n where
  comment := h.1
  key := fun k hk => by
    rw [h.2] at hk
    cases hk
  tag := fun m _ k _ hk => by
    rw [h.2] at hk
    cases hk

/-! ### Pages -/

variable [DecidableEq ι] {roots : List ι} {p q : Page ι}

theorem find_eq_some {i : ι} {el : Node ι Bytes} (h : p.find i = some el) :
    el ∈ p.tree.nodes ∧ el.id = i :=
  ⟨List.mem_of_find?_eq_some h, by simpa using List.find?_some h⟩

theorem find_eq_none {i : ι} (h : p.find i = none) : ∀ m ∈ p.tree.nodes, m.id ≠ i := by
  intro m hm heq
  have := List.find?_eq_none.mp h m hm
  simp [heq] at this

/-- A node of a page on which `el` was replaced is what was put in, or is below it, or was there
before and has the replacement somewhere below. -/
theorem mem_nodes_of_replace {t el r m : Node ι Bytes} (h : m ∈ (t.replace el.id r).nodes) :
    m = r ∨ m ∈ nodesAll r.children ∨
      ∃ m₀ ∈ t.nodes, m₀.id ≠ el.id ∧ m = m₀.replace el.id r := by
  rcases mem_nodes_replace h with h | h
  · rw [nodes_eq] at h
    rcases List.mem_cons.mp h with h | h
    · exact .inl h
    · exact .inr (.inl h)
  · exact .inr (.inr h)

/-- What a change of one element makes of a page. -/
theorem modify_cases (p : Page ι) (i : ι) (f : Node ι Bytes → Node ι Bytes) :
    p.modify i f = p ∧ (∀ m ∈ p.tree.nodes, m.id ≠ i) ∨ ∃ el ∈ p.tree.nodes, el.id = i ∧
      p.modify i f = { p with tree := p.tree.replace el.id (f el) } := by
  rw [Page.modify]
  cases hfind : p.find i with
  | none => exact .inl ⟨rfl, find_eq_none hfind⟩
  | some el =>
    obtain ⟨hel, rfl⟩ := find_eq_some hfind
    exact .inr ⟨el, hel, rfl, rfl⟩

theorem Page.Sound.modify {f : Node ι Bytes → Node ι Bytes} (hp : p.Sound roots) (hf : Mild f)
    (i : ι) : (p.modify i f).Sound roots := by
  rcases modify_cases p i f with ⟨heq, -⟩ | ⟨el, hel, -, heq⟩
  · rw [heq]
    exact hp
  rw [heq]
  have hsub : nodesAll (f el).children ⊆ p.tree.nodes := by
    rw [hf.children]
    exact nodesAll_children_subset hel
  have hids : (f el).nodes.map Node.id = el.nodes.map Node.id := by
    rw [nodes_eq, nodes_eq el, hf.children, List.map_cons, List.map_cons, hf.id]
  refine ⟨?_, fun m hm => ?_, hp.nodup_used, hp.roots_used, fun m hm hroot => ?_⟩
  · rw [List.nodup_iff_count_le_one]
    intro j
    have hcount := count_replace (r := f el) hp.nodup hel j
    have hle := List.nodup_iff_count_le_one.mp hp.nodup j
    rw [hids] at hcount
    change (List.map Node.id (p.tree.replace el.id (f el)).nodes).count j ≤ 1
    omega
  · rcases mem_nodes_of_replace hm with rfl | hm | ⟨m₀, hm₀, hne, rfl⟩
    · rw [hf.id]
      exact hp.used el hel
    · exact hp.used m (hsub hm)
    · rw [id_replace hne]
      exact hp.used m₀ hm₀
  · rcases mem_nodes_of_replace hm with rfl | hm | ⟨m₀, hm₀, hne, rfl⟩
    · rw [hf.id] at hroot
      rw [hf.wireId]
      exact hp.wireId el hel hroot
    · exact hp.wireId m (hsub hm) hroot
    · rw [id_replace hne] at hroot
      rw [hasAttribute, getAttribute_replace hne]
      exact hp.wireId m₀ hm₀ hroot

/-- What a response comes to, for a root that is on the page. -/
structure Responded (p : Page ι) (el : Node ι Bytes) (copy : ι → ι) (state : Bytes)
    (html : List (Node ι Bytes)) (el' : Node ι Bytes) : Prop where
  id : el'.id = el.id
  tagName : el'.tagName = el.tagName
  typed : el'.typed = el.typed
  wireId : el'.hasAttribute wireId = el.hasAttribute wireId
  state : el'.getAttribute wireState = some state
  traced : Traced copy p.focus (nodesAll el.children) (nodesAll html) (nodesAll el'.children)
  shows : ShowsAll (Component (· ∈ p.tree.nodes)) (html.any hasKey) el'.children html

/-- **A response that can happen does not throw.** -/
theorem exists_responded {el : Node ι Bytes} {copy : ι → ι} {state : Bytes}
    {html : List (Node ι Bytes)} (hel : el ∈ p.tree.nodes) (hroot : el.hasAttribute wireId)
    (hfits : ∀ m ∈ nodesAll html, Fits (· ∈ p.tree.nodes) m) :
    ∃ el', morph copy p.focus (setState el state) html = some el' ∧
      Responded p el copy state html el' := by
  cases el with
  | text i d => cases hroot
  | comment i d => cases hroot
  | element i tag as typed o =>
    obtain ⟨rs, hrs, hshows⟩ : ∃ rs, reconcile copy p.focus o html = some rs ∧
        ShowsAll (Component (· ∈ p.tree.nodes)) (html.any hasKey) rs html :=
      reconcile_shows hfits fun m hm => nodes_subset hel (List.mem_cons_of_mem _ hm)
    refine ⟨.element i tag (as.set wireState state) typed rs, ?_, ?_⟩
    · change (reconcile copy p.focus o html).map _ = _
      rw [hrs]
      rfl
    · refine ⟨rfl, rfl, rfl, hasAttribute_set_ne (by decide), ?_, reconcile_traced hrs, hshows⟩
      change (as.set wireState state).get wireState = _
      rw [Attributes.get_set, if_pos rfl]

namespace Responded

variable {el el' : Node ι Bytes} {copy : ι → ι} {state : Bytes} {html : List (Node ι Bytes)}

/-- A root elsewhere in the component is left as it is. -/
theorem mem_of_root (h : Responded p el copy state html el') (hp : p.Sound roots)
    (hel : el ∈ p.tree.nodes) (hfresh : (p.used ++ copies copy html).Nodup) {m : Node ι Bytes}
    (hm : m ∈ nodesAll el'.children) (hroot : m.id ∈ roots) : m ∈ p.tree.nodes := by
  have hsub := nodesAll_children_subset hel
  cases h.traced.origin m hm with
  | unchanged hm => exact hsub hm
  | copied c hc hid =>
    have hused := hp.roots_used m.id hroot
    refine absurd rfl ((List.nodup_append.mp hfresh).2.2 m.id hused m.id ?_)
    rw [hid]
    exact List.mem_map_of_mem (f := fun m => copy m.id) hc
  | patched c hc hid hown htyped =>
    rw [hid] at hroot
    exact absurd (hp.wireId c (hsub hc) hroot) hown

theorem sound (h : Responded p el copy state html el') (hp : p.Sound roots)
    (hel : el ∈ p.tree.nodes) (hfresh : (p.used ++ copies copy html).Nodup) :
    Page.Sound roots
      { p with tree := p.tree.replace el.id el', used := p.used ++ copies copy html } := by
  have hsub := nodesAll_children_subset hel
  refine ⟨?_, fun m hm => ?_, hfresh, fun i hi => List.mem_append_left _ (hp.roots_used i hi),
    fun m hm hroot => ?_⟩
  · rw [List.nodup_iff_count_le_one]
    intro j
    have hreplace := count_replace (r := el') hp.nodup hel j
    have htraced := h.traced.count j
    have honce := List.nodup_iff_count_le_one.mp hfresh j
    have hused : (p.tree.nodes.map Node.id).count j ≤ p.used.count j := by
      refine (List.subperm_of_subset hp.nodup fun i hi => ?_).count_le j
      obtain ⟨m, hm, rfl⟩ := List.mem_map.mp hi
      exact hp.used m hm
    rw [nodes_eq el, nodes_eq el', List.map_cons, List.map_cons, List.count_cons, List.count_cons,
      h.id] at hreplace
    rw [List.count_append, copies] at honce
    change (List.map Node.id (p.tree.replace el.id el').nodes).count j ≤ 1
    omega
  · rcases mem_nodes_of_replace hm with rfl | hm | ⟨m₀, hm₀, hne, rfl⟩
    · rw [h.id]
      exact List.mem_append_left _ (hp.used el hel)
    · cases h.traced.origin m hm with
      | unchanged hm => exact List.mem_append_left _ (hp.used m (hsub hm))
      | copied c hc hid =>
        rw [hid]
        exact List.mem_append_right _ (List.mem_map_of_mem (f := fun m => copy m.id) hc)
      | patched c hc hid hown htyped =>
        rw [hid]
        exact List.mem_append_left _ (hp.used c (hsub hc))
    · rw [id_replace hne]
      exact List.mem_append_left _ (hp.used m₀ hm₀)
  · rcases mem_nodes_of_replace hm with rfl | hm | ⟨m₀, hm₀, hne, rfl⟩
    · rw [h.id] at hroot
      rw [h.wireId]
      exact hp.wireId el hel hroot
    · exact hp.wireId m (h.mem_of_root hp hel hfresh hm hroot) hroot
    · rw [id_replace hne] at hroot
      rw [hasAttribute, getAttribute_replace hne]
      exact hp.wireId m₀ hm₀ hroot

end Responded

/-! ### Runs -/

theorem respond_cases {i : ι} {copy : ι → ι} {state : Bytes} {html : List (Node ι Bytes)}
    (hp : p.Sound roots) (ha : (Action.respond i copy state html).Admissible roots p) :
    p.act (.respond i copy state html) = some p ∧ (∀ m ∈ p.tree.nodes, m.id ≠ i) ∨
    ∃ el ∈ p.tree.nodes, el.id = i ∧ ∃ el', Responded p el copy state html el' ∧
      p.act (.respond i copy state html) = some
        { p with tree := p.tree.replace el.id el', used := p.used ++ copies copy html } := by
  obtain ⟨hroot, hfits, hfresh⟩ := ha
  rw [Page.act]
  cases hfind : p.find i with
  | none =>
    exact .inl ⟨rfl, find_eq_none hfind⟩
  | some el =>
    obtain ⟨hel, rfl⟩ := find_eq_some hfind
    obtain ⟨el', hmorph, hresponded⟩ : ∃ el', morph copy p.focus (setState el state) html =
        some el' ∧ Responded p el copy state html el' :=
      exists_responded hel (hp.wireId el hel hroot) hfits
    refine .inr ⟨el, hel, rfl, el', hresponded, ?_⟩
    dsimp only
    rw [hmorph]
    rfl

/-- **An action that can happen does not throw**, and leaves a page as the browser keeps it. -/
theorem exists_act {a : Action ι} (hp : p.Sound roots) (ha : a.Admissible roots p) :
    ∃ q, p.act a = some q ∧ q.Sound roots := by
  cases a with
  | respond i copy state html =>
    rcases respond_cases hp ha with ⟨hact, -⟩ | ⟨el, hel, -, el', hresponded, hact⟩
    · exact ⟨p, hact, hp⟩
    · exact ⟨_, hact, hresponded.sound hp hel ha.2.2⟩
  | model i state => exact ⟨_, rfl, hp.modify (setState_mild state) i⟩
  | type i text => exact ⟨_, rfl, hp.modify (retype_mild text) i⟩
  | loading i css => exact ⟨_, rfl, hp.modify (restyle_mild css) i⟩
  | activate focus => exact ⟨_, rfl, hp.nodup, hp.used, hp.nodup_used, hp.roots_used, hp.wireId⟩

theorem Page.Sound.act {a : Action ι} (hp : p.Sound roots) (ha : a.Admissible roots p)
    (hact : p.act a = some q) : q.Sound roots := by
  obtain ⟨q', hact', hq⟩ := exists_act hp ha
  obtain rfl := Option.some.inj (hact.symm.trans hact')
  exact hq

theorem Run.sound {as : List (Action ι)} (h : Run roots p as q) (hp : p.Sound roots) :
    q.Sound roots := by
  exact h.invariant (fun _ _ _ hp h => hp.act h.1 h.2) hp

/-- The state that the root `k` carries after an action other than its own response. -/
def Action.state (k : ι) (state : Bytes) : Action ι → Bytes
  | .model i state' => if i = k then state' else state
  | _ => state

/-- A response to the root `k`. -/
def Action.RespondsTo (k : ι) : Action ι → Prop
  | .respond i _ _ _ => i = k
  | _ => False

/-- On the page `p` the root `k` shows the HTML that it got on the page `q`, and carries a state;
and no root is new. -/
structure Shown (roots : List ι) (q : Page ι) (k : ι) (html : List (Node ι Bytes)) (state : Bytes)
    (p : Page ι) : Prop where
  component : ∀ m ∈ p.tree.nodes, m.id ∈ roots → Component (· ∈ q.tree.nodes) m.id
  shows : ∀ m ∈ p.tree.nodes, m.id = k →
    ShowsAll (Component (· ∈ q.tree.nodes)) (html.any hasKey) m.children html
  state : ∀ m ∈ p.tree.nodes, m.id = k → m.getAttribute wireState = some state

namespace Shown

variable {k : ι} {html : List (Node ι Bytes)} {state : Bytes}

/-- After its own response. -/
theorem of_respond {copy : ι → ι} (hp : p.Sound roots)
    (ha : (Action.respond k copy state html).Admissible roots p)
    (hact : p.act (.respond k copy state html) = some q) : Shown roots p k html state q := by
  have hcomponent : ∀ m ∈ p.tree.nodes, m.id ∈ roots → Component (· ∈ p.tree.nodes) m.id :=
    fun m hm hroot => ⟨m, hm, hp.wireId m hm hroot, rfl⟩
  have hq := hp.act ha hact
  rcases respond_cases hp ha with ⟨hact', hnot⟩ | ⟨el, hel, rfl, el', hresponded, hact'⟩
  · obtain rfl := Option.some.inj (hact.symm.trans hact')
    exact ⟨hcomponent, fun m hm heq => absurd heq (hnot m hm),
      fun m hm heq => absurd heq (hnot m hm)⟩
  · obtain rfl := Option.some.inj (hact.symm.trans hact')
    have heq : ∀ m ∈ (p.tree.replace el.id el').nodes, m.id = el.id → m = el' := fun m hm hid =>
      eq_of_id_eq hq.nodup hm (mem_nodes_replace_self hel) (hid.trans hresponded.id.symm)
    refine ⟨fun m hm hroot => ?_, fun m hm hid => ?_, fun m hm hid => ?_⟩
    · rcases mem_nodes_of_replace hm with rfl | hm | ⟨m₀, hm₀, hne, rfl⟩
      · rw [hresponded.id] at hroot ⊢
        exact hcomponent el hel hroot
      · exact hcomponent m (hresponded.mem_of_root hp hel ha.2.2 hm hroot) hroot
      · rw [id_replace hne] at hroot ⊢
        exact hcomponent m₀ hm₀ hroot
    · rw [heq m hm hid]
      exact hresponded.shows
    · rw [heq m hm hid]
      exact hresponded.state

variable {p' : Page ι}

/-- After a response to another root. -/
theorem respond {i : ι} {copy : ι → ι} {state' : Bytes} {html' : List (Node ι Bytes)}
    (h : Shown roots q k html state p) (hp : p.Sound roots) (hk : k ∈ roots)
    (ha : (Action.respond i copy state' html').Admissible roots p) (hne : i ≠ k)
    (hact : p.act (.respond i copy state' html') = some p') : Shown roots q k html state p' := by
  rcases respond_cases hp ha with ⟨hact', -⟩ | ⟨el, hel, rfl, el', hresponded, hact'⟩
  · obtain rfl := Option.some.inj (hact.symm.trans hact')
    exact h
  obtain rfl := Option.some.inj (hact.symm.trans hact')
  have hroot := ha.1
  -- The root that responded is a component of the page on which `k` got its HTML.
  have hshows : ∀ c ∈ p.tree.nodes, c.id = el.id → ∀ n,
      Shows (Component (· ∈ q.tree.nodes)) c n → Shows (Component (· ∈ q.tree.nodes)) el' n := by
    intro c hc hid n hn
    obtain rfl := eq_of_id_eq hp.nodup hc hel hid
    refine .nested ?_ (hresponded.wireId.trans (hp.wireId c hc hroot))
      (hresponded.tagName.trans hn.tagName)
    rw [hresponded.id]
    exact h.component c hc hroot
  refine ⟨fun m hm hmroot => ?_, fun m hm hid => ?_, fun m hm hid => ?_⟩
  · rcases mem_nodes_of_replace hm with rfl | hm | ⟨m₀, hm₀, hne, rfl⟩
    · rw [hresponded.id]
      exact h.component el hel hroot
    · exact h.component m (hresponded.mem_of_root hp hel ha.2.2 hm hmroot) hmroot
    · rw [id_replace hne] at hmroot ⊢
      exact h.component m₀ hm₀ hmroot
  · rcases mem_nodes_of_replace hm with rfl | hm | ⟨m₀, hm₀, hne', rfl⟩
    · exact absurd (hresponded.id.symm.trans hid) hne
    · exact h.shows m (hresponded.mem_of_root hp hel ha.2.2 hm (hid ▸ hk)) hid
    · rw [id_replace hne'] at hid
      rw [children_replace hne']
      exact (h.shows m₀ hm₀ hid).replaceAll fun c hc =>
        hshows c (nodesAll_children_subset hm₀ hc)
  · rcases mem_nodes_of_replace hm with rfl | hm | ⟨m₀, hm₀, hne', rfl⟩
    · exact absurd (hresponded.id.symm.trans hid) hne
    · exact h.state m (hresponded.mem_of_root hp hel ha.2.2 hm (hid ▸ hk)) hid
    · rw [id_replace hne'] at hid
      rw [getAttribute_replace hne']
      exact h.state m₀ hm₀ hid

/-- After a change of one element. -/
theorem modify {f : Node ι Bytes → Node ι Bytes} {i : ι} {state' : Bytes}
    (h : Shown roots q k html state p) (hp : p.Sound roots) (hf : Mild f)
    (hshows : ∀ el ∈ p.tree.nodes, el.id = i → ∀ n, Shows (Component (· ∈ q.tree.nodes)) el n →
      Shows (Component (· ∈ q.tree.nodes)) (f el) n)
    (hself : i = k → ∀ el : Node ι Bytes, el.getAttribute wireState = some state →
      (f el).getAttribute wireState = some state')
    (hother : i ≠ k → state' = state) : Shown roots q k html state' (p.modify i f) := by
  have hq := hp.modify hf i
  rcases modify_cases p i f with ⟨heq, hnot⟩ | ⟨el, hel, rfl, heq⟩
  · rw [heq]
    refine ⟨h.component, h.shows, fun m hm hid => ?_⟩
    rw [hother fun hi => hnot m hm (hid.trans hi.symm)]
    exact h.state m hm hid
  rw [heq] at hq ⊢
  have hsub : nodesAll (f el).children ⊆ p.tree.nodes := by
    rw [hf.children]
    exact nodesAll_children_subset hel
  refine ⟨fun m hm hmroot => ?_, fun m hm hid => ?_, fun m hm hid => ?_⟩
  · rcases mem_nodes_of_replace hm with rfl | hm | ⟨m₀, hm₀, hne, rfl⟩
    · rw [hf.id] at hmroot ⊢
      exact h.component el hel hmroot
    · exact h.component m (hsub hm) hmroot
    · rw [id_replace hne] at hmroot ⊢
      exact h.component m₀ hm₀ hmroot
  · rcases mem_nodes_of_replace hm with rfl | hm | ⟨m₀, hm₀, hne, rfl⟩
    · rw [hf.id] at hid
      rw [hf.children]
      exact h.shows el hel hid
    · exact h.shows m (hsub hm) hid
    · rw [id_replace hne] at hid
      rw [children_replace hne]
      refine (h.shows m₀ hm₀ hid).replaceAll fun c hc hcid => ?_
      obtain rfl := eq_of_id_eq hp.nodup (nodesAll_children_subset hm₀ hc) hel hcid
      exact hshows c hel rfl
  · by_cases hk : el.id = k
    · -- The page has one node with this identity.
      have hm' : m = f el := eq_of_id_eq hq.nodup hm (mem_nodes_replace_self hel)
        (hid.trans (hk.symm.trans (hf.id el).symm))
      rw [hm']
      exact hself hk el (h.state el hel hk)
    · rw [hother hk]
      rcases mem_nodes_of_replace hm with rfl | hm | ⟨m₀, hm₀, hne, rfl⟩
      · exact absurd ((hf.id el).symm.trans hid) hk
      · exact h.state m (hsub hm) hid
      · rw [id_replace hne] at hid
        rw [getAttribute_replace hne]
        exact h.state m₀ hm₀ hid

/-- After any action but its own response. -/
theorem act {a : Action ι} (h : Shown roots q k html state p) (hp : p.Sound roots)
    (hk : k ∈ roots) (ha : a.Admissible roots p) (hother : ¬ a.RespondsTo k)
    (hact : p.act a = some p') : Shown roots q k html (a.state k state) p' := by
  cases a with
  | respond i copy state' html' => exact h.respond hp hk ha hother hact
  | model i state' =>
    obtain rfl := Option.some.inj hact
    refine h.modify hp (setState_mild state') (fun el hel hid n hn => ?_) (fun hi el hel => ?_)
      fun hi => if_neg hi
    · have hmild := setState_mild (ι := ι) state'
      have hroot : el.id ∈ roots := hid ▸ ha
      refine .nested ?_ ((hmild.wireId el).trans (hp.wireId el hel hroot))
        ((hmild.tagName el).trans hn.tagName)
      rw [hmild.id]
      exact h.component el hel hroot
    · rw [Action.state, if_pos hi]
      cases el with
      | text i d => cases hel
      | comment i d => cases hel
      | element i tag as typed o =>
        change (as.set wireState state').get wireState = _
        rw [Attributes.get_set, if_pos rfl]
  | type i text =>
    obtain rfl := Option.some.inj hact
    refine h.modify hp (retype_mild text) (fun el _ _ n hn => retype_shows hn)
      (fun _ el hel => ?_) fun _ => rfl
    cases el <;> exact hel
  | loading i css =>
    obtain rfl := Option.some.inj hact
    refine h.modify hp (restyle_mild css) (fun el _ _ n hn => restyle_shows hn)
      (fun _ el hel => ?_) fun _ => rfl
    cases el with
    | text i d => exact hel
    | comment i d => exact hel
    | element i tag as typed o =>
      have hne : wireState ≠ style := by decide
      rw [restyle]
      by_cases hloading : as.has wireLoading
      · rw [if_pos hloading]
        change (as.set style css).get wireState = _
        rw [Attributes.get_set, if_neg hne]
        exact hel
      · rw [if_neg hloading]
        exact hel
  | activate focus =>
    obtain rfl := Option.some.inj hact
    exact ⟨h.component, h.shows, h.state⟩

/-- After any actions but its own responses, in any order. -/
theorem run {as : List (Action ι)} (hrun : Run roots p as p') (hp : p.Sound roots)
    (hk : k ∈ roots) (hother : ∀ a ∈ as, ¬ a.RespondsTo k)
    (h : Shown roots q k html state p) :
    Shown roots q k html (as.foldl (Action.state k) state) p' := by
  induction hrun generalizing state with
  | nil p => exact h
  | cons hstep hrest ih =>
    rw [List.forall_mem_cons] at hother
    exact ih (hp.act hstep.1 hstep.2) hother.2 (h.act hp hk hstep.1 hother.1 hstep.2)

end Shown

/-- A page on which one component is in another. -/
def nestedPage : Page Nat where
  tree := .element 0 (bytes "DIV") ⟨[(wireId, bytes "a")], by decide⟩ none
    [.element 1 (bytes "INPUT") ⟨[], by decide⟩ none [],
      .element 2 (bytes "DIV") ⟨[(wireId, bytes "b")], by decide⟩ none [.text 3 (bytes "0")]]
  focus := some 1
  used := [0, 1, 2, 3]

/-- HTML of the outer component. -/
def nestedHtml : List (Node Nat Bytes) :=
  [.element 0 (bytes "INPUT") ⟨[(bytes "value", bytes "y")], by decide⟩ none [],
    .element 1 (bytes "DIV") ⟨[(wireId, bytes "c")], by decide⟩ none []]

theorem nestedPage_sound : nestedPage.Sound [0, 2] := by
  refine ⟨by decide, by decide, by decide, by decide, by decide⟩

theorem nestedPage_admissible (state : Bytes) :
    (.respond 0 (· + 4) state nestedHtml : Action Nat).Admissible [0, 2] nestedPage := by
  refine ⟨by decide, fun m hm => fits_of_keyOf_eq_none ?_, by decide⟩
  revert m
  decide

/-- The node that an action is about. -/
def Action.target : Action ι → Option ι
  | .respond i _ _ _ => some i
  | .model i _ => some i
  | .type i _ => some i
  | .loading i _ => some i
  | .activate _ => none

/-- A node in which nothing was replaced. -/
theorem replace_eq_of_notMem {m₀ el r : Node ι Bytes} (hr : r.id = el.id)
    (hid : el.id ∉ (m₀.replace el.id r).nodes.map Node.id) : m₀.replace el.id r = m₀ := by
  refine replace_of_notMem fun m hm heq => hid ?_
  have hmem := mem_nodes_replace_self (r := r) hm
  rw [heq] at hmem
  exact List.mem_map.mpr ⟨r, hmem, hr⟩

/-- A root in which an action is not, is the same after the action. -/
theorem mem_of_act {a : Action ι} {m : Node ι Bytes} (hp : p.Sound roots)
    (ha : a.Admissible roots p) (hact : p.act a = some q) (hm : m ∈ q.tree.nodes)
    (hroot : m.id ∈ roots) (hnot : ∀ i, a.target = some i → i ∉ m.nodes.map Node.id) :
    m ∈ p.tree.nodes := by
  have hmodify : ∀ {f : Node ι Bytes → Node ι Bytes} {i : ι}, Mild f →
      i ∉ m.nodes.map Node.id → m ∈ (p.modify i f).tree.nodes → m ∈ p.tree.nodes := by
    intro f i hf hi hm
    rcases modify_cases p i f with ⟨heq, -⟩ | ⟨el, hel, rfl, heq⟩
    · rwa [heq] at hm
    rw [heq] at hm
    rcases mem_nodes_of_replace hm with rfl | hm | ⟨m₀, hm₀, hne, rfl⟩
    · exact absurd (hf.id el ▸ List.mem_map_of_mem (mem_nodes_self _)) hi
    · rw [hf.children] at hm
      exact nodesAll_children_subset hel hm
    · rw [replace_eq_of_notMem (hf.id el) hi]
      exact hm₀
  cases a with
  | respond i copy state html =>
    rcases respond_cases hp ha with ⟨hact', -⟩ | ⟨el, hel, rfl, el', hresponded, hact'⟩
    · obtain rfl := Option.some.inj (hact.symm.trans hact')
      exact hm
    obtain rfl := Option.some.inj (hact.symm.trans hact')
    have hi := hnot el.id rfl
    rcases mem_nodes_of_replace hm with rfl | hm | ⟨m₀, hm₀, hne, rfl⟩
    · exact absurd (hresponded.id ▸ List.mem_map_of_mem (mem_nodes_self _)) hi
    · exact hresponded.mem_of_root hp hel ha.2.2 hm hroot
    · rw [replace_eq_of_notMem hresponded.id hi]
      exact hm₀
  | model i state =>
    obtain rfl := Option.some.inj hact
    exact hmodify (setState_mild state) (hnot i rfl) hm
  | type i text =>
    obtain rfl := Option.some.inj hact
    exact hmodify (retype_mild text) (hnot i rfl) hm
  | loading i css =>
    obtain rfl := Option.some.inj hact
    exact hmodify (restyle_mild css) (hnot i rfl) hm
  | activate focus =>
    obtain rfl := Option.some.inj hact
    exact hm

/-- What is typed into an element that has the focus all the time is there before an action. -/
theorem typed_of_act {a : Action ι} {j : ι} {m : Node ι Bytes} (hp : p.Sound roots)
    (ha : a.Admissible roots p) (hact : p.act a = some q) (hfocus : p.focus = some j)
    (hj : j ∈ p.used) (htype : ∀ text, a ≠ .type j text) (hm : m ∈ q.tree.nodes) (hid : m.id = j) :
    ∃ m₀ ∈ p.tree.nodes, m₀.id = j ∧ m₀.typed = m.typed := by
  have hmodify : ∀ {f : Node ι Bytes → Node ι Bytes} {i : ι}, Mild f →
      (∀ el, i = j → (f el).typed = el.typed) → m ∈ (p.modify i f).tree.nodes →
      ∃ m₀ ∈ p.tree.nodes, m₀.id = j ∧ m₀.typed = m.typed := by
    intro f i hf htyped hm
    rcases modify_cases p i f with ⟨heq, -⟩ | ⟨el, hel, rfl, heq⟩
    · rw [heq] at hm
      exact ⟨m, hm, hid, rfl⟩
    rw [heq] at hm
    rcases mem_nodes_of_replace hm with rfl | hm | ⟨m₀, hm₀, hne, rfl⟩
    · rw [hf.id] at hid
      exact ⟨el, hel, hid, (htyped el hid).symm⟩
    · rw [hf.children] at hm
      exact ⟨m, nodesAll_children_subset hel hm, hid, rfl⟩
    · rw [id_replace hne] at hid
      exact ⟨m₀, hm₀, hid, (typed_replace hne).symm⟩
  cases a with
  | respond i copy state html =>
    rcases respond_cases hp ha with ⟨hact', -⟩ | ⟨el, hel, rfl, el', hresponded, hact'⟩
    · obtain rfl := Option.some.inj (hact.symm.trans hact')
      exact ⟨m, hm, hid, rfl⟩
    obtain rfl := Option.some.inj (hact.symm.trans hact')
    have hsub := nodesAll_children_subset hel
    rcases mem_nodes_of_replace hm with rfl | hm | ⟨m₀, hm₀, hne, rfl⟩
    · exact ⟨el, hel, hresponded.id.symm.trans hid, hresponded.typed.symm⟩
    · cases hresponded.traced.origin m hm with
      | unchanged hm => exact ⟨m, hsub hm, hid, rfl⟩
      | copied c hc hcid =>
        -- A copy has an identity of its own.
        refine absurd rfl ((List.nodup_append.mp ha.2.2).2.2 j hj j ?_)
        rw [← hid, hcid]
        exact List.mem_map_of_mem (f := fun m => copy m.id) hc
      | patched c hc hcid hown htyped =>
        have hcj : c.id = j := hcid.symm.trans hid
        exact ⟨c, hsub hc, hcj, (htyped (hfocus.trans (congrArg some hcj.symm))).symm⟩
    · rw [id_replace hne] at hid
      exact ⟨m₀, hm₀, hid, (typed_replace hne).symm⟩
  | model i state =>
    obtain rfl := Option.some.inj hact
    exact hmodify (setState_mild state) (fun el _ => by cases el <;> rfl) hm
  | type i text =>
    obtain rfl := Option.some.inj hact
    exact hmodify (retype_mild text) (fun el hij => absurd (hij ▸ rfl) (htype text)) hm
  | loading i css =>
    obtain rfl := Option.some.inj hact
    exact hmodify (restyle_mild css) (fun el _ => by cases el <;> rfl) hm
  | activate focus =>
    obtain rfl := Option.some.inj hact
    exact ⟨m, hm, hid, rfl⟩

/-- An identity stays given out, and the focus is where it was. -/
theorem act_frame {a : Action ι} (hp : p.Sound roots) (ha : a.Admissible roots p)
    (hact : p.act a = some q) :
    p.used ⊆ q.used ∧ ((∀ focus, a ≠ .activate focus) → q.focus = p.focus) := by
  have hmodify : ∀ (f : Node ι Bytes → Node ι Bytes) (i : ι),
      p.used ⊆ (p.modify i f).used ∧ (p.modify i f).focus = p.focus := by
    intro f i
    rcases modify_cases p i f with ⟨heq, -⟩ | ⟨el, -, -, heq⟩
    · rw [heq]
      exact ⟨List.Subset.refl _, rfl⟩
    · rw [heq]
      exact ⟨List.Subset.refl _, rfl⟩
  cases a with
  | respond i copy state html =>
    rcases respond_cases hp ha with ⟨hact', -⟩ | ⟨el, hel, rfl, el', hresponded, hact'⟩
    · obtain rfl := Option.some.inj (hact.symm.trans hact')
      exact ⟨List.Subset.refl _, fun _ => rfl⟩
    · obtain rfl := Option.some.inj (hact.symm.trans hact')
      exact ⟨List.subset_append_left _ _, fun _ => rfl⟩
  | model i state =>
    obtain rfl := Option.some.inj hact
    exact (hmodify _ i).imp_right fun h _ => h
  | type i text =>
    obtain rfl := Option.some.inj hact
    exact (hmodify _ i).imp_right fun h _ => h
  | loading i css =>
    obtain rfl := Option.some.inj hact
    exact (hmodify _ i).imp_right fun h _ => h
  | activate focus =>
    obtain rfl := Option.some.inj hact
    exact ⟨List.Subset.refl _, fun h => absurd rfl (h focus)⟩

end CppLaravel.Livewire
