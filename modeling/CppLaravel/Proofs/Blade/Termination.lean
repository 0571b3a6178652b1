import CppLaravel.Lib.Cycles
import CppLaravel.Proofs.Blade.TwoRuns
import Mathlib.Order.Filter.AtTopBot.Basic
import Mathlib.Order.Filter.Finite

/-!
# `CppLaravel.Proofs.Blade.Termination`: when a rendering ends

A search that finds nothing answers `npos`, and a position behind `npos` is near the start of the
text. So an unclosed directive can take the loop back to where it was, and its body can be the
whole text again.

`Round` is one round of the loop over a text, `Asks` a recursive call. A rendering ends iff all
paths of both are finite (`exists_renderImpl_iff`): for sections, includes and layouts of any
kind. Without other templates the calls get smaller, or a text asks for itself in its own context
(`ends_iff`).
-/

set_option autoImplicit false

namespace CppLaravel.Blade

open CppLaravel.Lib
open CppLaravel.Http
open Filter
open Relation

/-! ### Rounds and calls -/

/-- The directive that a round of the loop over a text meets, and the position behind it. A text
that extends a layout is searched for sections only. -/
def round (t : Bytes) (i : Nat) : Option (Directive × Nat) :=
  match find t (bytes "@extends(") 0 with
  | some _ => (find t (bytes "@section(") i).map (namedAt t)
  | none => if i < t.length then (scan t i).map Prod.snd else none

/-- One round of the loop over a text, from a position to the next one. -/
def Round (t : Bytes) (i j : Nat) : Prop := ∃ directive, round t i = some (directive, j)

/-- The layout that a text extends. -/
def extended (t : Bytes) : Option Bytes :=
  (find t (bytes "@extends(") 0).map fun ext =>
    unquote (slice t (ext + 9) (find t (bytes ")") ext))

/-- The texts that a directive renders, each in its context. -/
def Directive.calls (partials : Bytes → Bytes) (ctx : View) : Directive → List (Bytes × View)
  | .cond key thenPart elsePart => [(if truthy (ctx.var key) then thenPart else elsePart, ctx)]
  | .loop list inner => (ctx.items list).map fun item => (inner, ctx.merged item)
  | .included name => [(partials name, ctx)]
  | .named body => [(body, ctx)]
  | _ => []

/-- A recursive call: from a directive that the loop reaches, or for the layout. -/
def Asks (partials : Bytes → Bytes) (c c' : Bytes × View) : Prop :=
  (∃ i directive j, ReflTransGen (Round c.1) 0 i ∧ round c.1 i = some (directive, j) ∧
    c' ∈ directive.calls partials c.2) ∨
  ∃ name, extended c.1 = some name ∧ c' = (partials name, c.2)

theorem Round.target_unique {t : Bytes} {i j k : Nat} (hj : Round t i j) (hk : Round t i k) :
    j = k := by
  obtain ⟨d, hj⟩ := hj
  obtain ⟨e, hk⟩ := hk
  rw [hj] at hk
  exact congrArg Prod.snd (Option.some.inj hk)

/-- A round begins inside the text. -/
theorem Round.le_length {t : Bytes} {i j : Nat} (h : Round t i j) : i ≤ t.length := by
  obtain ⟨d, h⟩ := h
  rw [round] at h
  split at h
  · obtain ⟨q, hq, -⟩ := Option.map_eq_some_iff.mp h
    have hle := le_of_find hq
    have hlt := find_lt (by decide) hq
    omega
  · split at h
    · omega
    · cases h

/-- Only finitely many positions are reached where the rounds come to an end. -/
theorem finite_positions {t : Bytes} {i : Nat} (h : Acc (flip (Round t)) i) :
    {j | ReflTransGen (Round t) i j}.Finite :=
  finite_reach h fun _ => Set.Subsingleton.finite fun _ hj _ hk => Round.target_unique hj hk

/-- A text makes only finitely many calls where its rounds come to an end. -/
theorem finite_calls {partials : Bytes → Bytes} {c : Bytes × View}
    (h : Acc (flip (Round c.1)) 0) : {c' | Asks partials c c'}.Finite := by
  let made (i : Nat) : Set (Bytes × View) :=
    {c' | ∃ directive j, round c.1 i = some (directive, j) ∧ c' ∈ directive.calls partials c.2}
  -- A round finds at most one directive, and a directive has a list of calls.
  have hmade : ∀ i, (made i).Finite := by
    intro i
    cases hround : round c.1 i with
    | none =>
      refine Set.finite_empty.subset ?_
      rintro c' ⟨d, j, hd, -⟩
      rw [hround] at hd
      cases hd
    | some found =>
      refine (found.1.calls partials c.2).finite_toSet.subset ?_
      rintro c' ⟨d, j, hd, hc'⟩
      rw [hround] at hd
      obtain rfl := Option.some.inj hd
      exact hc'
  have hlayout : {c' | ∃ name, extended c.1 = some name ∧ c' = (partials name, c.2)}.Finite := by
    refine Set.Subsingleton.finite ?_
    rintro c₁ ⟨n₁, h₁, rfl⟩ c₂ ⟨n₂, h₂, rfl⟩
    rw [h₁] at h₂
    rw [Option.some.inj h₂]
  -- Finitely many positions, with finitely many calls each, and the call of the parent.
  have hall := ((finite_positions h).biUnion fun i _ => hmade i).union hlayout
  refine hall.subset ?_
  rintro c' (⟨i, d, j, hi, hd, hc'⟩ | hc')
  · exact .inl (Set.mem_biUnion hi ⟨d, j, hd, hc'⟩)
  · exact .inr hc'

/-! ### The loops -/

/-- The rounds from a position come to an end, and each directive met on the way is rendered. -/
def Visits (P : Directive → Option Bytes) (t : Bytes) (i : Nat) : Prop :=
  Finishes (Round t) (fun j => ∀ directive k, round t j = some (directive, k) →
    (P directive).isSome) i

variable {P : Directive → Option Bytes} {t : Bytes} {i : Nat}

theorem visits_of_round_none (h : round t i = none) : Visits P t i := by
  refine finishes_iff.mpr ⟨fun d k hd => ?_, fun j hj => ?_⟩
  · rw [h] at hd
    cases hd
  · obtain ⟨d, hd⟩ := hj
    rw [h] at hd
    cases hd

theorem visits_of_round {directive : Directive} {j : Nat} (h : round t i = some (directive, j)) :
    Visits P t i ↔ (P directive).isSome ∧ Visits P t j := by
  rw [Visits, finishes_iff]
  constructor
  · intro ⟨hP, hnext⟩
    exact ⟨hP directive j h, hnext j ⟨directive, h⟩⟩
  · intro ⟨hP, hnext⟩
    refine ⟨fun d k hd => ?_, fun k hk => ?_⟩
    · rw [h] at hd
      obtain ⟨rfl, rfl⟩ := Prod.mk.inj (Option.some.inj hd)
      exact hP
    · obtain rfl := Round.target_unique ⟨directive, h⟩ hk
      exact hnext

theorem isSome_bind_iff {α β : Type} {o : Option α} {f : α → Option β} :
    (o.bind f).isSome ↔ ∃ a, o = some a ∧ (f a).isSome := by
  cases o <;> simp

/-- What the loop of `render_impl` returns from, it visits. -/
theorem visits_of_renderLoop (ht : find t (bytes "@extends(") 0 = none) {fuel : Nat} {out : Bytes}
    (h : (renderLoop P t fuel i out).isSome) : Visits P t i := by
  induction fuel generalizing i out with
  | zero => cases h
  | succ fuel ih =>
    rw [renderLoop] at h
    by_cases hi : i < t.length
    · cases hscan : scan t i with
      | none =>
        refine visits_of_round_none ?_
        rw [round, ht]
        simp only [hi, if_true, hscan, Option.map_none]
      | some found =>
        have hround : round t i = some found.2 := by
          rw [round, ht]
          simp only [hi, if_true, hscan, Option.map_some]
        rw [if_pos hi, hscan] at h
        obtain ⟨r, hr, h⟩ := isSome_bind_iff.mp h
        exact (visits_of_round hround).mpr ⟨Option.isSome_of_eq_some hr, ih h⟩
    · refine visits_of_round_none ?_
      rw [round, ht]
      simp only [hi, if_false]

/-- With enough rounds the loop of `render_impl` returns from where it visits all. -/
theorem exists_renderLoop (ht : find t (bytes "@extends(") 0 = none)
    (h : Acc (flip (Round t)) i) : ∃ n, ∀ {P : Directive → Option Bytes}, Visits P t i →
      ∀ fuel ≥ n, ∀ out, (renderLoop P t fuel i out).isSome := by
  induction h with
  | intro i _ ih =>
    by_cases hi : i < t.length
    · cases hscan : scan t i with
      | none =>
        refine ⟨1, fun _ fuel hfuel out => ?_⟩
        obtain ⟨fuel, rfl⟩ : ∃ f, fuel = f + 1 := ⟨fuel - 1, by omega⟩
        rw [renderLoop, if_pos hi, hscan]
        rfl
      | some found =>
        have hround : round t i = some found.2 := by
          rw [round, ht]
          simp only [hi, if_true, hscan, Option.map_some]
        obtain ⟨n, hn⟩ := ih found.2.2 ⟨_, hround⟩
        refine ⟨n + 1, fun hvisits fuel hfuel out => ?_⟩
        obtain ⟨fuel, rfl⟩ : ∃ f, fuel = f + 1 := ⟨fuel - 1, by omega⟩
        obtain ⟨hP, hvisits⟩ := (visits_of_round hround).mp hvisits
        obtain ⟨r, hr⟩ := Option.isSome_iff_exists.mp hP
        rw [renderLoop, if_pos hi, hscan]
        exact isSome_bind_iff.mpr ⟨r, hr, hn hvisits fuel (by omega) _⟩
    · refine ⟨1, fun _ fuel hfuel out => ?_⟩
      obtain ⟨fuel, rfl⟩ : ∃ f, fuel = f + 1 := ⟨fuel - 1, by omega⟩
      rw [renderLoop, if_neg hi]
      rfl

section
variable {R : Bytes → View → Option Bytes} {partials : Bytes → Bytes} {ctx : View} {ext : Nat}

/-- What the loop of `collect_sections` returns from, it visits. -/
theorem visits_of_collectSections (ht : find t (bytes "@extends(") 0 = some ext) {fuel : Nat}
    {secs : StringMap} (h : (collectSections (fun body => R body ctx) t fuel i secs).isSome) :
    Visits (perform R partials none ctx) t i := by
  induction fuel generalizing i secs with
  | zero => cases h
  | succ fuel ih =>
    rw [collectSections] at h
    cases hq : find t (bytes "@section(") i with
    | none =>
      refine visits_of_round_none ?_
      rw [round, ht]
      simp only [hq, Option.map_none]
    | some q =>
      have hround : round t i = some (namedAt t q) := by
        rw [round, ht]
        simp only [hq, Option.map_some]
      rw [hq] at h
      obtain ⟨r, hr, h⟩ := isSome_bind_iff.mp h
      exact (visits_of_round hround).mpr ⟨Option.isSome_of_eq_some hr, ih h⟩

/-- With enough rounds the loop of `collect_sections` returns from where it visits all. -/
theorem exists_collectSections (ht : find t (bytes "@extends(") 0 = some ext)
    (h : Acc (flip (Round t)) i) :
    ∃ n, ∀ {R}, Visits (perform R partials none ctx) t i →
      ∀ fuel ≥ n, ∀ secs, (collectSections (fun body => R body ctx) t fuel i secs).isSome := by
  induction h with
  | intro i _ ih =>
    cases hq : find t (bytes "@section(") i with
    | none =>
      refine ⟨1, fun _ fuel hfuel secs => ?_⟩
      obtain ⟨fuel, rfl⟩ : ∃ f, fuel = f + 1 := ⟨fuel - 1, by omega⟩
      rw [collectSections, hq]
      rfl
    | some q =>
      have hround : round t i = some (namedAt t q) := by
        rw [round, ht]
        simp only [hq, Option.map_some]
      obtain ⟨n, hn⟩ := ih (namedAt t q).2 ⟨_, hround⟩
      refine ⟨n + 1, fun hvisits fuel hfuel secs => ?_⟩
      obtain ⟨fuel, rfl⟩ : ∃ f, fuel = f + 1 := ⟨fuel - 1, by omega⟩
      obtain ⟨hP, hvisits⟩ := (visits_of_round hround).mp hvisits
      obtain ⟨r, hr⟩ := Option.isSome_iff_exists.mp hP
      rw [collectSections, hq]
      exact isSome_bind_iff.mpr ⟨r, hr, hn hvisits fuel (by omega) _⟩

theorem isSome_renderItems_iff {render : View → Option Bytes} {items : List View} :
    (renderItems render items).isSome ↔ ∀ item ∈ items, (render item).isSome := by
  induction items with
  | nil => simp [renderItems]
  | cons item items ih =>
    rw [renderItems, isSome_bind_iff, List.forall_mem_cons, ← ih]
    constructor
    · rintro ⟨r, hr, h⟩
      exact ⟨Option.isSome_of_eq_some hr, by simpa using h⟩
    · rintro ⟨hitem, h⟩
      obtain ⟨r, hr⟩ := Option.isSome_iff_exists.mp hitem
      exact ⟨r, hr, by simpa using h⟩

/-- A directive is rendered iff its calls are. -/
theorem isSome_perform_iff {sections : Option StringMap} {directive : Directive} :
    (perform R partials sections ctx directive).isSome ↔
      ∀ c ∈ directive.calls partials ctx, (R c.1 c.2).isSome := by
  cases directive with
  | raw key => simp [perform, Directive.calls]
  | escaped key => simp [perform, Directive.calls]
  | cond key thenPart elsePart => simp [perform, Directive.calls]
  | loop list inner => simp [perform, Directive.calls, isSome_renderItems_iff]
  | included name => simp [perform, Directive.calls]
  | yield name => simp [perform, Directive.calls]
  | named body => simp [perform, Directive.calls]

end

/-! ### A whole rendering -/

/-- All paths of calls are finite, and so are the rounds of each text on them. -/
def Ends (partials : Bytes → Bytes) (c : Bytes × View) : Prop :=
  Finishes (Asks partials) (fun c => Acc (flip (Round c.1)) 0) c

section
variable {partials : Bytes → Bytes} {sections : Option StringMap}

/-- A rendering that returns comes to an end. -/
theorem ends_of_renderImpl {fuel : Nat} {t : Bytes} {v : View}
    (h : (renderImpl fuel t v partials sections).isSome) : Ends partials (t, v) := by
  induction fuel generalizing t v sections with
  | zero => cases h
  | succ fuel ih =>
    rw [renderImpl] at h
    cases hext : find t (bytes "@extends(") 0 with
    | some ext =>
      rw [hext] at h
      obtain ⟨secs, hsecs, hlayout⟩ := isSome_bind_iff.mp h
      have hvisits : Visits
          (perform (fun u w => renderImpl fuel u w partials none) partials none v) t 0 :=
        visits_of_collectSections hext (Option.isSome_of_eq_some hsecs)
      refine finishes_iff.mpr ⟨hvisits.1, ?_⟩
      rintro ⟨u, w⟩ (⟨i, d, j, hi, hd, hc⟩ | ⟨name, hname, hc⟩)
      · exact ih (isSome_perform_iff.mp (hvisits.2 i hi d j hd) (u, w) hc)
      · -- The parent is rendered by a call of its own.
        rw [extended, hext] at hname
        obtain rfl := Option.some.inj hname
        obtain ⟨rfl, rfl⟩ := Prod.mk.inj hc
        exact ih hlayout
    | none =>
      rw [hext] at h
      have hvisits := visits_of_renderLoop hext h
      refine finishes_iff.mpr ⟨hvisits.1, ?_⟩
      rintro ⟨u, w⟩ (⟨i, d, j, hi, hd, hc⟩ | ⟨name, hname, hc⟩)
      · exact ih (isSome_perform_iff.mp (hvisits.2 i hi d j hd) (u, w) hc)
      · -- There is no parent.
        rw [extended, hext] at hname
        cases hname

/-- A rendering that comes to an end returns, with a large enough bound. -/
theorem eventually_renderImpl {c : Bytes × View} (h : Ends partials c) :
    ∀ᶠ fuel in atTop, ∀ sections, (renderImpl fuel c.1 c.2 partials sections).isSome := by
  obtain ⟨hacc, hrounds⟩ := h
  induction hacc with
  | intro c _ ih =>
    obtain ⟨t, v⟩ := c
    have hround : Acc (flip (Round t)) 0 := hrounds (t, v) .refl
    -- The calls are finitely many, so one bound does for all of them.
    have hcalls : ∀ᶠ fuel in atTop, ∀ c', Asks partials (t, v) c' → ∀ sections,
        (renderImpl fuel c'.1 c'.2 partials sections).isSome := by
      refine (eventually_all_finite (finite_calls hround)).mpr fun c' hc' => ?_
      exact ih c' hc' fun b hb => hrounds b (.head hc' hb)
    obtain ⟨n, hn⟩ := eventually_atTop.mp hcalls
    have hvisits : ∀ {fuel}, n ≤ fuel → ∀ sections,
        Visits (perform (fun u w => renderImpl fuel u w partials sections) partials sections v)
          t 0 := by
      intro fuel hfuel sections
      refine ⟨hround, fun j hj d k hd => isSome_perform_iff.mpr fun c' hc' => ?_⟩
      exact hn fuel hfuel c' (.inl ⟨j, d, k, hj, hd, hc'⟩) sections
    rw [eventually_atTop]
    cases hext : find t (bytes "@extends(") 0 with
    | some ext =>
      obtain ⟨m, hm⟩ : ∃ m, ∀ {R}, Visits (perform R partials none v) t 0 → ∀ fuel ≥ m, ∀ secs,
          (collectSections (fun body => R body v) t fuel 0 secs).isSome :=
        exists_collectSections hext hround
      refine ⟨max n m + 1, fun fuel hfuel sections => ?_⟩
      obtain ⟨fuel, rfl⟩ : ∃ f, fuel = f + 1 := ⟨fuel - 1, by omega⟩
      have hfuel' : n ≤ fuel := by omega
      have hsecs := hm (hvisits hfuel' none) fuel (by omega) ∅
      obtain ⟨secs, hsecs⟩ := Option.isSome_iff_exists.mp hsecs
      rw [renderImpl, hext]
      refine isSome_bind_iff.mpr ⟨secs, hsecs, hn fuel (by omega) (_, v) (.inr ⟨_, ?_, rfl⟩) _⟩
      rw [extended, hext]
      rfl
    | none =>
      obtain ⟨m, hm⟩ := exists_renderLoop hext hround
      refine ⟨max n m + 1, fun fuel hfuel sections => ?_⟩
      obtain ⟨fuel, rfl⟩ : ∃ f, fuel = f + 1 := ⟨fuel - 1, by omega⟩
      rw [renderImpl, hext]
      exact hm (hvisits (by omega) sections) fuel (by omega) []

/-- A rendering returns with some bound iff it comes to an end. -/
theorem exists_renderImpl_iff {t : Bytes} {v : View} :
    (∃ fuel out, renderImpl fuel t v partials sections = some out) ↔ Ends partials (t, v) := by
  constructor
  · intro ⟨fuel, out, h⟩
    exact ends_of_renderImpl (Option.isSome_of_eq_some h)
  · intro h
    obtain ⟨fuel, hfuel⟩ := (eventually_renderImpl h).exists
    obtain ⟨out, hout⟩ := Option.isSome_iff_exists.mp (hfuel sections)
    exact ⟨fuel, out, hout⟩

end

/-! ### Without other templates -/

/-- The views in a list are nested in the context. -/
theorem sizeOf_lists_lt {v item : View} {list : Bytes} (h : item ∈ v.items list) :
    sizeOf item.lists < sizeOf v.lists := by
  rw [View.items] at h
  cases hl : v.lists.lookup list with
  | none =>
    rw [hl] at h
    cases h
  | some views =>
    rw [hl, Option.getD_some] at h
    obtain ⟨before, behind, hlists, -⟩ := List.lookup_eq_some_iff.mp hl
    have hviews : sizeOf (list, views) < sizeOf v.lists :=
      List.sizeOf_lt_of_mem (hlists ▸ List.mem_append_right before List.mem_cons_self)
    have hitem : sizeOf item < sizeOf views := List.sizeOf_lt_of_mem h
    have hlists : sizeOf item.lists < sizeOf item := by
      cases item
      simp only [View.mk.sizeOf_spec]
      omega
    have hpair : sizeOf (list, views) = 1 + sizeOf list + sizeOf views := rfl
    omega

/-- The nesting of the context, and below it the length of the text. -/
noncomputable def rank (c : Bytes × View) : ℕ ×ₗ ℕ := toLex (sizeOf c.2.lists, c.1.length)

/-- A directive renders a part of the text, or in a context nested in that of the text. -/
theorem nested_or_infix {v : View} {t : Bytes} {directive : Directive}
    (h : ∀ u ∈ directive.bodies, u <:+: t) {c : Bytes × View}
    (hc : c ∈ directive.calls (fun _ => []) v) :
    sizeOf c.2.lists < sizeOf v.lists ∨ c.2 = v ∧ c.1 <:+: t := by
  cases directive with
  | raw key => cases hc
  | escaped key => cases hc
  | yield name => cases hc
  | cond key thenPart elsePart =>
    obtain rfl := List.mem_singleton.mp hc
    refine .inr ⟨rfl, ?_⟩
    show (if truthy (v.var key) then thenPart else elsePart) <:+: t
    split
    · exact h thenPart (by simp [Directive.bodies])
    · exact h elsePart (by simp [Directive.bodies])
  | loop list inner =>
    obtain ⟨item, hitem, rfl⟩ := List.mem_map.mp hc
    have hlt : sizeOf item.lists < sizeOf v.lists := sizeOf_lists_lt hitem
    exact .inl hlt
  | included name =>
    obtain rfl := List.mem_singleton.mp hc
    exact .inr ⟨rfl, List.nil_infix⟩
  | named body =>
    obtain rfl := List.mem_singleton.mp hc
    exact .inr ⟨rfl, h body (by simp [Directive.bodies])⟩

/-- A call that is not the one it comes from ranks lower. -/
theorem rank_lt_of_asks {c c' : Bytes × View} (h : Asks (fun _ => []) c c') (hne : c' ≠ c) :
    rank c' < rank c := by
  have hcases : sizeOf c'.2.lists < sizeOf c.2.lists ∨ c'.2 = c.2 ∧ c'.1 <:+: c.1 := by
    rcases h with ⟨i, d, j, -, hd, hc'⟩ | ⟨name, -, rfl⟩
    · refine nested_or_infix (fun u hu => ?_) hc'
      rw [round] at hd
      split at hd
      · obtain ⟨q, -, hq⟩ := Option.map_eq_some_iff.mp hd
        obtain rfl := congrArg Prod.fst hq
        obtain rfl := List.mem_singleton.mp hu
        exact slice_isInfix c.1 _ _
      · split at hd
        · obtain ⟨⟨n, found⟩, hscan, hfound⟩ := Option.map_eq_some_iff.mp hd
          obtain rfl : found = (d, j) := hfound
          exact infix_of_mem_bodies hscan hu
        · cases hd
    · exact .inr ⟨rfl, List.nil_infix⟩
  rw [rank, rank, Prod.Lex.toLex_lt_toLex]
  refine hcases.imp_right fun ⟨hctx, hpart⟩ => ⟨by rw [hctx], ?_⟩
  -- A part of a text that is as long as the text is the text.
  refine lt_of_le_of_ne hpart.length_le fun hlen => hne ?_
  exact Prod.ext (hpart.eq_of_length hlen) hctx

/-- Without other templates the calls come to an end iff none of them asks for itself. -/
theorem ends_iff {c : Bytes × View} :
    Ends (fun _ => []) c ↔ ∀ c', ReflTransGen (Asks fun _ => []) c c' →
      ¬ Asks (fun _ => []) c' c' ∧
      ∀ i, ReflTransGen (Round c'.1) 0 i → ¬ TransGen (Round c'.1) i i := by
  have hrounds : ∀ t : Bytes, Acc (flip (Round t)) 0 ↔
      ∀ i, ReflTransGen (Round t) 0 i → ¬ TransGen (Round t) i i :=
    fun t => acc_iff_no_cycle (Set.finite_Iic t.length) fun h => h.le_length
  constructor
  · intro ⟨hacc, hends⟩ c' hc'
    exact ⟨fun hself => not_cycle_of_acc hacc hc' (.single hself), (hrounds c'.1).mp (hends c' hc')⟩
  · intro h
    refine ⟨acc_of_rank rank fun b b' hb hbb' => rank_lt_of_asks hbb' ?_, ?_⟩
    · rintro rfl
      exact (h b' hb).1 hbb'
    · exact fun b hb => (hrounds b.1).mpr (h b hb).2

end CppLaravel.Blade
