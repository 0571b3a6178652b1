import Mathlib.Data.Set.Card
import Mathlib.Data.Set.Finite.Lattice
import Mathlib.Logic.Relation

/-!
# `CppLaravel.Lib.Cycles`: no infinite path without a cycle

`Acc (flip r) a` says that all paths of a relation `r` from `a` are finite: it is what a
recursion that follows `r` from `a` needs. `Finishes r Q a` says in addition that `Q` holds of all
states on them; `finishes_iff` takes the first step off.

* `acc_iff_no_cycle`: where the steps leave from a finite set, all paths are finite iff none of
  them meets a cycle.
* `acc_of_rank`: so they are where each step lowers a rank.
* `finite_reach`: with finitely many steps from each state, only finitely many states are
  reached.
-/

set_option autoImplicit false

namespace CppLaravel.Lib

open Relation

variable {α : Type*} {r : α → α → Prop}

/-- Where all paths are finite, no state on them comes back to itself. -/
theorem not_cycle_of_acc {a b : α} (h : Acc (flip r) a) (hb : ReflTransGen r a b) :
    ¬ TransGen r b b := by
  induction h generalizing b with
  | intro a _ ih =>
    intro hcycle
    rcases ReflTransGen.cases_head hb with rfl | ⟨c, hac, hcb⟩
    · -- The cycle through the first state is one through the second.
      obtain ⟨c, hac, hca⟩ := TransGen.head'_iff.mp hcycle
      exact ih c hac .refl (.tail' hca hac)
    · exact ih c hac hcb hcycle

/-- Without a cycle each step leaves a state behind that is not reached again. -/
theorem acc_of_no_cycle {s : Set α} (hs : s.Finite) (hr : ∀ {a b}, r a b → a ∈ s) {a : α}
    (h : ∀ b, ReflTransGen r a b → ¬ TransGen r b b) : Acc (flip r) a := by
  induction hn : {b ∈ s | ReflTransGen r a b}.ncard using Nat.strong_induction_on
    generalizing a with
  | _ n ih =>
    subst hn
    refine .intro a fun c hac => ?_
    have hac : r a c := hac
    have hsub : {b ∈ s | ReflTransGen r c b} ⊂ {b ∈ s | ReflTransGen r a b} := by
      refine ⟨fun b hb => ⟨hb.1, .head hac hb.2⟩, fun hle => ?_⟩
      have hca : ReflTransGen r c a := (hle ⟨hr hac, .refl⟩).2
      exact h a .refl (.head' hac hca)
    have hfin : {b ∈ s | ReflTransGen r a b}.Finite := hs.subset fun b hb => hb.1
    exact ih _ (Set.ncard_lt_ncard hsub hfin) (fun b hb => h b (.head hac hb)) rfl

/-- All paths from a state are finite iff none of them meets a cycle. -/
theorem acc_iff_no_cycle {s : Set α} (hs : s.Finite) (hr : ∀ {a b}, r a b → a ∈ s) {a : α} :
    Acc (flip r) a ↔ ∀ b, ReflTransGen r a b → ¬ TransGen r b b :=
  ⟨fun h _ hb => not_cycle_of_acc h hb, acc_of_no_cycle hs hr⟩

/-- All paths from a state are finite if the steps on them lower a rank. -/
theorem acc_of_rank {β : Type*} [Preorder β] [WellFoundedLT β] (rank : α → β) {a : α}
    (h : ∀ b c, ReflTransGen r a b → r b c → rank c < rank b) : Acc (flip r) a := by
  induction hn : rank a using WellFoundedLT.induction generalizing a with
  | ind n ih =>
    subst hn
    refine .intro a fun c hac => ?_
    exact ih _ (h a c .refl hac) (fun b d hb => h b d (.head hac hb)) rfl

/-- All paths from a state are finite, and a property holds of all states on them. -/
def Finishes (r : α → α → Prop) (Q : α → Prop) (a : α) : Prop :=
  Acc (flip r) a ∧ ∀ b, ReflTransGen r a b → Q b

theorem finishes_iff {Q : α → Prop} {a : α} :
    Finishes r Q a ↔ Q a ∧ ∀ b, r a b → Finishes r Q b := by
  constructor
  · intro ⟨hacc, hQ⟩
    exact ⟨hQ a .refl, fun b hab => ⟨hacc.inv hab, fun c hc => hQ c (.head hab hc)⟩⟩
  · intro ⟨hQ, hnext⟩
    refine ⟨.intro a fun b hab => (hnext b hab).1, fun c hc => ?_⟩
    rcases ReflTransGen.cases_head hc with rfl | ⟨b, hab, hbc⟩
    · exact hQ
    · exact (hnext b hab).2 c hbc

/-- Only finitely many states are reached from one where all paths are finite. -/
theorem finite_reach {a : α} (h : Acc (flip r) a) (hr : ∀ b, {c | r b c}.Finite) :
    {b | ReflTransGen r a b}.Finite := by
  induction h with
  | intro a _ ih =>
    have hnext := (hr a).biUnion fun c hac => ih c hac
    refine (hnext.insert a).subset fun b hb => ?_
    rcases ReflTransGen.cases_head hb with rfl | ⟨c, hac, hcb⟩
    · exact .inl rfl
    · exact .inr (Set.mem_biUnion hac hcb)

end CppLaravel.Lib
