import Mathlib.Data.List.Basic

/-!
# `CppLaravel.Lib.Chunks`: a stream cut into chunks

A receiver does not see a stream at once. `Cut max s cs` says that the chunks `cs`, each of
one to `max` symbols, make up the stream `s`; `boundaries` are the prefixes that the receiver
has after each chunk. A receiver that decides by what it has accumulated is a `judge` on
prefixes, and `firstVerdict` its run: it stops at the first prefix that `judge` decides.

* `firstVerdict_eq_of_stable`: if no decision on a prefix differs from the decision on the
  whole stream, the run does not depend on the cut.
* `cut_cutAt`: for any two positions at most `max` apart there is a cut with these as
  neighbours. A judge that is open up to the first is asked next at the second
  (`firstVerdict_cutAt`).
-/

set_option autoImplicit false

namespace CppLaravel.Lib

variable {α β : Type*}

/-- The chunks make up the stream. -/
def Cut (max : Nat) (s : List α) (cs : List (List α)) : Prop :=
  cs.flatten = s ∧ ∀ c ∈ cs, c ≠ [] ∧ c.length ≤ max

/-- The first verdict on what is accumulated, chunk after chunk, on top of `acc`. -/
def firstVerdict (judge : List α → Option β) : List α → List (List α) → Option β
  | _, [] => none
  | acc, c :: cs => (judge (acc ++ c)).or (firstVerdict judge (acc ++ c) cs)

variable {judge : List α → Option β} {max : Nat}

/-- The first of the chunks decide, or the others. -/
theorem firstVerdict_append (acc : List α) (cs ds : List (List α)) :
    firstVerdict judge acc (cs ++ ds)
      = (firstVerdict judge acc cs).or (firstVerdict judge (acc ++ cs.flatten) ds) := by
  induction cs generalizing acc with
  | nil => simp [firstVerdict]
  | cons c cs ih =>
    rw [List.cons_append, firstVerdict, firstVerdict, ih, Option.or_assoc, List.flatten_cons,
      ← List.append_assoc]

/-- A verdict is one on a prefix of the stream. -/
theorem judge_of_firstVerdict {acc : List α} {cs : List (List α)} {v : β}
    (h : firstVerdict judge acc cs = some v) :
    ∃ p, acc <+: p ∧ p <+: acc ++ cs.flatten ∧ judge p = some v := by
  induction cs generalizing acc with
  | nil => cases h
  | cons c cs ih =>
    rw [firstVerdict, Option.or_eq_some_iff] at h
    rw [List.flatten_cons, ← List.append_assoc]
    rcases h with h | ⟨-, h⟩
    · exact ⟨acc ++ c, List.prefix_append _ _, List.prefix_append _ _, h⟩
    · obtain ⟨p, hacc, hp, hv⟩ := ih h
      exact ⟨p, (List.prefix_append _ _).trans hacc, hp, hv⟩

/-- Without a verdict the judge is open on the whole stream. -/
theorem judge_of_firstVerdict_none {acc : List α} {cs : List (List α)}
    (h : firstVerdict judge acc cs = none) (hcs : cs ≠ []) : judge (acc ++ cs.flatten) = none := by
  induction cs generalizing acc with
  | nil => exact absurd rfl hcs
  | cons c cs ih =>
    rw [firstVerdict, Option.or_eq_none_iff] at h
    rw [List.flatten_cons, ← List.append_assoc]
    cases cs with
    | nil => simpa using h.1
    | cons d ds => exact ih h.2 (List.cons_ne_nil _ _)

/-- When the verdict on a prefix is always that on the whole stream, up to `f`, the run gives
that verdict for every cut. -/
theorem firstVerdict_eq_of_stable {γ : Type*} (f : β → γ) {s : List α}
    (hnil : judge [] = none)
    (hstable : ∀ p, p <+: s → ∀ v, judge p = some v → (judge s).map f = some (f v))
    {cs : List (List α)} (hcut : Cut max s cs) :
    (firstVerdict judge [] cs).map f = (judge s).map f := by
  obtain ⟨hs, -⟩ := hcut
  cases hv : firstVerdict judge [] cs with
  | some v =>
    obtain ⟨p, -, hp, hjudge⟩ := judge_of_firstVerdict hv
    rw [List.nil_append, hs] at hp
    exact (hstable p hp v hjudge).symm
  | none =>
    by_cases hcs : cs = []
    · subst hcs
      rw [← hs, List.flatten_nil, hnil]
    · have hopen := judge_of_firstVerdict_none hv hcs
      rw [List.nil_append, hs] at hopen
      rw [hopen]

/-- The stream with all chunks of length one, except the one between `m` and `k`. -/
def cutAt (s : List α) (m k : Nat) : List (List α) :=
  (s.take m).map List.singleton ++ (s.drop m).take (k - m) :: (s.drop k).map List.singleton

theorem flatten_singletons (s : List α) : (s.map List.singleton).flatten = s := by
  induction s with
  | nil => rfl
  | cons a s ih => rw [List.map_cons, List.flatten_cons, ih]; rfl

/-- A stream arrives symbol by symbol. -/
theorem cut_singletons (s : List α) (hmax : 1 ≤ max) : Cut max s (s.map List.singleton) := by
  refine ⟨flatten_singletons s, fun c hc => ?_⟩
  obtain ⟨a, -, rfl⟩ := List.mem_map.mp hc
  exact ⟨List.cons_ne_nil _ _, hmax⟩

theorem cut_cutAt (max : Nat) {s : List α} {m k : Nat} (hmk : m < k) (hks : k ≤ s.length)
    (hmax : k - m ≤ max) : Cut max s (cutAt s m k) := by
  constructor
  · have hk : s.drop k = (s.drop m).drop (k - m) := by
      rw [List.drop_drop]
      congr 1
      omega
    rw [cutAt, List.flatten_append, List.flatten_cons, flatten_singletons, flatten_singletons,
      hk, List.take_append_drop, List.take_append_drop]
  · intro c hc
    have hsingle : ∀ t : List α, c ∈ t.map List.singleton → c ≠ [] ∧ c.length ≤ max := by
      intro t ht
      exact (cut_singletons t (by omega)).2 c ht
    rw [cutAt, List.mem_append, List.mem_cons] at hc
    rcases hc with hc | rfl | hc
    · exact hsingle _ hc
    · constructor
      · intro hnil
        have hlen := congrArg List.length hnil
        rw [List.length_take, List.length_drop, List.length_nil] at hlen
        omega
      · rw [List.length_take]
        omega
    · exact hsingle _ hc

/-- Chunks of length one up to a position where the judge is still open. -/
theorem firstVerdict_singletons (acc t : List α) (rest : List (List α))
    (hopen : ∀ n, n ≤ t.length → judge (acc ++ t.take n) = none) :
    firstVerdict judge acc (t.map List.singleton ++ rest) = firstVerdict judge (acc ++ t) rest := by
  induction t generalizing acc with
  | nil => simp
  | cons a t ih =>
    have hone : judge (acc ++ [a]) = none := hopen 1 (by simp)
    rw [List.map_cons, List.cons_append, firstVerdict]
    show (judge (acc ++ [a])).or (firstVerdict judge (acc ++ [a]) _) = _
    rw [hone, Option.none_or]
    have hih := ih (acc ++ [a]) fun n hn => by
      have hnext := hopen (n + 1) (by simpa using hn)
      simpa using hnext
    simpa using hih

/-- A judge that is open up to the first position is asked next at the second. -/
theorem firstVerdict_cutAt_eq {s : List α} {m k : Nat} (hmk : m < k) (hks : k ≤ s.length)
    (hopen : ∀ n, n ≤ m → judge (s.take n) = none) :
    firstVerdict judge [] (cutAt s m k) = (judge (s.take k)).or
      (firstVerdict judge (s.take k) ((s.drop k).map List.singleton)) := by
  have htake : s.take m ++ (s.drop m).take (k - m) = s.take k := by
    rw [← List.take_add]
    congr 1
    omega
  have hopen' : ∀ n, n ≤ (s.take m).length → judge ([] ++ (s.take m).take n) = none := by
    intro n hn
    rw [List.length_take] at hn
    rw [List.nil_append, List.take_take, Nat.min_eq_left (by omega)]
    exact hopen n (by omega)
  rw [cutAt, firstVerdict_singletons [] (s.take m) _ hopen', List.nil_append, firstVerdict, htake]

/-- The cut decides at its second position, if the judge does. -/
theorem firstVerdict_cutAt {s : List α} {m k : Nat} (hmk : m < k) (hks : k ≤ s.length)
    (hopen : ∀ n, n ≤ m → judge (s.take n) = none) {v : β} (hv : judge (s.take k) = some v) :
    firstVerdict judge [] (cutAt s m k) = some v := by
  rw [firstVerdict_cutAt_eq hmk hks hopen, hv]
  rfl

/-- The cut decides nowhere before its second position. -/
theorem judge_of_firstVerdict_cutAt {s : List α} {m k : Nat} (hmk : m < k) (hks : k ≤ s.length)
    (hopen : ∀ n, n ≤ m → judge (s.take n) = none) {v : β}
    (h : firstVerdict judge [] (cutAt s m k) = some v) :
    ∃ p, s.take k <+: p ∧ p <+: s ∧ judge p = some v := by
  rw [firstVerdict_cutAt_eq hmk hks hopen, Option.or_eq_some_iff] at h
  rcases h with h | ⟨-, h⟩
  · exact ⟨s.take k, List.prefix_refl _, List.take_prefix _ _, h⟩
  · obtain ⟨p, hk, hp, hv⟩ := judge_of_firstVerdict h
    rw [flatten_singletons, List.take_append_drop] at hp
    exact ⟨p, hk, hp, hv⟩

end CppLaravel.Lib
