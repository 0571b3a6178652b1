import Mathlib.Data.List.Nodup
import Mathlib.Data.List.Perm.Subperm

/-!
# `CppLaravel.Lib.FixedWindow`: counting in windows of a fixed length

A counter keeps the start of its window and how many hits there were in it. A hit at least a
window's length after the start opens a new window (`hit`); `counts` are the counters after each
hit of a sequence. With a budget for each window, a hit is admitted while the count is within it.

* `counts_pairwise`: windows come one after the other, and within a window the count grows.
* `length_admitted_le`: no window admits more than the budget.
* `count_hit_of_le`: a hit that comes a window's length after the start is the first of its window.
-/

set_option autoImplicit false

namespace CppLaravel.Lib

/-- A window that is being counted. -/
structure Window where
  start : Int
  count : Nat
deriving DecidableEq

namespace Window

/-- The counter after a hit. -/
def hit (length : Int) (c : Option Window) (now : Int) : Window :=
  match c with
  | none => ⟨now, 1⟩
  | some c => if now - c.start ≥ length then ⟨now, 1⟩ else ⟨c.start, c.count + 1⟩

/-- The counters after each hit. -/
def counts (length : Int) : Option Window → List Int → List Window
  | _, [] => []
  | c, now :: nows => hit length c now :: counts length (some (hit length c now)) nows

/-- The counter after a sequence of hits. -/
def after (length : Int) (c : Option Window) (nows : List Int) : Option Window :=
  nows.foldl (fun c now => some (hit length c now)) c

variable {length : Int}

theorem counts_append (c : Option Window) (nows nows' : List Int) :
    counts length c (nows ++ nows') =
      counts length c nows ++ counts length (after length c nows) nows' := by
  induction nows generalizing c with
  | nil => rfl
  | cons now nows ih => simp [counts, after, ih]

theorem length_counts (c : Option Window) (nows : List Int) :
    (counts length c nows).length = nows.length := by
  induction nows generalizing c with
  | nil => rfl
  | cons now nows ih => simp [counts, ih]

variable (length) in
/-- The counter after a hit of a sequence. -/
theorem getElem?_counts (c : Option Window) (nows : List Int) (now : Int) (nows' : List Int) :
    (counts length c (nows ++ now :: nows'))[nows.length]? =
      some (hit length (after length c nows) now) := by
  rw [counts_append, List.getElem?_append_right (Nat.le_of_eq (length_counts c nows)),
    length_counts, Nat.sub_self]
  rfl

/-- The order in which counters come. -/
def Before (c c' : Window) : Prop :=
  c.start < c'.start ∨ c.start = c'.start ∧ c.count < c'.count

theorem before_hit (hlength : 0 < length) (c : Window) (now : Int) :
    Before c (hit length (some c) now) := by
  unfold hit
  dsimp only
  split
  · exact .inl (show c.start < now by omega)
  · exact .inr ⟨rfl, Nat.lt_succ_self _⟩

theorem Before.trans {a b c : Window} (h : Before a b) (h' : Before b c) : Before a c := by
  unfold Before at *
  omega

theorem before_of_mem_counts (hlength : 0 < length) {c c' : Window} {nows : List Int}
    (h : c' ∈ counts length (some c) nows) : Before c c' := by
  induction nows generalizing c with
  | nil => cases h
  | cons now nows ih =>
    have hhit := before_hit hlength c now
    rcases List.mem_cons.mp h with rfl | h
    · exact hhit
    · exact hhit.trans (ih h)

/-- Windows come one after the other, and within a window the count grows. -/
theorem counts_pairwise (hlength : 0 < length) (c : Option Window) (nows : List Int) :
    (counts length c nows).Pairwise Before := by
  induction nows generalizing c with
  | nil => exact .nil
  | cons now nows ih =>
    exact .cons (fun _ h => before_of_mem_counts hlength h) (ih _)

theorem count_pos_of_mem_counts {c : Option Window} {c' : Window} {nows : List Int}
    (h : c' ∈ counts length c nows) : 0 < c'.count := by
  induction nows generalizing c with
  | nil => cases h
  | cons now nows ih =>
    rcases List.mem_cons.mp h with rfl | h
    · unfold hit
      split
      · exact Nat.one_pos
      · split
        · exact Nat.one_pos
        · exact Nat.succ_pos _
    · exact ih h

/-- No window admits more than the budget. -/
theorem length_admitted_le (hlength : 0 < length) (budget : Nat) (c : Option Window)
    (nows : List Int) (start : Int) :
    ((counts length c nows).filter fun c => c.start = start ∧ c.count ≤ budget).length ≤
      budget := by
  let l := (counts length c nows).filter fun c => c.start = start ∧ c.count ≤ budget
  have hl : ∀ c' ∈ l, c'.start = start ∧ 0 < c'.count ∧ c'.count ≤ budget := by
    intro c' hc'
    obtain ⟨hmem, hcond⟩ := List.mem_filter.mp hc'
    have hcond : c'.start = start ∧ c'.count ≤ budget := by simpa using hcond
    exact ⟨hcond.1, count_pos_of_mem_counts hmem, hcond.2⟩
  -- Within one window the counts are different numbers up to the budget.
  have hincreasing : (l.map count).Pairwise (· < ·) := by
    rw [List.pairwise_map]
    have hpairwise := (counts_pairwise hlength c nows).filter
      (fun c => decide (c.start = start ∧ c.count ≤ budget))
    refine hpairwise.imp_of_mem fun {a b} ha hb hab => ?_
    have hstart := (hl a ha).1.trans (hl b hb).1.symm
    rcases hab with hlt | ⟨-, hlt⟩
    · omega
    · exact hlt
  have hsub : l.map count ⊆ List.range' 1 budget := by
    intro n hn
    obtain ⟨c', hc', rfl⟩ := List.mem_map.mp hn
    have := hl c' hc'
    rw [List.mem_range'_1]
    omega
  have hnodup : (l.map count).Nodup := hincreasing.imp fun h => Nat.ne_of_lt h
  have hle := (List.subperm_of_subset hnodup hsub).length_le
  rwa [List.length_map, List.length_range'] at hle

/-- A hit lies in its window. -/
theorem lt_start_hit (hlength : 0 < length) (c : Option Window) (now : Int) :
    now < (hit length c now).start + length := by
  unfold hit
  split
  · show now < now + length
    omega
  · rename_i c
    split
    · show now < now + length
      omega
    · show now < c.start + length
      omega

/-- The first hit after a window is over opens a new one. -/
theorem hit_of_le {c : Window} {now : Int} (h : c.start + length ≤ now) :
    hit length (some c) now = ⟨now, 1⟩ := by
  unfold hit
  exact if_pos (by omega)

/-- The window stays while it lasts, and every hit is counted. -/
theorem after_within (c : Window) (nows : List Int) (h : ∀ now ∈ nows, now < c.start + length) :
    after length (some c) nows = some ⟨c.start, c.count + nows.length⟩ := by
  induction nows generalizing c with
  | nil => rfl
  | cons now nows ih =>
    have hnow := h now List.mem_cons_self
    have hhit : hit length (some c) now = ⟨c.start, c.count + 1⟩ := if_neg (by omega)
    show after length (some (hit length (some c) now)) nows = _
    have hrest := ih ⟨c.start, c.count + 1⟩ fun n hn => h n (List.mem_cons_of_mem now hn)
    rw [hhit, hrest, List.length_cons, Nat.add_assoc, Nat.add_comm 1]

/-- Hits at one time are all counted. -/
theorem hit_after_replicate (hlength : 0 < length) (n : Nat) (now : Int) :
    hit length (after length none (List.replicate n now)) now = ⟨now, n + 1⟩ := by
  cases n with
  | zero => rfl
  | succ n =>
    have hin : ∀ t ∈ List.replicate n now, t < now + length := by
      intro t ht
      rw [List.eq_of_mem_replicate ht]
      omega
    have hafter := after_within ⟨now, 1⟩ (List.replicate n now) hin
    have hnot : ¬ now - now ≥ length := by omega
    show hit length (after length (some ⟨now, 1⟩) (List.replicate n now)) now = _
    rw [hafter, List.length_replicate, Nat.add_comm 1]
    exact if_neg hnot

/-- A counter counts no more hits than there were. -/
theorem count_le_of_mem_counts {c : Option Window} {c' : Window} {nows : List Int}
    (h : c' ∈ counts length c nows) : c'.count ≤ c.elim 0 count + nows.length := by
  induction nows generalizing c with
  | nil => cases h
  | cons now nows ih =>
    have hhit : (hit length c now).count ≤ c.elim 0 count + 1 := by
      unfold hit
      split
      · exact Nat.le_refl _
      · split
        · exact Nat.le_add_left _ _
        · exact Nat.le_refl _
    rw [List.length_cons]
    rcases List.mem_cons.mp h with rfl | h
    · omega
    · have hle : c'.count ≤ (hit length c now).count + nows.length := ih h
      omega

end Window

end CppLaravel.Lib
