import Mathlib.Data.List.Basic
import Mathlib.Data.List.Forall2
import Mathlib.Data.List.Lemmas
import Mathlib.Data.List.Nodup

/-!
# `CppLaravel.Lib.Keyed`: lists looked up, replaced and erased by a key

A table is a list whose elements carry a key. `getKey` is the first element with the key,
`setKey` replaces that element, `eraseKey` drops every element with the key. Each
operation has one lemma for its own key and one for every other key; these are the only
facts the proofs about tables use.
-/

set_option autoImplicit false

namespace CppLaravel.Lib

variable {β γ κ : Type*} [DecidableEq κ] (key : β → κ)

/-- The first element with the key `k`. -/
def getKey (k : κ) (l : List β) : Option β := l.find? fun b => key b = k

/-- Replace the first element with the key `k` by `b`; nothing happens without one. -/
def setKey (k : κ) (b : β) (l : List β) : List β :=
  l.replaceF fun x => if key x = k then some b else none

/-- Drop every element with the key `k`. -/
def eraseKey (k : κ) (l : List β) : List β := l.filter fun b => key b ≠ k

variable {key}

@[simp] theorem getKey_nil (k : κ) : getKey key k [] = none := rfl

theorem getKey_cons (k : κ) (b : β) (l : List β) :
    getKey key k (b :: l) = if key b = k then some b else getKey key k l := by
  by_cases h : key b = k <;> simp [getKey, h]

theorem setKey_cons (k : κ) (b x : β) (l : List β) :
    setKey key k b (x :: l) = if key x = k then b :: l else x :: setKey key k b l := by
  by_cases h : key x = k <;> simp [setKey, List.replaceF, h]

/-- An element that is found is still found after an append. -/
theorem getKey_append (k : κ) (l l' : List β) :
    getKey key k (l ++ l') = (getKey key k l).or (getKey key k l') := by
  simp [getKey, List.find?_append]

/-- The replaced key is found with its new element, if it was found before. -/
theorem getKey_setKey_self {k : κ} {b : β} (hb : key b = k) (l : List β) :
    getKey key k (setKey key k b l) = (getKey key k l).map fun _ => b := by
  induction l with
  | nil => rfl
  | cons x l ih =>
    rw [setKey_cons, getKey_cons]
    split
    · simp [getKey_cons, hb]
    · rename_i hx
      rw [getKey_cons, if_neg hx, ih]

/-- Every other key is found as before. -/
theorem getKey_setKey_ne {k k' : κ} {b : β} (hb : key b = k) (hk : k' ≠ k) (l : List β) :
    getKey key k' (setKey key k b l) = getKey key k' l := by
  induction l with
  | nil => rfl
  | cons x l ih =>
    rw [setKey_cons]
    split
    · rename_i hx
      rw [getKey_cons, getKey_cons, if_neg (hb ▸ hk.symm), if_neg (hx ▸ hk.symm)]
    · rw [getKey_cons, getKey_cons, ih]

/-- Replacing an element adds and removes no key. -/
theorem isSome_getKey_setKey {k : κ} {b : β} (hb : key b = k) (k' : κ) (l : List β) :
    (getKey key k' (setKey key k b l)).isSome = (getKey key k' l).isSome := by
  by_cases hk : k' = k
  · rw [hk, getKey_setKey_self hb, Option.isSome_map]
  · rw [getKey_setKey_ne hb hk]

@[simp] theorem getKey_eraseKey_self (k : κ) (l : List β) :
    getKey key k (eraseKey key k l) = none := by
  rw [getKey, List.find?_eq_none]
  intro b hb
  simpa [eraseKey] using (List.mem_filter.mp hb).2

theorem getKey_eraseKey_ne {k k' : κ} (hk : k' ≠ k) (l : List β) :
    getKey key k' (eraseKey key k l) = getKey key k' l := by
  induction l with
  | nil => rfl
  | cons x l ih =>
    by_cases hx : key x = k
    · have hx' : key x ≠ k' := fun h => hk (h.symm.trans hx)
      rw [getKey_cons, if_neg hx', ← ih]
      simp [eraseKey, hx]
    · rw [getKey_cons, ← ih, ← getKey_cons]
      simp [eraseKey, hx]

/-- With keys of their own, the element that is found is the one with the key. -/
theorem getKey_eq_some_iff {l : List β} (hnodup : (l.map key).Nodup) {k : κ} {b : β} :
    getKey key k l = some b ↔ b ∈ l ∧ key b = k := by
  constructor
  · intro h
    exact ⟨List.mem_of_find?_eq_some h, by simpa using List.find?_some h⟩
  · rintro ⟨hmem, rfl⟩
    cases hfound : getKey key (key b) l with
    | none =>
      have hnone := List.find?_eq_none.mp hfound b hmem
      simp at hnone
    | some x =>
      have hkey : key x = key b := by simpa using List.find?_some hfound
      rw [List.inj_on_of_nodup_map hnodup (List.mem_of_find?_eq_some hfound) hmem hkey]

/-- With keys of their own, replacing the first element with the key replaces the only one. -/
theorem setKey_eq_map {l : List β} (hnodup : (l.map key).Nodup) (k : κ) (b : β) :
    setKey key k b l = l.map fun x => if key x = k then b else x := by
  induction l with
  | nil => rfl
  | cons x l ih =>
    obtain ⟨hx, hl⟩ := List.nodup_cons.mp hnodup
    rw [setKey_cons, List.map_cons]
    split
    · rename_i hkey
      have hrest : l.map (fun y => if key y = k then b else y) = l.map id := by
        refine List.map_congr_left fun y hy => if_neg fun hy' => hx ?_
        rw [hkey, ← hy']
        exact List.mem_map_of_mem hy
      rw [hrest, List.map_id]
    · rw [ih hl]

/-- Replacing an element changes no key. -/
theorem map_setKey {k : κ} {b : β} (hb : key b = k) (l : List β) :
    (setKey key k b l).map key = l.map key := by
  induction l with
  | nil => rfl
  | cons x l ih =>
    rw [setKey_cons]
    split
    · rename_i hx
      rw [List.map_cons, List.map_cons, hb, hx]
    · rw [List.map_cons, List.map_cons, ih]

/-- Replacing an element keeps the number of elements. -/
theorem length_setKey {k : κ} {b : β} (hb : key b = k) (l : List β) :
    (setKey key k b l).length = l.length := by
  have hmap := congrArg List.length (map_setKey hb l)
  rwa [List.length_map, List.length_map] at hmap

/-- Erasing a key that is found drops one element, if the keys are different. -/
theorem length_eraseKey {l : List β} (hnodup : (l.map key).Nodup) {k : κ} {b : β}
    (hb : getKey key k l = some b) : (eraseKey key k l).length + 1 = l.length := by
  induction l with
  | nil => cases hb
  | cons x l ih =>
    rw [List.map_cons, List.nodup_cons] at hnodup
    rw [getKey_cons] at hb
    split at hb
    · -- The key is at the head, and nowhere else.
      rename_i hx
      have hrest : eraseKey key k l = l := by
        refine List.filter_eq_self.mpr fun y hy => decide_eq_true fun hyk => hnodup.1 ?_
        rw [hx, ← hyk]
        exact List.mem_map_of_mem hy
      have hhead : eraseKey key k (x :: l) = eraseKey key k l :=
        List.filter_cons_of_neg (by simpa using hx)
      rw [hhead, hrest, List.length_cons]
    · rename_i hx
      have hhead : eraseKey key k (x :: l) = x :: eraseKey key k l :=
        List.filter_cons_of_pos (by simpa using hx)
      rw [hhead, List.length_cons, List.length_cons, ih hnodup.2 hb]

/-- What is in the table after an element is replaced. -/
theorem mem_of_mem_setKey {k : κ} {b x : β} {l : List β} (hx : x ∈ setKey key k b l) :
    x = b ∨ x ∈ l := by
  induction l with
  | nil => cases hx
  | cons y l ih =>
    rw [setKey_cons] at hx
    split at hx
    · exact (List.mem_cons.mp hx).imp_right (List.mem_cons_of_mem _)
    · cases List.mem_cons.mp hx with
      | inl h => exact .inr (h ▸ List.mem_cons_self)
      | inr h => exact (ih h).imp_right (List.mem_cons_of_mem _)

/-- An element that one key finds is replaced under another key of its own that no other element
has. -/
theorem setKey_eq_of_getKey {κ' : Type*} [DecidableEq κ'] {key' : β → κ'} {k : κ} {b r : β}
    {l : List β} (hr : getKey key k l = some r) (hnodup : (l.map key').Nodup) :
    setKey key' (key' r) b l = setKey key k b l := by
  induction l with
  | nil => rfl
  | cons x l ih =>
    obtain ⟨hx, hl⟩ := List.nodup_cons.mp hnodup
    rw [getKey_cons] at hr
    rw [setKey_cons, setKey_cons]
    by_cases hkey : key x = k
    · rw [if_pos hkey] at hr
      obtain rfl := Option.some.inj hr
      rw [if_pos rfl, if_pos hkey]
    · rw [if_neg hkey] at hr
      have hmem : r ∈ l := List.mem_of_find?_eq_some hr
      have hne : key' x ≠ key' r := fun h => hx (h ▸ List.mem_map_of_mem hmem)
      rw [if_neg hne, if_neg hkey, ih hr hl]

/-! ### Tables under a map that keeps the key -/

section Map

variable {key' : γ → κ} {f : β → γ}

theorem getKey_map (hf : ∀ b, key' (f b) = key b) (k : κ) (l : List β) :
    getKey key' k (l.map f) = (getKey key k l).map f := by
  induction l with
  | nil => rfl
  | cons x l ih =>
    rw [List.map_cons, getKey_cons, getKey_cons, hf, ih]
    split <;> rfl

theorem setKey_map (hf : ∀ b, key' (f b) = key b) (k : κ) (b : β) (l : List β) :
    setKey key' k (f b) (l.map f) = (setKey key k b l).map f := by
  induction l with
  | nil => rfl
  | cons x l ih =>
    rw [List.map_cons, setKey_cons, setKey_cons, hf, ih]
    split <;> rfl

theorem eraseKey_map (hf : ∀ b, key' (f b) = key b) (k : κ) (l : List β) :
    eraseKey key' k (l.map f) = (eraseKey key k l).map f := by
  simp [eraseKey, List.filter_map, Function.comp_def, hf]

end Map

/-! ### Related tables -/

section Related

variable {key' : γ → κ} {R : β → γ → Prop} {l : List β} {l' : List γ}

theorem rel_getKey (hR : ∀ b c, R b c → key b = key' c) (h : List.Forall₂ R l l') (k : κ) :
    Option.Rel R (getKey key k l) (getKey key' k l') := by
  induction h with
  | nil => exact .none
  | @cons b c _ _ hbc _ ih =>
    rw [getKey_cons, getKey_cons, hR b c hbc]
    split
    · exact .some hbc
    · exact ih

theorem rel_setKey (hR : ∀ b c, R b c → key b = key' c) (h : List.Forall₂ R l l') (k : κ) {b : β}
    {c : γ} (hbc : R b c) : List.Forall₂ R (setKey key k b l) (setKey key' k c l') := by
  induction h with
  | nil => exact .nil
  | @cons x y _ _ hxy h ih =>
    rw [setKey_cons, setKey_cons, hR x y hxy]
    split
    · exact .cons hbc h
    · exact .cons hxy ih

theorem rel_eraseKey (hR : ∀ b c, R b c → key b = key' c) (h : List.Forall₂ R l l') (k : κ) :
    List.Forall₂ R (eraseKey key k l) (eraseKey key' k l') := by
  refine List.rel_filter (fun b c hbc => ?_) h
  show decide (key b ≠ k) = true ↔ decide (key' c ≠ k) = true
  rw [hR b c hbc]

end Related

end CppLaravel.Lib
