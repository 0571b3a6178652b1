import CppLaravel.Blade.Template

/-!
# `CppLaravel.Proofs.Blade.Searches`: the ends of blocks, symbol by symbol

`matching_end` and `find_else` jump from one directive to the next. `closeAt` and `elseAt` walk
over the text instead and count what they pass; both pairs agree (`matchingEnd_eq`,
`findElse_eq`), and the walks pass a text without `@` at once (`closeAt_plain`,
`elseAt_plain`).
-/

set_option autoImplicit false

namespace CppLaravel.Blade

open CppLaravel.Lib
open CppLaravel.Http

/-- The byte that every directive begins with. -/
abbrev atSign : UInt8 := 64

/-- A directive does not begin where another one does. -/
theorem not_prefix_of_other {p q u : Bytes} (hq : q <+: u) (hpq : ¬ p <+: q) (hqp : ¬ q <+: p) :
    ¬ p <+: u :=
  fun hp => (List.prefix_or_prefix_of_prefix hp hq).elim hpq hqp

/-- A directive begins with its first byte. -/
theorem not_prefix_cons_of_ne {p u : Bytes} {x c : UInt8} (hp : p.head? = some x) (hc : c ≠ x) :
    ¬ p <+: c :: u := by
  cases p with
  | nil => cases hp
  | cons y p =>
    intro h
    obtain ⟨hy, -⟩ := List.cons_prefix_cons.mp h
    exact hc (hy ▸ Option.some.inj hp)

/-! ### `matching_end` -/

section
variable (kind : BlockKind)

/-- The distance to the end of the block of which `d` are open. -/
def closeAt : Bytes → Nat → Option Nat
  | [], _ => none
  | c :: s, d =>
    if kind.closing <+: c :: s then
      if d - 1 = 0 then some 0 else (closeAt s (d - 1)).map (· + 1)
    else if kind.opening <+: c :: s then (closeAt s (d + 1)).map (· + 1)
    else (closeAt s d).map (· + 1)

variable {kind}

theorem BlockKind.opening_eq : ∃ q, atSign ∉ q ∧ kind.opening = atSign :: q := by
  cases kind <;> exact ⟨_, by decide, rfl⟩

theorem BlockKind.closing_eq : ∃ q, atSign ∉ q ∧ kind.closing = atSign :: q := by
  cases kind <;> exact ⟨_, by decide, rfl⟩

theorem BlockKind.opening_not_closing : ¬ kind.closing <+: kind.opening ∧
    ¬ kind.opening <+: kind.closing := by
  cases kind <;> decide

theorem closeAt_skip {c : UInt8} {s : Bytes} (hclose : ¬ kind.closing <+: c :: s)
    (hopen : ¬ kind.opening <+: c :: s) (d : Nat) :
    closeAt kind (c :: s) d = (closeAt kind s d).map (· + 1) := by
  rw [closeAt, if_neg hclose, if_neg hopen]

/-- A text without `@` is passed. -/
theorem closeAt_plain {x : Bytes} (hx : atSign ∉ x) (rest : Bytes) (d : Nat) :
    closeAt kind (x ++ rest) d = (closeAt kind rest d).map (· + x.length) := by
  obtain ⟨o, -, ho⟩ := kind.opening_eq
  obtain ⟨e, -, he⟩ := kind.closing_eq
  induction x with
  | nil => simp
  | cons c x ih =>
    rw [List.mem_cons, not_or] at hx
    have hno : ∀ q, ¬ atSign :: q <+: c :: (x ++ rest) :=
      fun q h => hx.1 (List.cons_prefix_cons.mp h).1
    rw [List.cons_append, closeAt_skip (he ▸ hno e) (ho ▸ hno o), ih hx.2, Option.map_map]
    rfl

theorem closeAt_opening (rest : Bytes) (d : Nat) :
    closeAt kind (kind.opening ++ rest) d =
      (closeAt kind rest (d + 1)).map (· + kind.opening.length) := by
  obtain ⟨q, hq, heq⟩ := kind.opening_eq
  have hopen : kind.opening <+: kind.opening ++ rest := List.prefix_append _ _
  have hclose := not_prefix_of_other hopen kind.opening_not_closing.1 kind.opening_not_closing.2
  rw [heq, List.cons_append] at hopen hclose ⊢
  rw [closeAt, if_neg hclose, heq, if_pos hopen, closeAt_plain hq, Option.map_map]
  rfl

theorem closeAt_closing (rest : Bytes) (d : Nat) :
    closeAt kind (kind.closing ++ rest) d =
      if d - 1 = 0 then some 0
      else (closeAt kind rest (d - 1)).map (· + kind.closing.length) := by
  obtain ⟨q, hq, heq⟩ := kind.closing_eq
  have hclose : kind.closing <+: kind.closing ++ rest := List.prefix_append _ _
  rw [heq, List.cons_append] at hclose ⊢
  rw [closeAt, heq, if_pos hclose, closeAt_plain hq, Option.map_map]
  rfl

/-- Any other directive is passed. -/
theorem closeAt_other {q : Bytes} (hq : atSign ∉ q)
    (hopen : ¬ kind.opening <+: atSign :: q ∧ ¬ atSign :: q <+: kind.opening)
    (hclose : ¬ kind.closing <+: atSign :: q ∧ ¬ atSign :: q <+: kind.closing)
    (rest : Bytes) (d : Nat) :
    closeAt kind (atSign :: q ++ rest) d = (closeAt kind rest d).map (· + (q.length + 1)) := by
  have hp : atSign :: q <+: atSign :: q ++ rest := List.prefix_append _ _
  rw [List.cons_append] at hp ⊢
  rw [closeAt_skip (not_prefix_of_other hp hclose.1 hclose.2)
    (not_prefix_of_other hp hopen.1 hopen.2), closeAt_plain hq, Option.map_map]
  rfl

/-! The same three steps, by positions. -/

theorem matchingEnd_none {t : Bytes} {i : Nat} (h : find t kind.closing i = none) (d : Nat) :
    matchingEnd t kind i d = none := by
  rw [matchingEnd]
  split
  · split
    · rfl
    · rename_i hc
      rw [h] at hc
      cases hc
  · rfl

/-- The round of `matching_end` where an end is found. -/
theorem matchingEnd_some {t : Bytes} {i c : Nat} (hi : i < t.length)
    (h : find t kind.closing i = some c) (d : Nat) :
    matchingEnd t kind i d = match (find t kind.opening i).filter (· < c) with
      | some o => matchingEnd t kind (o + kind.opening.length) (d + 1)
      | none =>
        if d - 1 = 0 then some c else matchingEnd t kind (c + kind.closing.length) (d - 1) := by
  rw [matchingEnd, if_pos hi]
  split
  · rename_i hc
    rw [h] at hc
    cases hc
  · rename_i c' hc
    obtain rfl : c = c' := Option.some.inj (h.symm.trans hc)
    split <;> rename_i ho <;> rw [ho]

theorem matchingEnd_closing {t : Bytes} {i : Nat} (hi : i < t.length)
    (h : kind.closing <+: t.drop i) (d : Nat) :
    matchingEnd t kind i d =
      if d - 1 = 0 then some i else matchingEnd t kind (i + kind.closing.length) (d - 1) := by
  have hnone : (find t kind.opening i).filter (· < i) = none := by
    rw [Option.filter_eq_none_iff]
    intro o ho
    have hle := le_of_find ho
    simpa using hle
  rw [matchingEnd_some hi (find_here (Nat.le_of_lt hi) h), hnone]

theorem matchingEnd_opening {t : Bytes} {i : Nat} (hi : i < t.length)
    (h : kind.opening <+: t.drop i) (d : Nat) :
    matchingEnd t kind i d = matchingEnd t kind (i + kind.opening.length) (d + 1) := by
  have hclose := not_prefix_of_other h kind.opening_not_closing.1 kind.opening_not_closing.2
  cases hc : find t kind.closing i with
  | none => rw [matchingEnd_none hc, matchingEnd_none (find_none_of_le (Nat.le_add_right i _) hc)]
  | some c =>
    have hlt : i < c := by
      rw [find_succ hi hclose] at hc
      exact le_of_find hc
    rw [matchingEnd_some hi hc, find_here (Nat.le_of_lt hi) h,
      Option.filter_some_pos (by simpa using hlt)]

theorem matchingEnd_skip {t : Bytes} {i : Nat} (hi : i < t.length)
    (hclose : ¬ kind.closing <+: t.drop i) (hopen : ¬ kind.opening <+: t.drop i) (d : Nat) :
    matchingEnd t kind i d = matchingEnd t kind (i + 1) d := by
  cases hc : find t kind.closing (i + 1) with
  | none => rw [matchingEnd_none hc, matchingEnd_none (by rw [find_succ hi hclose, hc])]
  | some c =>
    have hlt : i + 1 < t.length := (le_of_find hc).trans_lt (find_lt kind.closing_ne_nil hc)
    rw [matchingEnd_some hi (by rw [find_succ hi hclose, hc]), matchingEnd_some hlt hc,
      find_succ hi hopen]

/-- **The two ways to find the end of a block agree.** -/
theorem matchingEnd_eq {t : Bytes} {i : Nat} (hi : i ≤ t.length) (d : Nat) :
    matchingEnd t kind i d = (closeAt kind (t.drop i) d).map (i + ·) := by
  induction hn : t.length - i using Nat.strong_induction_on generalizing i d with
  | _ n ih =>
    subst hn
    -- Behind a directive that stands here.
    have hbehind : ∀ p d, p ≠ [] → p <+: t.drop i → ∃ rest, t.drop i = p ++ rest ∧
        (matchingEnd t kind (i + p.length) d =
          ((closeAt kind rest d).map (· + p.length)).map (i + ·)) := by
      rintro p d hp ⟨rest, hrest⟩
      have hlen := congrArg List.length hrest
      have hpos := List.length_pos_iff.mpr hp
      rw [List.length_append, List.length_drop] at hlen
      have hdrop : t.drop (i + p.length) = rest := by
        rw [← List.drop_drop, ← hrest, List.drop_left]
      refine ⟨rest, hrest.symm, ?_⟩
      rw [ih _ (by omega) (by omega) d rfl, hdrop, Option.map_map]
      congr 1
      funext k
      show i + p.length + k = i + (k + p.length)
      omega
    rcases Nat.lt_or_ge i t.length with hlt | hge
    · have hcons := List.drop_eq_getElem_cons hlt
      by_cases hclose : kind.closing <+: t.drop i
      · obtain ⟨rest, hd, hend⟩ := hbehind _ (d - 1) kind.closing_ne_nil hclose
        rw [matchingEnd_closing hlt hclose, hend, hd, closeAt_closing]
        split <;> rfl
      · by_cases hopen : kind.opening <+: t.drop i
        · obtain ⟨rest, hd, hend⟩ := hbehind _ (d + 1) kind.opening_ne_nil hopen
          rw [matchingEnd_opening hlt hopen, hend, hd, closeAt_opening]
        · rw [matchingEnd_skip hlt hclose hopen, ih _ (by omega) hlt d rfl]
          rw [hcons] at hclose hopen ⊢
          rw [closeAt_skip hclose hopen, Option.map_map]
          congr 1
          funext k
          show i + 1 + k = i + (k + 1)
          omega
    · have hnil : t.drop i = [] := List.drop_eq_nil_of_le hge
      rw [matchingEnd, if_neg (by omega), hnil]
      rfl

end

/-! ### `find_else` -/

/-- The distance to the `@else` that belongs to no inner block, among the first `n` bytes. -/
def elseAt : Nat → Bytes → Int → Option Nat
  | 0, _, _ => none
  | _, [], _ => none
  | n + 1, c :: s, d =>
    if bytes "@if(" <+: c :: s then (elseAt n s (d + 1)).map (· + 1)
    else if bytes "@endif" <+: c :: s then (elseAt n s (d - 1)).map (· + 1)
    else if bytes "@else" <+: c :: s then
      if d = 0 then some 0 else (elseAt n s d).map (· + 1)
    else (elseAt n s d).map (· + 1)

theorem elseAt_zero (s : Bytes) (d : Int) : elseAt 0 s d = none := by
  cases s <;> rfl

theorem elseAt_nil (n : Nat) (d : Int) : elseAt n [] d = none := by
  cases n <;> rfl

theorem elseAt_skip {c : UInt8} {s : Bytes} (hif : ¬ bytes "@if(" <+: c :: s)
    (hend : ¬ bytes "@endif" <+: c :: s) (helse : ¬ bytes "@else" <+: c :: s) (n : Nat) (d : Int) :
    elseAt n (c :: s) d = (elseAt (n - 1) s d).map (· + 1) := by
  cases n with
  | zero => rw [elseAt_zero, elseAt_zero, Option.map_none]
  | succ n => rw [elseAt, if_neg hif, if_neg hend, if_neg helse, Nat.add_sub_cancel]

/-- A text without `@` is passed. -/
theorem elseAt_plain {x : Bytes} (hx : atSign ∉ x) (rest : Bytes) (n : Nat) (d : Int) :
    elseAt n (x ++ rest) d = (elseAt (n - x.length) rest d).map (· + x.length) := by
  induction x generalizing n with
  | nil => simp
  | cons c x ih =>
    rw [List.mem_cons, not_or] at hx
    have hno : ∀ q, ¬ atSign :: q <+: c :: (x ++ rest) :=
      fun q h => hx.1 (List.cons_prefix_cons.mp h).1
    rw [List.cons_append, elseAt_skip (hno _) (hno _) (hno _), ih hx.2, Option.map_map,
      Nat.sub_sub, Nat.add_comm 1, List.length_cons]
    rfl

theorem elseAt_if (rest : Bytes) (n : Nat) (d : Int) :
    elseAt n (bytes "@if(" ++ rest) d = (elseAt (n - 4) rest (d + 1)).map (· + 4) := by
  cases n with
  | zero => rw [Nat.zero_sub, elseAt_zero, elseAt_zero, Option.map_none]
  | succ n =>
    have hif : bytes "@if(" <+: atSign :: (bytes "if(" ++ rest) := List.prefix_append _ _
    show elseAt (n + 1) (atSign :: (bytes "if(" ++ rest)) d = _
    rw [elseAt, if_pos hif, elseAt_plain (by decide), Option.map_map]
    rfl

theorem elseAt_endif (rest : Bytes) (n : Nat) (d : Int) :
    elseAt n (bytes "@endif" ++ rest) d = (elseAt (n - 6) rest (d - 1)).map (· + 6) := by
  cases n with
  | zero => rw [Nat.zero_sub, elseAt_zero, elseAt_zero, Option.map_none]
  | succ n =>
    have hend : bytes "@endif" <+: atSign :: (bytes "endif" ++ rest) := List.prefix_append _ _
    show elseAt (n + 1) (atSign :: (bytes "endif" ++ rest)) d = _
    rw [elseAt, if_neg (not_prefix_of_other hend (by decide) (by decide)), if_pos hend,
      elseAt_plain (by decide), Option.map_map]
    rfl

theorem elseAt_else (rest : Bytes) (n : Nat) (d : Int) :
    elseAt (n + 1) (bytes "@else" ++ rest) d =
      if d = 0 then some 0 else (elseAt (n - 4) rest d).map (· + 5) := by
  have helse : bytes "@else" <+: atSign :: (bytes "else" ++ rest) := List.prefix_append _ _
  show elseAt (n + 1) (atSign :: (bytes "else" ++ rest)) d = _
  rw [elseAt, if_neg (not_prefix_of_other helse (by decide) (by decide)),
    if_neg (not_prefix_of_other helse (by decide) (by decide)), if_pos helse,
    elseAt_plain (by decide), Option.map_map]
  rfl

/-- The `@else` of an inner block is passed. -/
theorem elseAt_else_inner (rest : Bytes) (n : Nat) {d : Int} (hd : d ≠ 0) :
    elseAt n (bytes "@else" ++ rest) d = (elseAt (n - 5) rest d).map (· + 5) := by
  cases n with
  | zero => rw [Nat.zero_sub, elseAt_zero, elseAt_zero, Option.map_none]
  | succ n => rw [elseAt_else, if_neg hd, Nat.add_sub_add_right]

/-- Any other directive is passed. -/
theorem elseAt_other {q : Bytes} (hq : atSign ∉ q)
    (hif : ¬ bytes "@if(" <+: atSign :: q ∧ ¬ atSign :: q <+: bytes "@if(")
    (hend : ¬ bytes "@endif" <+: atSign :: q ∧ ¬ atSign :: q <+: bytes "@endif")
    (helse : ¬ bytes "@else" <+: atSign :: q ∧ ¬ atSign :: q <+: bytes "@else")
    (rest : Bytes) (n : Nat) (d : Int) :
    elseAt n (atSign :: q ++ rest) d =
      (elseAt (n - (q.length + 1)) rest d).map (· + (q.length + 1)) := by
  have hp : atSign :: q <+: atSign :: q ++ rest := List.prefix_append _ _
  rw [List.cons_append] at hp ⊢
  rw [elseAt_skip (not_prefix_of_other hp hif.1 hif.2) (not_prefix_of_other hp hend.1 hend.2)
    (not_prefix_of_other hp helse.1 helse.2), elseAt_plain hq, Option.map_map, Nat.sub_sub,
    Nat.add_comm 1]
  rfl

/-! The same steps, by positions. -/

section
variable {t : Bytes} {e i : Nat}

/-- A round of `find_else` before its limit. -/
theorem findElse_eq_step (hi : i < e) (d : Int) :
    findElse t (some e) i d =
      match earliest [find t (bytes "@if(") i, find t (bytes "@endif") i,
        find t (bytes "@else") i] with
      | none => none
      | some n =>
        if ¬ n < e then none
        else if find t (bytes "@if(") i = some n then findElse t (some e) (n + 4) (d + 1)
        else if find t (bytes "@endif") i = some n then findElse t (some e) (n + 6) (d - 1)
        else if d = 0 then some n
        else findElse t (some e) (n + 5) d := by
  rw [findElse, if_pos (by simpa using hi)]
  dsimp only
  split
  · rename_i h
    rw [h]
  · rename_i n h
    rw [h]
    simp

theorem findElse_limit (hi : e ≤ i) (d : Int) : findElse t (some e) i d = none := by
  rw [findElse, if_neg (by simpa using hi)]

/-- The earliest directive is the one that stands at the position. -/
theorem earliest_find {ps : List Bytes} {p : Bytes} (hp : p ∈ ps) (hi : i ≤ t.length)
    (h : p <+: t.drop i) : earliest (ps.map fun p => find t p i) = some i := by
  rw [earliest_eq_some_iff]
  constructor
  · exact List.mem_map.mpr ⟨p, hp, find_here hi h⟩
  · intro q hq
    obtain ⟨p', -, hp'⟩ := List.mem_map.mp hq
    exact le_of_find hp'

/-- The round where one of the three directives stands at the position. -/
theorem findElse_here (hi : i < e) (hlt : i ≤ t.length) {p : Bytes}
    (hp : p ∈ [bytes "@if(", bytes "@endif", bytes "@else"]) (h : p <+: t.drop i) (d : Int) :
    findElse t (some e) i d =
      if bytes "@if(" <+: t.drop i then findElse t (some e) (i + 4) (d + 1)
      else if bytes "@endif" <+: t.drop i then findElse t (some e) (i + 6) (d - 1)
      else if d = 0 then some i
      else findElse t (some e) (i + 5) d := by
  have hearly : earliest [find t (bytes "@if(") i, find t (bytes "@endif") i,
      find t (bytes "@else") i] = some i := earliest_find hp hlt h
  rw [findElse_eq_step hi, hearly]
  simp only [hi, not_true_eq_false, if_false, find_eq_self_iff hlt]

/-- The round where none of them does. -/
theorem findElse_skip (hi : i < e) (hlt : i < t.length)
    (hno : ∀ p ∈ [bytes "@if(", bytes "@endif", bytes "@else"], ¬ p <+: t.drop i) (d : Int) :
    findElse t (some e) i d = findElse t (some e) (i + 1) d := by
  have hif := find_succ hlt (hno (bytes "@if(") (by simp))
  have hend := find_succ hlt (hno (bytes "@endif") (by simp))
  have helse := find_succ hlt (hno (bytes "@else") (by simp))
  rw [findElse_eq_step hi, hif, hend, helse]
  rcases Nat.lt_or_ge (i + 1) e with hlt' | hge
  · rw [findElse_eq_step hlt']
  · -- Whatever is found is behind the limit.
    rw [findElse_limit hge]
    split
    · rfl
    · rename_i n hn
      obtain ⟨p, hp⟩ : ∃ p, find t p (i + 1) = some n := by
        have hmem := (earliest_eq_some_iff.mp hn).1
        simp only [List.mem_cons, List.not_mem_nil, or_false] at hmem
        obtain h | h | h := hmem <;> exact ⟨_, h.symm⟩
      have hle := le_of_find hp
      rw [if_pos (by omega)]

/-- **The two ways to find the `@else` of a block agree.** -/
theorem findElse_eq (hi : i ≤ t.length) (d : Int) :
    findElse t (some e) i d = (elseAt (e - i) (t.drop i) d).map (i + ·) := by
  induction hn : t.length - i using Nat.strong_induction_on generalizing i d with
  | _ n ih =>
    subst hn
    rcases Nat.lt_or_ge i e with hie | hge
    swap
    · rw [findElse_limit hge, Nat.sub_eq_zero_of_le hge]
      cases t.drop i <;> rfl
    -- Behind a directive that stands here.
    have hbehind : ∀ p d, p ≠ [] → p <+: t.drop i → ∃ rest, t.drop i = p ++ rest ∧
        findElse t (some e) (i + p.length) d =
          ((elseAt (e - i - p.length) rest d).map (· + p.length)).map (i + ·) := by
      rintro p d hp ⟨rest, hrest⟩
      have hlen := congrArg List.length hrest
      have hpos := List.length_pos_iff.mpr hp
      rw [List.length_append, List.length_drop] at hlen
      have hdrop : t.drop (i + p.length) = rest := by
        rw [← List.drop_drop, ← hrest, List.drop_left]
      refine ⟨rest, hrest.symm, ?_⟩
      rw [ih _ (by omega) (by omega) d rfl, hdrop, Option.map_map, Nat.sub_sub]
      congr 1
      funext k
      show i + p.length + k = i + (k + p.length)
      omega
    by_cases hif : bytes "@if(" <+: t.drop i
    · obtain ⟨rest, hd, hend⟩ := hbehind _ (d + 1) (by decide) hif
      rw [findElse_here hie hi (by simp) hif, if_pos hif]
      refine hend.trans ?_
      rw [hd, elseAt_if]
      rfl
    by_cases hendif : bytes "@endif" <+: t.drop i
    · obtain ⟨rest, hd, hend⟩ := hbehind _ (d - 1) (by decide) hendif
      rw [findElse_here hie hi (by simp) hendif, if_neg hif, if_pos hendif]
      refine hend.trans ?_
      rw [hd, elseAt_endif]
      rfl
    by_cases helse : bytes "@else" <+: t.drop i
    · obtain ⟨rest, hd, hend⟩ := hbehind _ d (by decide) helse
      obtain ⟨m, hm⟩ := Nat.exists_eq_add_of_lt hie
      have hsub : e - i = m + 1 := by omega
      rw [findElse_here hie hi (by simp) helse, if_neg hif, if_neg hendif, hd, hsub, elseAt_else]
      rw [hsub] at hend
      split
      · rfl
      · exact hend
    rcases Nat.lt_or_ge i t.length with hlt | hge
    · have hno : ∀ p ∈ [bytes "@if(", bytes "@endif", bytes "@else"], ¬ p <+: t.drop i := by
        simp [hif, hendif, helse]
      rw [findElse_skip hie hlt hno, ih _ (by omega) hlt d rfl]
      rw [List.drop_eq_getElem_cons hlt] at hif hendif helse ⊢
      rw [elseAt_skip hif hendif helse, Option.map_map, Nat.sub_sub]
      congr 1
      funext k
      show i + 1 + k = i + (k + 1)
      omega
    · have hnil : t.drop i = [] := List.drop_eq_nil_of_le hge
      rw [findElse_eq_step hie, find_eq_none_of_length_le (by decide) hge,
        find_eq_none_of_length_le (by decide) hge, find_eq_none_of_length_le (by decide) hge,
        hnil, elseAt_nil]
      rfl

end

end CppLaravel.Blade
