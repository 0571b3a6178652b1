import Mathlib.Data.List.Basic
import Mathlib.Data.List.Infix

/-!
# `CppLaravel.Lib.DotLines`: lines, and blocks of lines that end at a lone dot

A text is read line by line; a line ends at the two symbols `cr` and `lf`. `lines` are the lines
that are complete. Every occurrence of the terminator ends a line, so the lines of a text that ends
with one and of what follows it are those of both (`lines_append`).

A block of lines ends at the first line that is a single `dot`, and a dot in front of any other line
does not count. What is written as a block is read back if no line begins with a dot
(`block_of_plain`), and less than it otherwise (`length_lt_of_block`). Which texts have a line that
begins with a dot is `exists_dot_line_iff`.
-/

set_option autoImplicit false

namespace CppLaravel.Lib

variable {α : Type*} [DecidableEq α]

section
variable (cr lf : α)

/-- A line as it is written. -/
def lineText (l : List α) : List α := l ++ [cr, lf]

/-- The complete lines of a text, where `acc` stands before it on its first line. -/
def linesFrom (acc : List α) : List α → List (List α)
  | c :: d :: s =>
    if c = cr ∧ d = lf then acc :: linesFrom [] s else linesFrom (acc ++ [c]) (d :: s)
  | _ => []

/-- The complete lines of a text. -/
def lines (s : List α) : List (List α) := linesFrom cr lf [] s

/-! ### Reading complete texts -/

theorem linesFrom_terminator (acc s : List α) :
    linesFrom cr lf acc (cr :: lf :: s) = acc :: lines cr lf s := by
  rw [linesFrom, if_pos ⟨rfl, rfl⟩, lines]

/-- A symbol that begins no terminator belongs to the line. -/
theorem linesFrom_cons {c : α} {s : List α} (h : ¬ [cr, lf] <+: c :: s) (acc : List α) :
    linesFrom cr lf acc (c :: s) = linesFrom cr lf (acc ++ [c]) s := by
  cases s with
  | nil => rfl
  | cons d s =>
    have hc : ¬ (c = cr ∧ d = lf) := by
      rintro ⟨rfl, rfl⟩
      exact h ⟨s, rfl⟩
    rw [linesFrom, if_neg hc]

/-- Induction along the lines of a text: it is at its end, at a terminator, or at a symbol of the
line. -/
theorem lines_induction {P : List α → List α → Prop} (nil : ∀ acc, P acc [])
    (terminator : ∀ acc t, P [] t → P acc (cr :: lf :: t))
    (cons : ∀ acc c t, ¬ [cr, lf] <+: c :: t → P (acc ++ [c]) t → P acc (c :: t))
    (acc t : List α) : P acc t := by
  induction hlength : t.length using Nat.strongRecOn generalizing acc t with
  | ind n ih =>
    cases t with
    | nil => exact nil acc
    | cons c t =>
      by_cases h : [cr, lf] <+: c :: t
      · obtain ⟨s, hs⟩ := h
        rw [← hs] at hlength ⊢
        have hshort : s.length < n := by
          rw [← hlength, List.length_append]
          exact Nat.lt_add_of_pos_left Nat.zero_lt_two
        exact terminator acc s (ih s.length hshort [] s rfl)
      · rw [List.length_cons] at hlength
        exact cons acc c t h (ih t.length (by omega) _ t rfl)

omit [DecidableEq α] in
/-- A terminator does not begin in the last symbol of a text that another one follows. -/
theorem not_terminator_append (hne : cr ≠ lf) {c : α} {t : List α}
    (h : ¬ [cr, lf] <+: c :: t) (s : List α) : ¬ [cr, lf] <+: c :: (t ++ cr :: lf :: s) := by
  intro hbegin
  rw [List.cons_prefix_cons] at hbegin
  cases t with
  | nil => exact hne (List.cons_prefix_cons.mp hbegin.2).1.symm
  | cons d t =>
    have hd : lf = d := (List.cons_prefix_cons.mp hbegin.2).1
    exact h ⟨t, by rw [hbegin.1, hd]; rfl⟩

/-- A text that ends with a terminator is complete: its lines, and then those of what follows. -/
theorem linesFrom_append (hne : cr ≠ lf) (acc t s : List α) :
    linesFrom cr lf acc (t ++ cr :: lf :: s) =
      linesFrom cr lf acc (t ++ [cr, lf]) ++ lines cr lf s := by
  induction acc, t using lines_induction cr lf with
  | nil acc =>
    show linesFrom cr lf acc (cr :: lf :: s) = linesFrom cr lf acc (cr :: lf :: []) ++ _
    rw [linesFrom_terminator, linesFrom_terminator]
    rfl
  | terminator acc t ih =>
    show linesFrom cr lf acc (cr :: lf :: (t ++ _)) =
      linesFrom cr lf acc (cr :: lf :: (t ++ _)) ++ _
    rw [linesFrom_terminator, linesFrom_terminator, lines, ih]
    rfl
  | cons acc c t h ih =>
    rw [List.cons_append, List.cons_append,
      linesFrom_cons cr lf (not_terminator_append cr lf hne h s),
      linesFrom_cons cr lf (not_terminator_append cr lf hne h []), ih]

theorem lines_append (hne : cr ≠ lf) (t s : List α) :
    lines cr lf (lineText cr lf t ++ s) = lines cr lf (lineText cr lf t) ++ lines cr lf s := by
  rw [lineText, List.append_assoc]
  exact linesFrom_append cr lf hne [] t s

/-- Symbols other than `cr` belong to the line. -/
theorem linesFrom_of_notMem {p : List α} (h : cr ∉ p) (acc s : List α) :
    linesFrom cr lf acc (p ++ s) = linesFrom cr lf (acc ++ p) s := by
  induction p generalizing acc with
  | nil => rw [List.nil_append, List.append_nil]
  | cons c p ih =>
    rw [List.mem_cons, not_or] at h
    have hc : ¬ [cr, lf] <+: c :: (p ++ s) := fun hbegin =>
      h.1 (List.cons_prefix_cons.mp hbegin).1
    rw [List.cons_append, linesFrom_cons cr lf hc, ih h.2, List.append_assoc]
    rfl

/-- A text without `cr` is one line. -/
theorem lines_of_notMem {p : List α} (h : cr ∉ p) : lines cr lf (lineText cr lf p) = [p] := by
  rw [lines, lineText, linesFrom_of_notMem cr lf h, linesFrom_terminator]
  rfl

/-- The lines of a complete text give it back. -/
theorem flatMap_linesFrom (hne : cr ≠ lf) (acc t : List α) :
    (linesFrom cr lf acc (lineText cr lf t)).flatMap (lineText cr lf) =
      acc ++ lineText cr lf t := by
  induction acc, t using lines_induction cr lf with
  | nil acc =>
    show (linesFrom cr lf acc (cr :: lf :: [])).flatMap _ = _
    rw [linesFrom_terminator]
    exact List.append_nil _
  | terminator acc t ih =>
    show (linesFrom cr lf acc (cr :: lf :: lineText cr lf t)).flatMap _ = _
    rw [linesFrom_terminator, List.flatMap_cons, lines, ih, lineText, List.append_assoc]
    rfl
  | cons acc c t h ih =>
    show (linesFrom cr lf acc (c :: (t ++ [cr, lf]))).flatMap _ = _
    rw [linesFrom_cons cr lf (not_terminator_append cr lf hne h [])]
    show (linesFrom cr lf (acc ++ [c]) (lineText cr lf t)).flatMap _ = _
    rw [ih, List.append_assoc]
    rfl

theorem flatMap_lines (hne : cr ≠ lf) (t : List α) :
    (lines cr lf (lineText cr lf t)).flatMap (lineText cr lf) = lineText cr lf t :=
  flatMap_linesFrom cr lf hne [] t

/-! ### Lines that begin with a dot -/

/-- A line begins with a dot exactly where the text does, or where a terminator is followed by a
dot. -/
theorem exists_dot_line_iff {dot : α} (hne : cr ≠ lf) (hdot : dot ≠ cr) (acc t : List α) :
    (∃ l ∈ linesFrom cr lf acc (lineText cr lf t), [dot] <+: l) ↔
      [dot] <+: acc ++ t ∨ [cr, lf, dot] <:+: t := by
  induction acc, t using lines_induction cr lf with
  | nil acc =>
    show (∃ l ∈ linesFrom cr lf acc (cr :: lf :: []), _) ↔ _
    rw [linesFrom_terminator, List.append_nil]
    simp [lines, linesFrom]
  | terminator acc t ih =>
    show (∃ l ∈ linesFrom cr lf acc (cr :: lf :: lineText cr lf t), _) ↔ _
    -- The dot of the first line stands in `acc`; one behind the terminator begins the next line.
    have hfirst : [dot] <+: acc ++ cr :: lf :: t ↔ [dot] <+: acc := by
      cases acc with
      | nil => simp [List.cons_prefix_cons, hdot]
      | cons a acc => simp [List.cons_prefix_cons]
    have hnext : [cr, lf, dot] <:+: cr :: lf :: t ↔ [dot] <+: t ∨ [cr, lf, dot] <:+: t := by
      simp [List.infix_cons_iff, List.cons_prefix_cons, hne]
    rw [linesFrom_terminator, hfirst, hnext, lines, List.exists_mem_cons_iff, ih]
    rfl
  | cons acc c t h ih =>
    show (∃ l ∈ linesFrom cr lf acc (c :: (t ++ [cr, lf])), _) ↔ _
    have hhere : ¬ [cr, lf, dot] <+: c :: t := fun hbegin =>
      h ((List.prefix_append [cr, lf] [dot]).trans hbegin)
    rw [linesFrom_cons cr lf (not_terminator_append cr lf hne h []), List.infix_cons_iff,
      or_iff_right hhere]
    show (∃ l ∈ linesFrom cr lf (acc ++ [c]) (lineText cr lf t), _) ↔ _
    rw [ih, List.append_assoc]
    rfl

end

/-! ### Blocks -/

/-- A line of a block, without the dot in front. -/
def unstuff (dot : α) : List α → List α
  | c :: l => if c = dot then l else c :: l
  | [] => []

/-- The lines of a block, up to the line that is a single dot, and what follows it. -/
def block (dot : α) : List (List α) → Option (List (List α) × List (List α))
  | [] => none
  | l :: ls =>
    if l = [dot] then some ([], ls)
    else (block dot ls).map fun read => (unstuff dot l :: read.1, read.2)

section
variable {dot : α}

theorem unstuff_of_plain {l : List α} (h : ¬ [dot] <+: l) : unstuff dot l = l := by
  cases l with
  | nil => rfl
  | cons c l =>
    have hc : c ≠ dot := fun hc => h ⟨l, by rw [hc]; rfl⟩
    rw [unstuff, if_neg hc]

theorem length_unstuff_le (l : List α) : (unstuff dot l).length ≤ l.length := by
  cases l with
  | nil => exact Nat.le_refl 0
  | cons c l =>
    rw [unstuff]
    split
    · exact Nat.le_succ _
    · exact Nat.le_refl _

theorem length_unstuff_lt {l : List α} (h : [dot] <+: l) : (unstuff dot l).length < l.length := by
  obtain ⟨s, rfl⟩ := h
  show (unstuff dot (dot :: s)).length < (dot :: s).length
  rw [unstuff, if_pos rfl]
  exact Nat.lt_succ_self _

/-- **Lines of which none begins with a dot are read back.** -/
theorem block_of_plain {ls : List (List α)} (h : ∀ l ∈ ls, ¬ [dot] <+: l)
    (rest : List (List α)) : block dot (ls ++ [dot] :: rest) = some (ls, rest) := by
  induction ls with
  | nil => rw [List.nil_append, block, if_pos rfl]
  | cons l ls ih =>
    rw [List.forall_mem_cons] at h
    have hl : l ≠ [dot] := fun hl => h.1 (by rw [hl])
    rw [List.cons_append, block, if_neg hl, ih h.2, Option.map_some, unstuff_of_plain h.1]

variable {cr lf : α}

/-- A block is never longer than what was written. -/
theorem length_le_of_block {ls rest : List (List α)} {read : List (List α) × List (List α)}
    (h : block dot (ls ++ [dot] :: rest) = some read) :
    (read.1.flatMap (lineText cr lf)).length ≤ (ls.flatMap (lineText cr lf)).length := by
  induction ls generalizing read with
  | nil =>
    rw [List.nil_append, block, if_pos rfl] at h
    injection h with h
    rw [← h]
  | cons l ls ih =>
    rw [List.cons_append, block] at h
    split at h
    · injection h with h
      rw [← h]
      exact Nat.zero_le _
    · rw [Option.map_eq_some_iff] at h
      obtain ⟨read, hread, rfl⟩ := h
      have hrest := ih hread
      have hl : (unstuff dot l).length ≤ l.length := length_unstuff_le l
      simp only [List.flatMap_cons, List.length_append, lineText]
      omega

/-- **A block with a line that begins with a dot is read as a shorter one.** -/
theorem length_lt_of_block {ls rest : List (List α)} {read : List (List α) × List (List α)}
    (hdot : ∃ l ∈ ls, [dot] <+: l) (h : block dot (ls ++ [dot] :: rest) = some read) :
    (read.1.flatMap (lineText cr lf)).length < (ls.flatMap (lineText cr lf)).length := by
  induction ls generalizing read with
  | nil =>
    obtain ⟨l, hl, -⟩ := hdot
    cases hl
  | cons l ls ih =>
    rw [List.cons_append, block] at h
    split at h
    · -- The block ends here.
      injection h with h
      rw [← h, List.flatMap_cons, List.length_append, lineText, List.length_append]
      show 0 < l.length + 2 + _
      omega
    · rw [Option.map_eq_some_iff] at h
      obtain ⟨read, hread, rfl⟩ := h
      simp only [List.flatMap_cons, List.length_append, lineText]
      rw [List.exists_mem_cons_iff] at hdot
      cases hdot with
      | inl hfirst =>
        have hrest : (read.1.flatMap (lineText cr lf)).length ≤
            (ls.flatMap (lineText cr lf)).length := length_le_of_block hread
        have hl := length_unstuff_lt hfirst
        omega
      | inr hlater =>
        have hrest := ih hlater hread
        have hl : (unstuff dot l).length ≤ l.length := length_unstuff_le l
        omega

end

end CppLaravel.Lib
