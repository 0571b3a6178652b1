import CppLaravel.Proofs.Blade.Searches

/-!
# `CppLaravel.Proofs.Blade.Blocks`: printed templates and the ends of blocks

A text is `Closed` if the walk to the end of a block passes it, `Passed m` if the walk to an
`@else` does, at a depth of at least `m`, and `Skipped p` if a search for `p` does. A text is
`Nested` if its blocks are closed: it is passed by all three, and the text of a template is one
(`Template.nested_print`).
-/

set_option autoImplicit false

namespace CppLaravel.Blade

open CppLaravel.Lib
open CppLaravel.Http

/-! ### Names and literals have no directives -/

theorem ne_of_isWordByte {c x : UInt8} (hc : isWordByte c) (hx : isWordByte x = false) : c ≠ x := by
  rintro rfl
  rw [hc] at hx
  cases hx

theorem Identifier.not_mem (v : Identifier) {x : UInt8} (hx : isWordByte x = false) :
    x ∉ v.text :=
  fun hmem => ne_of_isWordByte (v.isWord x hmem) hx rfl

theorem Identifier.no_at (v : Identifier) : atSign ∉ v.text := v.not_mem (by decide)

/-! ### The end of a block -/

section
variable {kind : BlockKind} {x y : Bytes}

/-- The walk to the end of a block passes the text. -/
def Closed (kind : BlockKind) (x : Bytes) : Prop :=
  ∀ (rest : Bytes) (d : Nat), 1 ≤ d →
    closeAt kind (x ++ rest) d = (closeAt kind rest d).map (· + x.length)

theorem Closed.append (hx : Closed kind x) (hy : Closed kind y) : Closed kind (x ++ y) := by
  intro rest d hd
  rw [List.append_assoc, hx _ d hd, hy rest d hd, Option.map_map, List.length_append]
  congr 1
  funext k
  show k + y.length + x.length = k + (x.length + y.length)
  omega

theorem closed_plain (hx : atSign ∉ x) : Closed kind x :=
  fun rest d _ => closeAt_plain hx rest d

/-- A directive that is no end and no beginning of a block of the kind. -/
theorem closed_directive {p : Bytes} (hp : ∃ q, atSign ∉ q ∧ p = atSign :: q)
    (hopen : ¬ kind.opening <+: p ∧ ¬ p <+: kind.opening)
    (hclose : ¬ kind.closing <+: p ∧ ¬ p <+: kind.closing) : Closed kind p := by
  obtain ⟨q, hq, rfl⟩ := hp
  exact fun rest d _ => closeAt_other hq hopen hclose rest d

theorem closed_else : Closed kind (bytes "@else") :=
  closed_directive ⟨bytes "else", by decide, rfl⟩ (by cases kind <;> decide)
    (by cases kind <;> decide)

/-- A block of any kind, around what is passed. -/
theorem closed_block (k : BlockKind) (hx : Closed kind x) :
    Closed kind (k.opening ++ (x ++ k.closing)) := by
  by_cases hk : kind = k
  · -- A block of the same kind is counted, and closed at a depth that is not the first.
    subst hk
    intro rest d hd
    have hclose : ¬ d + 1 - 1 = 0 := by omega
    rw [List.append_assoc, List.append_assoc, closeAt_opening, hx _ (d + 1) (by omega),
      closeAt_closing, if_neg hclose, Nat.add_sub_cancel, Option.map_map, Option.map_map]
    congr 1
    funext n
    simp only [Function.comp_apply, List.length_append]
    omega
  · have hopen : Closed kind k.opening :=
      closed_directive k.opening_eq (by revert hk; cases kind <;> cases k <;> decide)
        (by revert hk; cases kind <;> cases k <;> decide)
    have hclose : Closed kind k.closing :=
      closed_directive k.closing_eq (by revert hk; cases kind <;> cases k <;> decide)
        (by revert hk; cases kind <;> cases k <;> decide)
    exact hopen.append (hx.append hclose)

/-- The walk to an `@else` passes the text at a depth of at least `m`. -/
def Passed (m : Int) (x : Bytes) : Prop :=
  ∀ (rest : Bytes) (n : Nat) (d : Int), m ≤ d →
    elseAt n (x ++ rest) d = (elseAt (n - x.length) rest d).map (· + x.length)

theorem Passed.append {m : Int} (hx : Passed m x) (hy : Passed m y) : Passed m (x ++ y) := by
  intro rest n d hd
  rw [List.append_assoc, hx _ n d hd, hy rest _ d hd, Option.map_map, List.length_append,
    Nat.sub_sub]
  congr 1
  funext k
  show k + y.length + x.length = k + (x.length + y.length)
  omega

theorem Passed.mono {m m' : Int} (hm : m ≤ m') (hx : Passed m x) : Passed m' x :=
  fun rest n d hd => hx rest n d (hm.trans hd)

theorem passed_plain (m : Int) (hx : atSign ∉ x) : Passed m x :=
  fun rest n d _ => elseAt_plain hx rest n d

theorem passed_else : Passed 1 (bytes "@else") :=
  fun rest n d hd => elseAt_else_inner rest n (by omega)

/-- A conditional, around what is passed one deeper. -/
theorem passed_cond (hx : Passed 1 x) : Passed 0 (bytes "@if(" ++ (x ++ bytes "@endif")) := by
  intro rest n d hd
  rw [List.append_assoc, List.append_assoc, elseAt_if, hx _ _ (d + 1) (by omega), elseAt_endif,
    add_sub_cancel_right, Option.map_map, Option.map_map, Nat.sub_sub, Nat.sub_sub]
  have hlen : (bytes "@if(" ++ (x ++ bytes "@endif")).length = 4 + (x.length + 6) := by
    rw [List.length_append, List.length_append]
    rfl
  rw [hlen]
  congr 1
  funext k
  show k + 6 + x.length + 4 = k + (4 + (x.length + 6))
  omega

/-- Any other directive is passed. -/
theorem passed_other {q : Bytes} (hq : atSign ∉ q ∧
    (¬ bytes "@if(" <+: atSign :: q ∧ ¬ atSign :: q <+: bytes "@if(") ∧
    (¬ bytes "@endif" <+: atSign :: q ∧ ¬ atSign :: q <+: bytes "@endif") ∧
    (¬ bytes "@else" <+: atSign :: q ∧ ¬ atSign :: q <+: bytes "@else")) :
    Passed 0 (atSign :: q) :=
  fun rest n d _ => elseAt_other hq.1 hq.2.1 hq.2.2.1 hq.2.2.2 rest n d

/-- A block of another kind, around what is passed. -/
theorem passed_around {o e : Bytes} (ho : Passed 0 (atSign :: o)) (he : Passed 0 (atSign :: e))
    (hx : Passed 0 x) : Passed 0 (atSign :: o ++ (x ++ atSign :: e)) :=
  ho.append (hx.append he)

end

/-! ### Nested blocks -/

/-- What a search for `p` passes. -/
def Skipped (p x : Bytes) : Prop := ∀ rest, seek p (x ++ rest) = seek p rest

section
variable {p x y : Bytes}

theorem Skipped.append (hx : Skipped p x) (hy : Skipped p y) : Skipped p (x ++ y) := by
  intro rest
  rw [List.append_assoc, hx, hy]

theorem skipped_plain (hp : p.head? = some atSign) (hx : atSign ∉ x) : Skipped p x := by
  cases p with
  | nil => cases hp
  | cons c p =>
    obtain rfl := Option.some.inj hp
    exact fun rest => seek_append_of_not_mem hx rest

/-- A directive that does not begin as `p` does. -/
theorem skipped_directive {q : Bytes} (hp : p.head? = some atSign) (hq : atSign ∉ q)
    (hleft : ¬ p <+: atSign :: q) (hright : ¬ atSign :: q <+: p) : Skipped p (atSign :: q) := by
  intro rest
  have hpre : atSign :: q <+: atSign :: (q ++ rest) := List.prefix_append _ _
  rw [List.cons_append, seek_cons_of_not (not_prefix_of_other hpre hleft hright)]
  exact skipped_plain hp hq rest

end

/-- A text whose blocks are closed, without `@extends`. -/
inductive Nested : Bytes → Prop
  | plain {x : Bytes} : atSign ∉ x → Nested x
  | append {x y : Bytes} : Nested x → Nested y → Nested (x ++ y)
  | block {x : Bytes} (kind : BlockKind) : Nested x → Nested (kind.opening ++ (x ++ kind.closing))
  | condElse {x y : Bytes} : Nested x → Nested y →
      Nested (bytes "@if(" ++ ((x ++ (bytes "@else" ++ y)) ++ bytes "@endif"))
  | included {x : Bytes} : atSign ∉ x → Nested (bytes "@include(" ++ x)
  | yield {x : Bytes} : atSign ∉ x → Nested (bytes "@yield(" ++ x)

namespace Nested

variable {x : Bytes}

/-- **The walk to the end of a block passes nested blocks.** -/
theorem closed (h : Nested x) {kind : BlockKind} : Closed kind x := by
  induction h with
  | plain hx => exact closed_plain hx
  | append _ _ hx hy => exact hx.append hy
  | block k _ hx => exact closed_block k hx
  | condElse _ _ hx hy => exact closed_block .cond (hx.append (closed_else.append hy))
  | included hx =>
    have hhead : Closed kind (bytes "@include(") :=
      closed_directive ⟨bytes "include(", by decide, rfl⟩ (by cases kind <;> decide)
        (by cases kind <;> decide)
    exact hhead.append (closed_plain hx)
  | yield hx =>
    have hhead : Closed kind (bytes "@yield(") :=
      closed_directive ⟨bytes "yield(", by decide, rfl⟩ (by cases kind <;> decide)
        (by cases kind <;> decide)
    exact hhead.append (closed_plain hx)

/-- **The walk to an `@else` passes nested blocks.** -/
theorem passed (h : Nested x) : Passed 0 x := by
  induction h with
  | plain hx => exact passed_plain 0 hx
  | append _ _ hx hy => exact hx.append hy
  | block k _ hx =>
    cases k with
    | cond => exact passed_cond (hx.mono zero_le_one)
    | loop =>
      exact passed_around (passed_other (q := bytes "foreach(") (by decide))
        (passed_other (q := bytes "endforeach") (by decide)) hx
    | named =>
      exact passed_around (passed_other (q := bytes "section(") (by decide))
        (passed_other (q := bytes "endsection") (by decide)) hx
  | condElse _ _ hx hy =>
    exact passed_cond ((hx.mono zero_le_one).append (passed_else.append (hy.mono zero_le_one)))
  | included hx =>
    exact (passed_other (q := bytes "include(") (by decide)).append (passed_plain 0 hx)
  | yield hx => exact (passed_other (q := bytes "yield(") (by decide)).append (passed_plain 0 hx)

/-- **A search for `@extends` passes nested blocks.** -/
theorem skipped_extends (h : Nested x) : Skipped (bytes "@extends(") x := by
  have hdirective : ∀ q, atSign ∉ q → ¬ bytes "@extends(" <+: atSign :: q →
      ¬ atSign :: q <+: bytes "@extends(" → Skipped (bytes "@extends(") (atSign :: q) :=
    fun q hq => skipped_directive rfl hq
  have hopen : ∀ k : BlockKind, Skipped (bytes "@extends(") k.opening := by
    intro k
    cases k <;> exact hdirective _ (by decide) (by decide) (by decide)
  have hclose : ∀ k : BlockKind, Skipped (bytes "@extends(") k.closing := by
    intro k
    cases k <;> exact hdirective _ (by decide) (by decide) (by decide)
  induction h with
  | plain hx => exact skipped_plain rfl hx
  | append _ _ hx hy => exact hx.append hy
  | block k _ hx => exact (hopen k).append (hx.append (hclose k))
  | condElse _ _ hx hy =>
    have helse := hdirective (bytes "else") (by decide) (by decide) (by decide)
    exact (hopen .cond).append ((hx.append (helse.append hy)).append (hclose .cond))
  | included hx =>
    exact (hdirective (bytes "include(") (by decide) (by decide) (by decide)).append
      (skipped_plain rfl hx)
  | yield hx =>
    exact (hdirective (bytes "yield(") (by decide) (by decide) (by decide)).append
      (skipped_plain rfl hx)

end Nested

/-! ### Printed templates -/

/-- A conditional with its head. -/
theorem nested_cond (v : Identifier) {x : Bytes} (hx : Nested x) :
    Nested (bytes "@if(" ++ (v.text ++ (bytes ")" ++ (x ++ bytes "@endif")))) := by
  have hhead : atSign ∉ v.text ++ bytes ")" := by
    rw [List.mem_append, not_or]
    exact ⟨v.no_at, by decide⟩
  simpa [BlockKind.opening, BlockKind.closing] using
    Nested.block .cond ((Nested.plain hhead).append hx)

theorem nested_condElse (v : Identifier) {x y : Bytes} (hx : Nested x) (hy : Nested y) :
    Nested (bytes "@if(" ++ (v.text ++ (bytes ")" ++ (x ++ (bytes "@else" ++
      (y ++ bytes "@endif")))))) := by
  have hhead : atSign ∉ v.text ++ bytes ")" := by
    rw [List.mem_append, not_or]
    exact ⟨v.no_at, by decide⟩
  simpa using Nested.condElse ((Nested.plain hhead).append hx) hy

theorem nested_loop (l i : Identifier) {x : Bytes} (hx : Nested x) :
    Nested (bytes "@foreach(" ++ (l.text ++ (bytes " as " ++ (i.text ++ (bytes ")" ++
      (x ++ bytes "@endforeach")))))) := by
  have hhead : atSign ∉ l.text ++ (bytes " as " ++ (i.text ++ bytes ")")) := by
    simp only [List.mem_append, not_or]
    exact ⟨l.no_at, by decide, i.no_at, by decide⟩
  simpa [BlockKind.opening, BlockKind.closing] using
    Nested.block .loop ((Nested.plain hhead).append hx)

theorem nested_escaped (v : Identifier) :
    Nested (bytes "\x7b\x7b " ++ (v.text ++ bytes " \x7d\x7d")) := by
  refine .plain ?_
  simp only [List.mem_append, not_or]
  exact ⟨by decide, v.no_at, by decide⟩

theorem nested_raw (v : Identifier) :
    Nested (bytes "\x7b!! " ++ (v.text ++ bytes " !!\x7d")) := by
  refine .plain ?_
  simp only [List.mem_append, not_or]
  exact ⟨by decide, v.no_at, by decide⟩

/-- The blocks of a printed template are nested. -/
theorem Template.nested_print (b : Template) : Nested b.print := by
  induction b with
  | done => exact .plain (by simp [print])
  | text s rest ih => exact (Nested.plain s.no_at).append ih
  | escaped v rest ih => simpa [print] using (nested_escaped v).append ih
  | raw v rest ih => simpa [print] using (nested_raw v).append ih
  | cond v a rest iha ih => simpa [print] using (nested_cond v iha).append ih
  | condElse v a b rest iha ihb ih => simpa [print] using (nested_condElse v iha ihb).append ih
  | loop l i a rest iha ih => simpa [print] using (nested_loop l i iha).append ih

end CppLaravel.Blade
