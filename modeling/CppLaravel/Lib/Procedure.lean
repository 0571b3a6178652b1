import Mathlib.Logic.Basic

/-!
# `CppLaravel.Lib.Procedure`: procedures over the operations of a state

A `Procedure` calls operations one after the other; what it does next depends on what they answered,
and it may throw at any point. `effect` runs it on a state. Operations that act on a part of a
larger state are those of the part, and the rest stays as it is: `effect_within` is this frame rule
for whole procedures.
-/

set_option autoImplicit false

namespace CppLaravel.Lib

universe u

variable {Op : Type u} {Answer : Op → Type u} {ε σ τ : Type*}

/-- A procedure that throws exceptions of the type `ε`. -/
inductive Procedure (Answer : Op → Type u) (ε : Type*)
  | done
  | throw (e : ε)
  | call (op : Op) (next : Answer op → Procedure Answer ε)

/-- The result of a procedure, and the state it leaves behind. -/
def effect (perform : (op : Op) → σ → Answer op × σ) : Procedure Answer ε → σ → Except ε Unit × σ
  | .done, s => (.ok (), s)
  | .throw e, s => (.error e, s)
  | .call op next, s => effect perform (next (perform op s).1) (perform op s).2

/-- The operations of a part of a state. -/
def within (get : τ → σ) (set : τ → σ → τ) (perform : (op : Op) → σ → Answer op × σ) (op : Op)
    (t : τ) : Answer op × τ :=
  ((perform op (get t)).1, set t (perform op (get t)).2)

/-- **The frame rule**: a procedure over the operations of a part has the effect it has on the
part. -/
theorem effect_within {get : τ → σ} {set : τ → σ → τ} (hget : ∀ t s, get (set t s) = s)
    (hset : ∀ t s s', set (set t s) s' = set t s') (hself : ∀ t, set t (get t) = t)
    (perform : (op : Op) → σ → Answer op × σ) (p : Procedure Answer ε) (t : τ) :
    effect (within get set perform) p t =
      ((effect perform p (get t)).1, set t (effect perform p (get t)).2) := by
  induction p generalizing t with
  | done => rw [effect, effect, hself]
  | throw e => rw [effect, effect, hself]
  | call op next ih =>
    rw [effect, effect, ih, within, hget, hset]

end CppLaravel.Lib
