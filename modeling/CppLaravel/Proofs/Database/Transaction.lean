import CppLaravel.Database.Transaction

/-!
# `CppLaravel.Proofs.Database.Transaction`: a transaction is atomic

No call of a connection touches its snapshot (`effect_eq`), so at the end of a transaction the
snapshot is still the store as it was at the beginning. A transaction does on the connection what
`atomically` does on the store, and leaves no snapshot behind (`transaction_eq`).
-/

set_option autoImplicit false

namespace CppLaravel.Database.Connection

open CppLaravel.Lib

variable {ε : Type}

/-- A procedure changes the store of a connection only, as it would change a store alone. -/
theorem effect_eq (fn : Procedure Operation.Answer ε) (c : Connection) :
    effect perform fn c = ((effect Operation.perform fn c.store).1,
      { c with store := (effect Operation.perform fn c.store).2 }) := by
  rw [perform]
  refine effect_within ?_ ?_ ?_ Operation.perform fn c
  · exact fun _ _ => rfl
  · exact fun _ _ _ => rfl
  · exact fun _ => rfl

/-- Without a snapshot there is nothing to go back to. -/
theorem rollback_of_closed {c : Connection} (h : c.snapshot = none) : c.rollback = c := by
  rw [rollback, h]

/-- A transaction is the atomic procedure on the store. -/
theorem transaction_eq (c : Connection) (fn : Procedure Operation.Answer ε) :
    c.transaction fn = ((atomically fn c.store).1, ⟨(atomically fn c.store).2, none⟩) := by
  cases heffect : effect Operation.perform fn c.store with
  | mk result s =>
    -- The snapshot that was taken at the beginning is there at the end.
    have hrun : effect perform fn c.begin = (result, ⟨s, some c.store⟩) := by
      rw [effect_eq]
      show ((effect Operation.perform fn c.store).1,
        Connection.mk (effect Operation.perform fn c.store).2 (some c.store)) = _
      rw [heffect]
    rw [transaction, hrun, atomically, heffect]
    cases result with
    | error e => rfl
    | ok u => rfl

/-- **A transaction is atomic**: where the function throws, the same exception escapes and the
tables and the counters are as before; where it returns, they are as it leaves them. No transaction
stays open, so going back afterwards changes nothing. -/
theorem transaction_atomic (c : Connection) (fn : Procedure Operation.Answer ε) :
    (∀ e, (effect Operation.perform fn c.store).1 = .error e →
      (c.transaction fn).1 = .error e ∧ (c.transaction fn).2.store = c.store) ∧
    ((effect Operation.perform fn c.store).1 = .ok () →
      (c.transaction fn).1 = .ok () ∧
      (c.transaction fn).2.store = (effect Operation.perform fn c.store).2) ∧
    (c.transaction fn).2.snapshot = none ∧
    (c.transaction fn).2.rollback = (c.transaction fn).2 := by
  rw [transaction_eq]
  refine ⟨fun e he => ?_, fun hok => ?_, rfl, rollback_of_closed rfl⟩
  · rw [atomically]
    cases heffect : effect Operation.perform fn c.store with
    | mk result s =>
      rw [heffect] at he
      obtain rfl : result = .error e := he
      exact ⟨rfl, rfl⟩
  · rw [atomically]
    cases heffect : effect Operation.perform fn c.store with
    | mk result s =>
      rw [heffect] at hok
      obtain rfl : result = .ok () := hok
      exact ⟨rfl, rfl⟩

end CppLaravel.Database.Connection
