import CppLaravel.Proofs.Livewire.Request

/-!
# `CppLaravel.Proofs.Livewire.RoundTrip`: a state is written and read

`esc` writes a carriage return as a backslash and an `r`, and `parse_object` has no case for it.
`roundTrips_iff`: that is the only byte that does not come back, in a key or in a value.
-/

set_option autoImplicit false

namespace CppLaravel.Livewire

open CppLaravel.Http

/-- Whatever the order in which its entries are written, the state is read as it was. -/
def RoundTrips (m : StringMap) : Prop :=
  ∀ entries, Visits entries m → parseObject (object entries) = m

/-- **Exactly the states without carriage returns come back.** -/
theorem roundTrips_iff (m : StringMap) :
    RoundTrips m ↔ ∀ k v, m.lookup k = some v → 13 ∉ k ∧ 13 ∉ v := by
  constructor
  · intro h k v hkv
    obtain ⟨entries, hentries⟩ := exists_visits m
    exact (parseObject_object_iff hentries).mp (h entries hentries) (k, v)
      ((hentries.mem_iff k v).mpr hkv)
  · intro h entries hentries
    refine (parseObject_object_iff hentries).mpr ?_
    rintro ⟨k, v⟩ hkv
    exact h k v ((hentries.mem_iff k v).mp hkv)

/-- **A carriage return comes back as the letter** behind its backslash. -/
theorem carriage_return_is_lost :
    parseObject (object [(bytes "k", [13])]) = Finmap.singleton (bytes "k") (bytes "r") ∧
      ¬ RoundTrips (Finmap.singleton (bytes "k") [13]) := by
  have hread : parseObject (object [(bytes "k", [13])])
      = Finmap.singleton (bytes "k") (bytes "r") := by
    rw [parseObject_object]
    rfl
  refine ⟨hread, fun h => ?_⟩
  have hsame := (h _ (visits_singleton _ _)).symm.trans hread
  have hlookup := congrArg (Finmap.lookup (bytes "k")) hsame
  rw [Finmap.lookup_singleton_eq, Finmap.lookup_singleton_eq] at hlookup
  exact absurd hlookup (by decide)

end CppLaravel.Livewire
