import CppLaravel.Bytes
import Mathlib.Logic.Function.Basic

/-!
# `CppLaravel.Cache.ArrayCache`: the in-memory cache (`include/cache.hpp`)

An entry is a value and the time at which it expires, if it has one. `get` drops an entry that has
expired. Every call takes the mutex of the cache, so a call is one function of it; the argument
`now` is what `steady_clock::now()` reads during the call, in nanoseconds. A duration is an
unbounded integer here.
-/

set_option autoImplicit false

namespace CppLaravel.Cache

/-- `ArrayCache::Entry`. -/
structure Entry where
  value : Bytes
  expires : Option Int

/-- `ArrayCache`: its items, without the mutex. -/
structure ArrayCache where
  items : Bytes → Option Entry

namespace ArrayCache

/-- The cache as it is constructed. -/
def empty : ArrayCache := ⟨fun _ => none⟩

/-- `put` with a time to live. -/
def put (c : ArrayCache) (key value : Bytes) (ttl now : Int) : ArrayCache :=
  ⟨Function.update c.items key (some ⟨value, some (now + ttl)⟩)⟩

/-- `expired`. -/
def expired (e : Entry) (now : Int) : Bool :=
  match e.expires with
  | none => false
  | some expires => now ≥ expires

/-- `get`. -/
def get (c : ArrayCache) (key : Bytes) (now : Int) : Option Bytes × ArrayCache :=
  match c.items key with
  | none => (none, c)
  | some e =>
    if expired e now then (none, ⟨Function.update c.items key none⟩) else (some e.value, c)

@[simp] theorem items_put (c : ArrayCache) (key value : Bytes) (ttl now : Int) (k : Bytes) :
    (c.put key value ttl now).items k =
      if k = key then some ⟨value, some (now + ttl)⟩ else c.items k :=
  Function.update_apply ..

/-- A call with another key leaves an item alone. -/
theorem items_get_of_ne {c : ArrayCache} {key k : Bytes} (hk : k ≠ key) (now : Int) :
    (c.get key now).2.items k = c.items k := by
  unfold get
  split
  · rfl
  · split
    · exact Function.update_of_ne hk ..
    · rfl

/-- What a call answers and leaves under its key depends on the item there. -/
theorem get_congr {c c' : ArrayCache} {key : Bytes} (h : c.items key = c'.items key) (now : Int) :
    (c.get key now).1 = (c'.get key now).1 := by
  unfold get
  rw [h]
  cases c'.items key with
  | none => rfl
  | some e =>
    dsimp only
    split <;> rfl

end ArrayCache

end CppLaravel.Cache
