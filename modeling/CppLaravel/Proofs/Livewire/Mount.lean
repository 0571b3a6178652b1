import CppLaravel.Lib.JsonAttribute
import CppLaravel.Livewire.Mount
import CppLaravel.Proofs.Livewire.Braces
import Mathlib.Data.Set.List

/-!
# `CppLaravel.Proofs.Livewire.Mount`: the state in the page

`mount` writes the state as JSON between single quotes and escapes nothing for HTML.
`embeds_iff`: which states a browser reads back from the attribute.

The text is that of `Json.object`, character by character (`object_utf8`), so what the library
says of such an attribute holds of the wrapper.
-/

set_option autoImplicit false

namespace CppLaravel.Livewire

open CppLaravel.Lib
open CppLaravel.Http

/-- The bytes of an entry. -/
def utf8Entry (e : Text × Text) : Bytes × Bytes := (utf8 e.1, utf8 e.2)

theorem utf8Entry_injective : Function.Injective utf8Entry := by
  rintro ⟨k, v⟩ ⟨k', v'⟩ h
  obtain ⟨hk, hv⟩ := Prod.mk.inj h
  exact Prod.ext (utf8_injective hk) (utf8_injective hv)

/-- Wherever a component with this state is mounted, its attribute is read up to the closing
quote, and as an object that is this state. -/
def Embeds (T : Names) (state : StringMap) : Prop :=
  ∀ (C : Type) (lw : Registry C) (name id : Bytes) (c : C), lw.make name = some c →
    Visits (lw.state (lw.onMount c)) state →
    ∃ behind value es,
      lw.mount name id = wrapperHead (if id = [] then name else id) name ++ behind ∧
      singleQuoted T (decode behind) =
        some (value, decode (wrapperTail (lw.render (lw.onMount c)))) ∧
      Json.Reads value es ∧ Visits (es.map utf8Entry) state

/-- A key or a value that comes through: the bytes of a harmless text. -/
def Safe (T : Names) (s : Bytes) : Prop := ∃ t, utf8 t = s ∧ Json.Harmless T t

/-! ### The text of the attribute -/

/-- A character that is not escaped has no byte that is. -/
theorem plain_utf8 {c : Char} (h : Json.escaping.code c = none) :
    escaping.Plain (String.utf8EncodeChar c) := by
  intro b hb
  by_cases hascii : c.toNat < 128
  · have hbyte : b = UInt8.ofNat c.toNat := by
      have hone := utf8_ascii hascii []
      rw [utf8_cons, utf8_nil, List.append_nil] at hone
      rw [hone] at hb
      exact List.mem_singleton.mp hb
    have hc : c = Char.ofNat b.toNat := by
      rw [hbyte, UInt8.toNat_ofNat', Nat.mod_eq_of_lt (by omega), Char.ofNat_toNat]
    have hcode : ∀ b : UInt8, Json.escaping.code (Char.ofNat b.toNat) = none →
        escaping.code b = none := byte_of_fin (by decide +kernel)
    exact hcode b (hc ▸ h)
  · have hhigh := high_of_mem_encode (Nat.not_lt.mp hascii) hb
    have hcode : ∀ b : UInt8, 128 ≤ b.toNat → escaping.code b = none :=
      byte_of_fin (by decide +kernel)
    exact hcode b hhigh

theorem esc_utf8 (s : Text) : esc (utf8 s) = utf8 (Json.escaping.write s) := by
  induction s with
  | nil => rfl
  | cons c s ih =>
    cases hc : Json.escaping.code c with
    | none =>
      rw [Escaping.write_none hc, utf8_cons, utf8_cons, ← ih, esc_eq, esc_eq,
        Escaping.write_append, Escaping.write_of_plain (plain_utf8 hc)]
    | some e =>
      have hcases : c = '"' ∧ e = '"' ∨ c = '\\' ∧ e = '\\' ∨ c = '\n' ∧ e = 'n' ∨
          c = '\r' ∧ e = 'r' ∨ c = '\t' ∧ e = 't' := by
        simp only [Json.escaping] at hc
        grind
      rw [Escaping.write_some hc]
      rcases hcases with ⟨rfl, rfl⟩ | ⟨rfl, rfl⟩ | ⟨rfl, rfl⟩ | ⟨rfl, rfl⟩ | ⟨rfl, rfl⟩ <;>
        exact congrArg (fun t => _ :: _ :: t) ih

theorem str_utf8 (s : Text) : str (utf8 s) = utf8 (Json.escaping.string s) := by
  rw [str, esc_utf8, Escaping.string]
  show _ = utf8 (['"'] ++ (Json.escaping.write s ++ ['"']))
  rw [utf8_append, utf8_append]
  rfl

theorem entry_utf8 (e : Text × Text) : entry (utf8Entry e) = utf8 (Json.entry e) := by
  rw [entry, utf8Entry, str_utf8, str_utf8, Json.entry, utf8_append]
  rfl

theorem body_utf8 (es : List (Text × Text)) :
    [comma].intercalate ((es.map utf8Entry).map entry)
      = utf8 ([','].intercalate (es.map Json.entry)) := by
  induction es with
  | nil => rfl
  | cons e es ih =>
    cases es with
    | nil =>
      show entry (utf8Entry e) ++ [] = utf8 (Json.entry e ++ [])
      rw [List.append_nil, List.append_nil, entry_utf8]
    | cons e' es =>
      show entry (utf8Entry e) ++
          comma :: [comma].intercalate (((e' :: es).map utf8Entry).map entry)
        = utf8 (Json.entry e ++ ([','] ++ [','].intercalate ((e' :: es).map Json.entry)))
      rw [ih, entry_utf8, utf8_append, utf8_append]
      rfl

/-- **The bytes of the state are those of the JSON object.** -/
theorem object_utf8 (es : List (Text × Text)) :
    object (es.map utf8Entry) = utf8 (Json.object es) := by
  rw [object, body_utf8, Json.object]
  show _ = utf8 (['{'] ++ ([','].intercalate (es.map Json.entry) ++ ['}']))
  rw [utf8_append, utf8_append]
  rfl

/-- What is read behind the opening quote. -/
theorem decode_behind (es : List (Text × Text)) (tail : Bytes) :
    decode (object (es.map utf8Entry) ++ 39 :: tail) = Json.object es ++ '\'' :: decode tail := by
  have hquote := decode_utf8 ['\''] tail
  rw [object_utf8, decode_utf8]
  exact congrArg (Json.object es ++ ·) hquote

theorem exists_texts (entries : List (Bytes × Bytes)) (h : ∀ e ∈ entries, ∃ t, utf8Entry t = e) :
    ∃ es : List (Text × Text), es.map utf8Entry = entries := by
  have hrange : entries ∈ Set.range (List.map utf8Entry) := by
    rw [Set.range_list_map]
    exact h
  exact hrange

/-! ### Reading it back -/

/-- An object of safe strings is read as the state, and the rest of the wrapper is behind it. -/
theorem reads_of_safe {T : Names} {state : StringMap} {entries : List (Bytes × Bytes)}
    (hentries : Visits entries state)
    (h : ∀ k v, state.lookup k = some v → Safe T k ∧ Safe T v) (tail : Bytes) :
    ∃ value es, singleQuoted T (decode (object entries ++ 39 :: tail)) = some (value, decode tail) ∧
      Json.Reads value es ∧ Visits (es.map utf8Entry) state := by
  have hsafe : ∀ e ∈ entries, Safe T e.1 ∧ Safe T e.2 := fun e he =>
    h e.1 e.2 ((hentries.mem_iff e.1 e.2).mp he)
  -- The bytes are the UTF-8 of texts.
  obtain ⟨es, rfl⟩ := exists_texts entries (by
    intro e he
    obtain ⟨⟨k, hk, -⟩, v, hv, -⟩ := hsafe e he
    exact ⟨(k, v), by rw [utf8Entry, hk, hv]⟩)
  have hharmless : ∀ e ∈ es, Json.Harmless T e.1 ∧ Json.Harmless T e.2 := by
    intro e he
    obtain ⟨⟨k, hk, hk'⟩, v, hv, hv'⟩ := hsafe _ (List.mem_map_of_mem he)
    obtain rfl := utf8_injective hk
    obtain rfl := utf8_injective hv
    exact ⟨hk', hv'⟩
  have hkeys : (es.map Prod.fst).Nodup := by
    have hnodup := hentries.nodup
    rw [List.map_map] at hnodup
    refine List.Nodup.of_map utf8 ?_
    rw [List.map_map]
    exact hnodup
  refine ⟨Json.object es, es, ?_, ?_, hentries⟩
  · rw [decode_behind]
    exact Json.singleQuoted_object hharmless (decode tail)
  · exact Json.reads_object hkeys fun e he =>
      ⟨(hharmless e he).1.written, (hharmless e he).2.written⟩

/-- Only safe strings are read back. -/
theorem safe_of_reads {T : Names} {state : StringMap} {entries : List (Bytes × Bytes)}
    (hentries : Visits entries state) {tail : Bytes} {value rest : Text} {es : List (Text × Text)}
    (hvalue : singleQuoted T (decode (object entries ++ 39 :: tail)) = some (value, rest))
    (hreads : Json.Reads value es) (hes : Visits (es.map utf8Entry) state) :
    ∀ e ∈ entries, Safe T e.1 ∧ Safe T e.2 := by
  have hsame : ∀ e, e ∈ es.map utf8Entry ↔ e ∈ entries := fun e =>
    (hes.mem_iff e.1 e.2).trans (hentries.mem_iff e.1 e.2).symm
  obtain ⟨es', rfl⟩ := exists_texts entries fun e he => by
    obtain ⟨t, -, ht⟩ := List.mem_map.mp ((hsame e).mpr he)
    exact ⟨t, ht⟩
  -- The entries that are read are the ones that were written, in whatever order.
  have hmem : ∀ e, e ∈ es ↔ e ∈ es' := by
    intro e
    have he := hsame (utf8Entry e)
    rwa [List.mem_map_of_injective utf8Entry_injective,
      List.mem_map_of_injective utf8Entry_injective] at he
  have hnodup : es'.Nodup := List.Nodup.of_map _ (List.Nodup.of_map _ hentries.nodup)
  rw [decode_behind] at hvalue
  have hharmless := Json.harmless_of_reads hnodup hvalue (hreads.congr hmem)
  intro e he
  obtain ⟨t, ht, rfl⟩ := List.mem_map.mp he
  exact ⟨⟨t.1, rfl, (hharmless t ht).1⟩, ⟨t.2, rfl, (hharmless t ht).2⟩⟩

/-- A state that is read back wherever it is mounted has safe strings: it is mounted somewhere. -/
theorem safe_of_embeds {T : Names} {state : StringMap} (h : Embeds T state) {k v : Bytes}
    (hkv : state.lookup k = some v) : Safe T k ∧ Safe T v := by
  obtain ⟨entries, hentries⟩ := exists_visits state
  let lw : Registry Unit :=
    { make := fun _ => some (), onMount := id, state := fun _ => entries,
      nodup := fun _ => hentries.nodup, render := fun _ => [] }
  obtain ⟨behind, value, es, hmount, hvalue, hreads, hes⟩ := h Unit lw [] [] () rfl hentries
  obtain rfl := List.append_cancel_left hmount
  exact safe_of_reads hentries hvalue hreads hes (k, v) ((hentries.mem_iff k v).mpr hkv)

/-- **Exactly the states of safe strings are read back**: texts in which no character is a single
quote or a control character without an escape, and no ampersand starts a reference. -/
theorem embeds_iff (T : Names) (state : StringMap) :
    Embeds T state ↔ ∀ k v, state.lookup k = some v → Safe T k ∧ Safe T v := by
  constructor
  · exact fun h k v hkv => safe_of_embeds h hkv
  · intro h C lw name id c hmake hvisits
    obtain ⟨value, es, hvalue, hreads, hes⟩ :=
      reads_of_safe hvisits h (wrapperTail (lw.render (lw.onMount c)))
    refine ⟨_, value, es, ?_, hvalue, hreads, hes⟩
    rw [Registry.mount, hmake]

/-- A component whose state is one string. -/
def oneString (value : Bytes) : Registry Unit where
  make _ := some ()
  onMount := id
  state _ := [(bytes "k", value)]
  nodup _ := List.nodup_singleton _
  render _ := []

/-- **A single quote ends the attribute**, and what follows it in the value is markup. -/
theorem quote_ends_state :
    (oneString (bytes "'><img>")).mount (bytes "c") [] =
        bytes ("<div wire:id=\"c\" wire:component=\"c\" wire:state='\x7b\"k\":\"" ++
          "'><img>\"\x7d'></div>") ∧
      ∀ T, ¬ Embeds T (Finmap.singleton (bytes "k") (bytes "'><img>")) := by
  refine ⟨by decide, fun T h => ?_⟩
  have hlookup : (Finmap.singleton (bytes "k") (bytes "'><img>") : StringMap).lookup (bytes "k")
      = some (bytes "'><img>") := Finmap.lookup_singleton_eq
  obtain ⟨t, ht, hharmless⟩ := (safe_of_embeds h hlookup).2
  have htext : t = "'><img>".toList := utf8_injective (ht.trans (by decide))
  rw [htext] at hharmless
  exact hharmless.no_apostrophe (by decide)

end CppLaravel.Livewire
