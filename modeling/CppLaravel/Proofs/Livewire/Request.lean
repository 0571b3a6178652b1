import CppLaravel.Proofs.Livewire.State

/-!
# `CppLaravel.Proofs.Livewire.Request`: what `handle` reads of a request

* `parseLoop_body`: `parse_object` stores the entries of an object, as they come back.
* `parseObject_object_iff`: the state is read exactly if it has no carriage return.
* `request_recovered_iff`: when a request is read as the client wrote it; `brace_ends_state`
  is a value that breaks it.
-/

set_option autoImplicit false

namespace CppLaravel.Livewire

open CppLaravel.Lib
open CppLaravel.Http

/-! ### `parse_object` -/

/-- An entry as it comes back. -/
def receivedEntry (kv : Bytes × Bytes) : Bytes × Bytes := (kv.1.map received, kv.2.map received)

theorem drop_suffix {s t : Bytes} {i : Nat} (h : t <:+ s.drop i) :
    s.drop (s.length - t.length) = t :=
  (List.suffix_iff_eq_drop.mp (h.trans (List.drop_suffix i s))).symm

/-- The loop ends where no quote follows. -/
theorem parseLoop_end {s : Bytes} {i : Nat} (out : StringMap) (h : quote ∉ s.drop i) :
    parseLoop s i out = out := by
  rw [parseLoop]
  split
  · rename_i hi
    have hfind : find s [quote] i = none := by
      rw [find_eq (Nat.le_of_lt hi), Option.map_eq_none_iff, firstAt_eq_none_iff]
      exact fun k _ hpre => h (List.mem_of_mem_drop (hpre.subset List.mem_cons_self))
    split
    · rfl
    · rename_i hq
      rw [hfind] at hq
      cases hq
  · rfl

/-- One round of the loop, over an entry. -/
theorem parseLoop_entry {s sep rest : Bytes} {i : Nat} {kv : Bytes × Bytes} (out : StringMap)
    (hsep : quote ∉ sep) (h : s.drop i = sep ++ (entry kv ++ rest)) :
    ∃ j, s.drop j = rest ∧
      parseLoop s i out =
        parseLoop s j (out.insert (receivedEntry kv).1 (receivedEntry kv).2) := by
  obtain ⟨k, v⟩ := kv
  have hvalue : colon :: str v ++ rest = colon :: quote :: (esc v ++ quote :: rest) := by
    rw [List.cons_append, str_append]
  have hentry : entry (k, v) ++ rest =
      quote :: (esc k ++ quote :: colon :: quote :: (esc v ++ quote :: rest)) := by
    rw [entry, List.append_assoc, hvalue, str_append]
  have hi : i < s.length := by
    have hlen := congrArg List.length (h.trans (congrArg (sep ++ ·) hentry))
    simp at hlen
    omega
  -- The three searches and the two strings of the round, and where each of them stands.
  obtain ⟨q, hq, hqt, -⟩ := find_of_seek (Nat.le_of_lt hi)
    (by rw [h, hentry]; exact seek_single hsep _)
  have hkey := (congrArg readString (drop_succ_of_drop hqt)).trans (readString_esc k _)
  have hq' := drop_suffix (i := q + 1) (t := (readString (s.drop (q + 1))).2)
    (by rw [hkey, drop_succ_of_drop hqt]; exact List.suffix_append _ _)
  obtain ⟨c, hc, hct, hcle⟩ := find_of_seek
    (Nat.sub_le s.length (readString (s.drop (q + 1))).2.length)
    (by rw [hq', hkey]; exact seek_single (a := [quote]) (by decide) _)
  obtain ⟨w, hw, hwt, -⟩ := find_of_seek hcle
    (by rw [hct]; exact seek_single (a := [colon]) (by decide) _)
  have hval := (congrArg readString (drop_succ_of_drop hwt)).trans (readString_esc v _)
  have hw' := drop_suffix (i := w + 1) (t := (readString (s.drop (w + 1))).2)
    (by rw [hval, drop_succ_of_drop hwt]; exact List.suffix_append _ _)
  refine ⟨s.length - (readString (s.drop (w + 1))).2.length + 1,
    drop_succ_of_drop (hw'.trans (congrArg Prod.snd hval)), ?_⟩
  conv_lhs => rw [parseLoop, if_pos hi]
  split
  · rename_i hnone
    rw [hq] at hnone
    cases hnone
  rename_i q₂ hq₂
  obtain rfl : q = q₂ := Option.some.inj (hq.symm.trans hq₂)
  dsimp only
  split
  · rename_i hnone
    rw [hc] at hnone
    cases hnone
  rename_i c₂ hc₂
  obtain rfl : c = c₂ := Option.some.inj (hc.symm.trans hc₂)
  split
  · rename_i hnone
    rw [hw] at hnone
    cases hnone
  rename_i w₂ hw₂
  obtain rfl : w = w₂ := Option.some.inj (hw.symm.trans hw₂)
  rw [hkey, hval]
  rfl

/-- **The loop over the entries of an object stores them as they come back.** -/
theorem parseLoop_body {s : Bytes} {i : Nat} {entries : List (Bytes × Bytes)} (out : StringMap)
    (sep : Bytes) (hsep : quote ∉ sep) (h : s.drop i = sep ++ (body entries ++ [rbrace])) :
    parseLoop s i out = insertAll out (entries.map receivedEntry) := by
  induction entries generalizing sep i out with
  | nil =>
    refine parseLoop_end out ?_
    rw [h, List.mem_append, not_or]
    exact ⟨hsep, by decide⟩
  | cons kv entries ih =>
    cases entries with
    | nil =>
      rw [body_singleton] at h
      obtain ⟨j, hj, hround⟩ := parseLoop_entry out hsep h
      rw [hround]
      exact parseLoop_end _ (by rw [hj]; decide)
    | cons kv' entries =>
      rw [body_cons_cons, List.append_assoc] at h
      obtain ⟨j, hj, hround⟩ := parseLoop_entry out hsep h
      rw [hround]
      exact ih _ [comma] (by decide) hj

theorem parseObject_object (entries : List (Bytes × Bytes)) :
    parseObject (object entries) = insertAll ∅ (entries.map receivedEntry) :=
  parseLoop_body ∅ [lbrace] (by decide) rfl

theorem thirteen_not_mem_received (s : Bytes) : 13 ∉ s.map received := by
  intro h
  obtain ⟨c, -, hc⟩ := List.mem_map.mp h
  rw [received] at hc
  split at hc
  · cases hc
  · rename_i hne
    exact hne hc

/-- The state is read as it was exactly if no key and no value has a carriage return. -/
theorem parseObject_object_iff {entries : List (Bytes × Bytes)} {state : StringMap}
    (hstate : Visits entries state) :
    parseObject (object entries) = state ↔ ∀ kv ∈ entries, 13 ∉ kv.1 ∧ 13 ∉ kv.2 := by
  rw [parseObject_object]
  constructor
  · -- What is read is a state without carriage returns.
    rintro h ⟨k, v⟩ hkv
    have hlookup : (insertAll ∅ (entries.map receivedEntry)).lookup k = some v := by
      rw [h]
      exact (hstate.mem_iff k v).mp hkv
    rcases mem_of_lookup_insertAll hlookup with hmem | hempty
    · obtain ⟨kv', -, heq⟩ := List.mem_map.mp hmem
      obtain ⟨rfl, rfl⟩ := Prod.mk.inj heq
      exact ⟨thirteen_not_mem_received _, thirteen_not_mem_received _⟩
    · rw [Finmap.lookup_empty] at hempty
      cases hempty
  · intro h
    have hsame : entries.map receivedEntry = entries := by
      refine (List.map_congr_left fun kv hkv => ?_).trans (List.map_id entries)
      obtain ⟨hk, hv⟩ := h kv hkv
      exact Prod.ext ((map_received_eq_self_iff _).mpr hk) ((map_received_eq_self_iff _).mpr hv)
    rw [hsame, hstate.insertAll_eq]

/-! ### The request -/

/-- The readers return what the client wrote: the three strings, the text of the state, and
with them the request that `handle` passes on. -/
structure Recovered (name action arg : Bytes) (entries : List (Bytes × Bytes))
    (state : StringMap) : Prop where
  name_eq : field (requestText name action arg entries) (bytes "name") = name
  action_eq : field (requestText name action arg entries) (bytes "action") = action
  arg_eq : field (requestText name action arg entries) (bytes "arg") = arg
  state_eq : objectField (requestText name action arg entries) (bytes "state") = object entries
  request_eq : parseRequest (requestText name action arg entries) = ⟨name, action, arg, state⟩

/-- **A request is read as the client wrote it exactly if** it has no carriage return, a name
that looks like the key `arg` comes with equal action and argument, and the state is found. -/
theorem request_recovered_iff (name action arg : Bytes) {entries : List (Bytes × Bytes)}
    {state : StringMap} (hstate : Visits entries state) :
    Recovered name action arg entries state ↔
      13 ∉ name ∧ 13 ∉ action ∧ 13 ∉ arg ∧ (∀ kv ∈ entries, 13 ∉ kv.1 ∧ 13 ∉ kv.2) ∧
        (escaping.Imitates (bytes "arg") name → action = arg) ∧
        StateFound name action arg entries := by
  -- Where the name imitates `arg`, the action is read for the argument.
  have harg : 13 ∉ action → (field (requestText name action arg entries) (bytes "arg") = arg ↔
      13 ∉ arg ∧ (escaping.Imitates (bytes "arg") name → action = arg)) := by
    intro haction
    rw [field_arg]
    by_cases hname : escaping.Imitates (bytes "arg") name
    · rw [if_pos hname, (map_received_eq_self_iff action).mpr haction]
      exact ⟨fun h => ⟨h ▸ haction, fun _ => h⟩, fun h => h.2 hname⟩
    · rw [if_neg hname, map_received_eq_self_iff]
      exact ⟨fun h => ⟨h, fun himit => absurd himit hname⟩, fun h => h.1⟩
  constructor
  · rintro ⟨hname, haction, hargument, hobject, hrequest⟩
    have hparsed : parseObject (objectField (requestText name action arg entries)
        (bytes "state")) = state := congrArg UpdateRequest.state hrequest
    rw [hobject] at hparsed
    rw [field_name, map_received_eq_self_iff] at hname
    rw [field_action, map_received_eq_self_iff] at haction
    obtain ⟨hargument, himit⟩ := (harg haction).mp hargument
    exact ⟨hname, haction, hargument, (parseObject_object_iff hstate).mp hparsed, himit,
      (objectField_state_iff name action arg entries).mp hobject⟩
  · rintro ⟨hname, haction, hargument, hentries, himit, hfound⟩
    have hname' : field (requestText name action arg entries) (bytes "name") = name := by
      rw [field_name, (map_received_eq_self_iff name).mpr hname]
    have haction' : field (requestText name action arg entries) (bytes "action") = action := by
      rw [field_action, (map_received_eq_self_iff action).mpr haction]
    have hargument' := (harg haction).mpr ⟨hargument, himit⟩
    have hobject := (objectField_state_iff name action arg entries).mpr hfound
    refine ⟨hname', haction', hargument', hobject, ?_⟩
    rw [parseRequest, hname', haction', hargument', hobject,
      (parseObject_object_iff hstate).mpr hentries]

/-- A state with one value that is a closing brace. -/
def closing : List (Bytes × Bytes) := [(bytes "text", [rbrace])]

/-- The state ends at the brace that the value holds. -/
theorem brace_ends_state :
    Visits closing (Finmap.singleton (bytes "text") [rbrace]) ∧
      objectField (requestText (bytes "note") (bytes "save") [] closing) (bytes "state") =
        bytes "\x7b\"text\":\"\x7d" ∧
      ¬ Recovered (bytes "note") (bytes "save") [] closing
        (Finmap.singleton (bytes "text") [rbrace]) := by
  have hobject : objectField (requestText (bytes "note") (bytes "save") [] closing)
      (bytes "state") = bytes "\x7b\"text\":\"\x7d" := by decide
  refine ⟨visits_singleton _ _, hobject, fun h => ?_⟩
  have htext := hobject.symm.trans h.state_eq
  exact absurd htext (by decide)

/-- A value with balanced braces and quotes. -/
theorem request_recovered_iff_applies :
    Visits [(bytes "text", bytes "\x7b\"\x7d")]
        (Finmap.singleton (bytes "text") (bytes "\x7b\"\x7d")) ∧
      Recovered (bytes "note") (bytes "save") [] [(bytes "text", bytes "\x7b\"\x7d")]
        (Finmap.singleton (bytes "text") (bytes "\x7b\"\x7d")) := by
  refine ⟨visits_singleton _ _, ?_⟩
  refine (request_recovered_iff (bytes "note") (bytes "save") [] (visits_singleton _ _)).mpr ?_
  decide

end CppLaravel.Livewire
