import CppLaravel.Livewire.Json

/-!
# `CppLaravel.Proofs.Livewire.Fields`: the strings of a request

What `field` reads of a request is the string written there, with each carriage return turned
into an `r`; but a name that looks like the key `arg` makes it read the action for the
argument.

* `readString_esc`: what is read back of a string that `esc` has written.
* `seek_entry`: the search for a key at an entry, `Imitates` as in `Lib.Escaped`.
* `field_name`, `field_action`, `field_arg`: what the three fields are read as.
-/

set_option autoImplicit false

namespace CppLaravel.Livewire

open CppLaravel.Lib
open CppLaravel.Http

/-- How the strings of the format are escaped. -/
def escaping : Escaping UInt8 where
  quote := quote
  backslash := backslash
  code c :=
    if c = quote then some quote
    else if c = backslash then some backslash
    else if c = 10 then some 110
    else if c = 13 then some 114
    else if c = 9 then some 116
    else none
  quote_ne := by decide
  code_quote := by decide
  code_backslash := by decide
  inj := by
    intro c d e hc hd
    grind

theorem esc_eq (s : Bytes) : esc s = escaping.write s := by
  induction s with
  | nil => rfl
  | cons c s ih =>
    have hcode : escaping.code c =
        if c = quote then some quote
        else if c = backslash then some backslash
        else if c = 10 then some 110
        else if c = 13 then some 114
        else if c = 9 then some 116
        else none := rfl
    rw [esc, Escaping.write, hcode, ih]
    by_cases hquote : c = quote
    · rw [if_pos hquote, if_pos hquote]
      rfl
    rw [if_neg hquote, if_neg hquote]
    by_cases hbackslash : c = backslash
    · rw [if_pos hbackslash, if_pos hbackslash]
      rfl
    rw [if_neg hbackslash, if_neg hbackslash]
    by_cases hn : c = 10
    · rw [if_pos hn, if_pos hn]
      rfl
    rw [if_neg hn, if_neg hn]
    by_cases hr : c = 13
    · rw [if_pos hr, if_pos hr]
      rfl
    rw [if_neg hr, if_neg hr]
    by_cases ht : c = 9
    · rw [if_pos ht, if_pos ht]
      rfl
    · rw [if_neg ht, if_neg ht]

/-- A byte as it comes back: there is no case for the `r` that stands for a carriage return. -/
def received (c : UInt8) : UInt8 := if c = 13 then 114 else c

theorem readBack_eq : escaping.readBack unescape = received := by
  have hspecial : ∀ c ∈ [quote, backslash, 10, 13, 9],
      escaping.readBack unescape c = received c := List.all_iff_forall_prop.mp (by decide)
  funext c
  by_cases hc : c ∈ [quote, backslash, 10, 13, 9]
  · exact hspecial c hc
  · simp only [List.mem_cons, List.not_mem_nil, or_false, not_or] at hc
    obtain ⟨hq, hb, hn, hr, ht⟩ := hc
    have hcode : escaping.code c = none := by
      show (if c = quote then _ else _) = _
      rw [if_neg hq, if_neg hb, if_neg hn, if_neg hr, if_neg ht]
    rw [Escaping.readBack, hcode, received, if_neg hr]
    rfl

/-- A string comes back as it was exactly if it has no carriage return. -/
theorem map_received_eq_self_iff (s : Bytes) : s.map received = s ↔ 13 ∉ s := by
  have hone : ∀ c, received c = c ↔ 13 ≠ c := by
    intro c
    rw [received]
    split
    · rename_i h
      subst h
      decide
    · rename_i h
      simp [Ne.symm h]
  induction s with
  | nil => simp
  | cons c s ih =>
    rw [List.map_cons, List.cons.injEq, hone, List.mem_cons, not_or]
    exact and_congr_right fun _ => ih

theorem readString_esc (s rest : Bytes) :
    readString (esc s ++ quote :: rest) = (s.map received, quote :: rest) := by
  have hscan : scan quote backslash unescape (escaping.write s ++ quote :: rest) =
      (s.map (escaping.readBack unescape), quote :: rest) :=
    Escaping.scan_write (E := escaping) s rest
  rw [readString, esc_eq, hscan, readBack_eq]

/-! ### Searching -/

theorem str_eq (s : Bytes) : str s = escaping.string s := by
  rw [str, esc_eq]
  rfl

theorem str_append (s rest : Bytes) : str s ++ rest = quote :: (esc s ++ quote :: rest) := by
  simp [str]

/-- The search for a key passes every byte but a quote. -/
theorem seek_quoted_cons {key : Bytes} {x : UInt8} (h : quote ≠ x) (t : Bytes) :
    seek (quoted key) (x :: t) = seek (quoted key) t :=
  seek_cons_of_ne h (key ++ [quote]) t

/-- The search for a key at an entry. -/
theorem seek_entry {key : Bytes} (hkey : escaping.Plain key)
    (hcolon : (key ++ [quote]).head? ≠ some colon) (k v : Bytes) {rest : Bytes}
    (hrest : ¬ key ++ [quote] <+: rest) :
    seek (quoted key) (entry (k, v) ++ rest) =
      if escaping.Imitates key k then some (quoted key ++ colon :: (str v ++ rest))
      else if escaping.Imitates key v then some (quoted key ++ rest)
      else seek (quoted key) rest := by
  have hk : seek (quoted key) (escaping.string k ++ colon :: (escaping.string v ++ rest)) =
      if escaping.Imitates key k then
        some (quoted key ++ colon :: (escaping.string v ++ rest))
      else seek (quoted key) (colon :: (escaping.string v ++ rest)) :=
    Escaping.seek_string (E := escaping) hkey k
      (Escaping.not_key_prefix (E := escaping) key colon hcolon _)
  have hv : seek (quoted key) (escaping.string v ++ rest) =
      if escaping.Imitates key v then some (quoted key ++ rest) else seek (quoted key) rest :=
    Escaping.seek_string (E := escaping) hkey v hrest
  rw [entry, str_eq, str_eq, List.append_assoc, List.cons_append, hk,
    seek_quoted_cons (by decide), hv]

/-- The field reader as searches for a rest of the text, without positions. -/
theorem field_of_seek {j key t u v : Bytes} (hs : seek (quoted key) j = some (quoted key ++ t))
    (ht : seek [colon] t = some u) (hu : seek [quote] u = some (quote :: v)) :
    field j key = (readString v).1 := by
  obtain ⟨p, hp, hpt, hle⟩ := find_of_seek (i := 0) (Nat.zero_le j.length) hs
  have hdrop : j.drop (p + (quoted key).length) = t := by
    rw [← List.drop_drop, hpt, List.drop_left]
  have hlen : p + (quoted key).length ≤ j.length := by
    have hsize := congrArg List.length hpt
    rw [List.length_drop, List.length_append] at hsize
    omega
  obtain ⟨c, hc, hct, hcj⟩ := find_of_seek hlen (by rw [hdrop]; exact ht)
  obtain ⟨q, hq, hqt, -⟩ := find_of_seek hcj (by rw [hct]; exact hu)
  simp only [field, hp, hc, hq, drop_succ_of_drop hqt]

/-- The field is read from the first string behind the next colon. -/
theorem field_of_value {j key v rest : Bytes} (sep : Bytes) (hsep : colon ∉ sep)
    (h : seek (quoted key) j = some (quoted key ++ (sep ++ colon :: (str v ++ rest)))) :
    field j key = v.map received := by
  have hquote : seek [quote] (colon :: (str v ++ rest)) =
      some (quote :: (esc v ++ quote :: rest)) := by
    rw [str_append, seek_cons_of_ne (by decide)]
    exact seek_of_isPrefix ⟨_, rfl⟩
  rw [field_of_seek h (seek_single hsep _) hquote, readString_esc]

/-! ### The fields of a request -/

/-- The request from the state on. -/
def stateText (state : List (Bytes × Bytes)) : Bytes :=
  str (bytes "state") ++ colon :: (object state ++ [rbrace])

/-- The request from the argument on. -/
def argText (arg : Bytes) (state : List (Bytes × Bytes)) : Bytes :=
  entry (bytes "arg", arg) ++ comma :: stateText state

/-- The request from the action on. -/
def actionText (action arg : Bytes) (state : List (Bytes × Bytes)) : Bytes :=
  entry (bytes "action", action) ++ comma :: argText arg state

theorem requestText_eq (name action arg : Bytes) (state : List (Bytes × Bytes)) :
    requestText name action arg state =
      lbrace :: (entry (bytes "name", name) ++ comma :: actionText action arg state) := rfl

section
variable {name action arg : Bytes} {state : List (Bytes × Bytes)}

/-- The search for a key over the name and the fields behind it. -/
theorem seek_requestText (name action arg : Bytes) (state : List (Bytes × Bytes)) {key : Bytes}
    (hkey : escaping.Plain key) (hcolon : (key ++ [quote]).head? ≠ some colon)
    (hcomma : (key ++ [quote]).head? ≠ some comma)
    (hname : ¬ escaping.Imitates key (bytes "name")) :
    seek (quoted key) (requestText name action arg state) =
      if escaping.Imitates key name then
        some (quoted key ++ comma :: actionText action arg state)
      else seek (quoted key) (actionText action arg state) := by
  rw [requestText_eq, seek_quoted_cons (by decide),
    seek_entry hkey hcolon _ _ (Escaping.not_key_prefix (E := escaping) key comma hcomma _),
    if_neg hname, seek_quoted_cons (by decide)]

theorem field_name : field (requestText name action arg state) (bytes "name") =
    name.map received := by
  have hcomma := Escaping.not_key_prefix (E := escaping) (bytes "name") comma (by decide)
  have hseek : seek (quoted (bytes "name")) (requestText name action arg state) =
      some (quoted (bytes "name") ++ ([] ++ colon :: (str name ++
        comma :: actionText action arg state))) := by
    rw [requestText_eq, seek_quoted_cons (by decide),
      seek_entry (by decide) (by decide) _ _ (hcomma _), if_pos (by decide)]
    rfl
  exact field_of_value [] (by simp) hseek

/-- The action is read even where the name looks like its key: the next colon is the one
behind the key. -/
theorem field_action : field (requestText name action arg state) (bytes "action") =
    action.map received := by
  have hcomma := Escaping.not_key_prefix (E := escaping) (bytes "action") comma (by decide)
  have hseek : seek (quoted (bytes "action")) (requestText name action arg state) = _ :=
    seek_requestText name action arg state (by decide) (by decide) (by decide) (by decide)
  by_cases himit : escaping.Imitates (bytes "action") name
  · rw [if_pos himit, actionText, entry, List.append_assoc, List.cons_append] at hseek
    exact field_of_value (comma :: str (bytes "action")) (by decide) hseek
  · rw [if_neg himit, actionText, seek_entry (by decide) (by decide) _ _ (hcomma _),
      if_pos (by decide)] at hseek
    exact field_of_value [] (by simp) hseek

/-- The argument is read, unless the name looks like its key: then the next colon is the one
in front of the action. -/
theorem field_arg : field (requestText name action arg state) (bytes "arg") =
    (if escaping.Imitates (bytes "arg") name then action else arg).map received := by
  have hcomma := Escaping.not_key_prefix (E := escaping) (bytes "arg") comma (by decide)
  have hseek : seek (quoted (bytes "arg")) (requestText name action arg state) = _ :=
    seek_requestText name action arg state (by decide) (by decide) (by decide) (by decide)
  by_cases hname : escaping.Imitates (bytes "arg") name
  · rw [if_pos hname, actionText, entry, List.append_assoc, List.cons_append] at hseek
    rw [if_pos hname]
    exact field_of_value (comma :: str (bytes "action")) (by decide) hseek
  · rw [if_neg hname, actionText, seek_entry (by decide) (by decide) _ _ (hcomma _),
      if_neg (by decide)] at hseek
    rw [if_neg hname]
    by_cases haction : escaping.Imitates (bytes "arg") action
    · rw [if_pos haction, argText, entry, List.append_assoc, List.cons_append] at hseek
      exact field_of_value (comma :: str (bytes "arg")) (by decide) hseek
    · rw [if_neg haction, seek_quoted_cons (by decide), argText,
        seek_entry (by decide) (by decide) _ _ (hcomma _), if_pos (by decide)] at hseek
      exact field_of_value [] (by simp) hseek

end

end CppLaravel.Livewire
