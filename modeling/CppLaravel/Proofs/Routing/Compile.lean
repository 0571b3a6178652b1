import CppLaravel.Routing.Router

/-!
# `CppLaravel.Proofs.Routing.Compile`: escaped text stands for itself

`Compiles text rs` says that a piece of the text of an expression is the sequence `rs`, whatever
stands around it. Pieces are put together (`Compiles.append`); escaped text is one symbol after the
other (`compiles_escape`), and the two groups of `add` are captured repetitions.
-/

set_option autoImplicit false

namespace CppLaravel.Routing

open CppLaravel.Lib

/-- A piece of text is cut into these tokens. -/
def Lexes (text : Bytes) (tokens : List Token) : Prop :=
  ∀ rest, lex (text ++ rest) = (lex rest).map (tokens ++ ·)

/-- The tokens are read as these expressions, in a parse at any point. -/
def Reads (tokens : List Token) (rs : List (Regex UInt8)) : Prop :=
  ∀ ps : Parse, ∃ ps', tokens.foldlM Parse.step ps = some ps' ∧ ps'.outer = ps.outer ∧
    ps'.flush = rs.foldl .seq ps.flush

/-- A piece of text is a sequence of expressions. -/
def Compiles (text : Bytes) (rs : List (Regex UInt8)) : Prop :=
  ∃ tokens, Lexes text tokens ∧ Reads tokens rs

theorem Compiles.nil : Compiles [] [] :=
  ⟨[], fun _ => by simp, fun ps => ⟨ps, rfl, rfl, rfl⟩⟩

theorem Compiles.append {text text' : Bytes} {rs rs' : List (Regex UInt8)}
    (h : Compiles text rs) (h' : Compiles text' rs') : Compiles (text ++ text') (rs ++ rs') := by
  obtain ⟨tokens, hlex, hread⟩ := h
  obtain ⟨tokens', hlex', hread'⟩ := h'
  refine ⟨tokens ++ tokens', fun rest => ?_, fun ps => ?_⟩
  · rw [List.append_assoc, hlex, hlex', Option.map_map]
    simp [Function.comp_def]
  · obtain ⟨ps₁, hps₁, houter₁, hflush₁⟩ := hread ps
    obtain ⟨ps₂, hps₂, houter₂, hflush₂⟩ := hread' ps₁
    refine ⟨ps₂, ?_, houter₂.trans houter₁, ?_⟩
    · rw [List.foldlM_append, hps₁]
      exact hps₂
    · rw [hflush₂, hflush₁, List.foldl_append]

/-- The text of a whole expression. -/
theorem compile_of_compiles {text : Bytes} {rs : List (Regex UInt8)} (h : Compiles text rs) :
    compile text = some (rs.foldl .seq .empty) := by
  obtain ⟨tokens, hlex, hread⟩ := h
  have htokens : lex text = some tokens := by simpa [lex] using hlex []
  obtain ⟨ps, hps, houter, hflush⟩ := hread ⟨[], .empty, none⟩
  rw [compile, htokens, Option.bind_some, parse, hps, Option.bind_some, houter, hflush]
  rfl

/-! ### Characters -/

theorem reads_atom (p : UInt8 → Bool) : Reads [.atom p] [.sym p] :=
  fun ps => ⟨⟨ps.outer, ps.flush, some p⟩, rfl, rfl, rfl⟩

/-- A character that is not special stands for itself. -/
theorem lexes_plain {c : UInt8} (hc : c ∉ syntaxCharacters) : Lexes [c] [.atom (· = c)] := by
  intro rest
  have htoken : token c = some (.atom (· = c)) := by
    simp only [syntaxCharacters, List.mem_cons, not_or] at hc
    simp [token, syntaxCharacters, hc]
  have hlex : lex (c :: rest) = (token c).bind fun t => (lex rest).map (t :: ·) := by
    rw [lex.eq_def]
    split <;> simp_all [syntaxCharacters]
  rw [List.singleton_append, hlex, htoken]
  rfl

/-- A special character stands for itself behind a backslash. -/
theorem lexes_escaped {c : UInt8} (hc : c ∈ syntaxCharacters) : Lexes [92, c] [.atom (· = c)] := by
  intro rest
  show lex (92 :: c :: rest) = _
  rw [lex, if_pos hc]
  rfl

theorem compiles_escape (s : Bytes) : Compiles (escape s) (s.map fun c => .sym (· = c)) := by
  induction s with
  | nil => exact .nil
  | cons c s ih =>
    rw [escape, List.flatMap_cons, List.map_cons, ← List.singleton_append (l := List.map _ s)]
    refine Compiles.append ⟨[.atom (· = c)], ?_, reads_atom _⟩ ih
    split
    · exact lexes_escaped ‹_›
    · exact lexes_plain ‹_›

/-! ### Assertions and groups -/

theorem compiles_assertion {c : UInt8} {r : Regex UInt8} (hc : token c = some (.assertion r))
    (hlex : ∀ rest, lex (c :: rest) = (token c).bind fun t => (lex rest).map (t :: ·)) :
    Compiles [c] [r] := by
  refine ⟨[.assertion r], fun rest => ?_,
    fun ps => ⟨⟨ps.outer, ps.flush.seq r, none⟩, rfl, rfl, rfl⟩⟩
  rw [List.singleton_append, hlex, hc]
  rfl

theorem compiles_start : Compiles (bytes "^") [.start] :=
  compiles_assertion (c := 94) rfl fun _ => rfl

theorem compiles_stop : Compiles (bytes "$") [.stop] :=
  compiles_assertion (c := 36) rfl fun _ => rfl

theorem reads_group (p : UInt8 → Bool) (least : Nat) :
    Reads [.opening, .atom p, .repeated least, .closing]
      [.group (.seq .empty (.many p least))] :=
  fun ps => ⟨⟨ps.outer, ps.flush.seq (.group (.seq .empty (.many p least))), none⟩, rfl, rfl, rfl⟩

/-- `(.*)`. -/
theorem compiles_catchAll : Compiles (bytes "(.*)")
    [.group (.seq .empty (.many (fun c => !isLineTerminator c) 0))] := by
  refine ⟨_, fun rest => ?_, reads_group _ 0⟩
  show lex (40 :: 46 :: 42 :: 41 :: rest) = _
  cases hrest : lex rest <;> simp [lex, token, hrest]

/-- `([^/]+)`. -/
theorem compiles_segment : Compiles (bytes "([^/]+)")
    [.group (.seq .empty (.many (· ≠ 47) 1))] := by
  refine ⟨_, fun rest => ?_, reads_group _ 1⟩
  show lex (40 :: 91 :: 94 :: 47 :: 93 :: 43 :: 41 :: rest) = _
  cases hrest : lex rest <;> simp [lex, token, hrest, syntaxCharacters]

end CppLaravel.Routing
