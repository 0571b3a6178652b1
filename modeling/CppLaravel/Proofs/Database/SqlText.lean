import CppLaravel.Database.SqliteConnection
import CppLaravel.Decimal

/-!
# `CppLaravel.Proofs.Database.SqlText`: the texts of the SQLite backend

A statement is spelled by tokens: fixed words, names, numerals and marks, where a mark carries
the value that its place stands for. `Call.tokens` says for each operation what statement is
meant. `statement_of_call` is that each operation prepares this text and binds the values of its
marks in their order, or throws before it prepares anything. The loops that build a text and
those that bind are compared with the tokens one at a time.
-/

set_option autoImplicit false

namespace CppLaravel.Database.SqliteConnection

/-! ### Tokens -/

inductive Token where
  | word (w : Bytes)
  | name (n : Bytes)
  | numeral (n : Nat)
  | mark (v : Value)

def Token.text : Token → Bytes
  | .word w => w
  | .name n => n
  | .numeral n => natToString n
  | .mark _ => bytes "?"

def sqlText (ts : List Token) : Bytes := ts.flatMap Token.text

/-- The values of the marks, in their order. -/
def markValues (ts : List Token) : List Value :=
  ts.filterMap fun
    | .mark v => some v
    | _ => none

/-- The keywords and the punctuation. -/
def fixedWords : List Bytes :=
  ["INSERT INTO ", " (", ") VALUES (", ")", ", ", "SELECT * FROM ", "SELECT COUNT(*) FROM ",
    "UPDATE ", " SET ", "DELETE FROM ", " WHERE ", " AND ", " IN (", ",", " ", "=", "!=", "<",
    "<=", ">", ">=", " = ", " ORDER BY ", " DESC", " ASC", " LIMIT ", " LIMIT -1",
    " OFFSET "].map bytes

def IsLetter (c : UInt8) : Prop := 97 ≤ c ∧ c ≤ 122 ∨ 65 ≤ c ∧ c ≤ 90 ∨ c = 95

/-- `[A-Za-z_][A-Za-z0-9_]*`. -/
def IsName (n : Bytes) : Prop :=
  ∃ c cs, n = c :: cs ∧ IsLetter c ∧ ∀ d ∈ cs, IsLetter d ∨ 48 ≤ d ∧ d ≤ 57

/-- A token that no caller has put a text of its own into. -/
def Token.Plain : Token → Prop
  | .word w => w ∈ fixedWords
  | .name n => IsName n
  | .numeral _ => True
  | .mark _ => True

@[simp] theorem sqlText_nil : sqlText [] = [] := rfl

@[simp] theorem sqlText_cons (t : Token) (ts : List Token) :
    sqlText (t :: ts) = t.text ++ sqlText ts := rfl

@[simp] theorem sqlText_append (ts us : List Token) :
    sqlText (ts ++ us) = sqlText ts ++ sqlText us := List.flatMap_append

@[simp] theorem markValues_nil : markValues [] = [] := rfl

@[simp] theorem markValues_append (ts us : List Token) :
    markValues (ts ++ us) = markValues ts ++ markValues us := List.filterMap_append

@[simp] theorem markValues_cons_mark (v : Value) (ts : List Token) :
    markValues (.mark v :: ts) = v :: markValues ts := rfl

@[simp] theorem markValues_cons_word (w : Bytes) (ts : List Token) :
    markValues (.word w :: ts) = markValues ts := rfl

@[simp] theorem markValues_cons_name (n : Bytes) (ts : List Token) :
    markValues (.name n :: ts) = markValues ts := rfl

@[simp] theorem markValues_cons_numeral (n : Nat) (ts : List Token) :
    markValues (.numeral n :: ts) = markValues ts := rfl

theorem isName_of_isSqlIdentifier {n : Bytes} (h : isSqlIdentifier n = true) : IsName n := by
  cases n with
  | nil => cases h
  | cons c cs =>
    simp only [isSqlIdentifier, List.all_cons, Bool.and_eq_true, Bool.or_eq_true,
      decide_eq_true_eq, List.all_eq_true] at h
    refine ⟨c, cs, rfl, ?_, fun d hd => ?_⟩
    · simpa [IsLetter, or_assoc] using h.1
    · simpa [IsLetter, or_assoc] using h.2.2 d hd

/-- No token but a mark has a question mark, and none has a NUL. -/
theorem Token.Plain.text_ne {t : Token} (h : t.Plain) :
    (∀ c ∈ t.text, c ≠ 0) ∧ t.text.count 63 = (markValues [t]).length := by
  have hword : ∀ w ∈ fixedWords, 0 ∉ w ∧ 63 ∉ w := by decide
  -- Letters, digits and the underscore are neither a NUL nor a question mark.
  have hsafe : ∀ (n : Bytes), (∀ c ∈ n, 48 ≤ c ∧ c ≠ 63) → (∀ c ∈ n, c ≠ 0) ∧ n.count 63 = 0 := by
    intro n hn
    refine ⟨fun c hc h0 => absurd (hn c hc).1 (by rw [h0]; decide), ?_⟩
    exact List.count_eq_zero.mpr fun hmem => (hn 63 hmem).2 rfl
  cases t with
  | word w =>
    obtain ⟨hzero, hmark⟩ := hword w h
    exact ⟨fun c hc h0 => hzero (h0 ▸ hc), List.count_eq_zero.mpr hmark⟩
  | name n =>
    refine hsafe n ?_
    obtain ⟨c, cs, rfl, hc, hcs⟩ := h
    intro d hd
    cases List.mem_cons.mp hd with
    | inl hd =>
      subst hd
      unfold IsLetter at hc
      constructor <;> grind
    | inr hd =>
      have := hcs d hd
      unfold IsLetter at this
      constructor <;> grind
  | numeral n =>
    refine hsafe _ ?_
    intro c hc
    have := isDigit_of_mem_natToString hc
    simp only [isDigit, Bool.and_eq_true, decide_eq_true_eq] at this
    constructor <;> grind
  | mark v =>
    have hmark : ∀ c ∈ bytes "?", c ≠ 0 := List.all_iff_forall_prop.mp (by decide)
    exact ⟨hmark, rfl⟩

theorem sqlText_plain {ts : List Token} (h : ∀ t ∈ ts, t.Plain) :
    (∀ c ∈ sqlText ts, c ≠ 0) ∧ (sqlText ts).count 63 = (markValues ts).length := by
  induction ts with
  | nil => exact ⟨fun c hc => (by cases hc), rfl⟩
  | cons t ts ih =>
    obtain ⟨ht, hts⟩ := List.forall_mem_cons.mp h
    obtain ⟨hzero, hcount⟩ := ht.text_ne
    obtain ⟨hzero', hcount'⟩ := ih hts
    constructor
    · intro c hc
      cases List.mem_append.mp hc with
      | inl hc => exact hzero c hc
      | inr hc => exact hzero' c hc
    · rw [sqlText_cons, List.count_append, hcount, hcount', ← List.length_append,
        ← markValues_append, List.singleton_append]

/-! ### What the operations mean -/

/-- Items with a separator between them. -/
def separated (separator : Bytes) : List (List Token) → List Token
  | [] => []
  | item :: items => item ++ items.flatMap fun item => .word separator :: item

/-- The condition of a where clause. -/
def conditionTokens (w : WhereClause) : List Token :=
  match w.op with
  | .oneOf => [.name w.column, .word (bytes " IN (")] ++
      separated (bytes ",") (w.values.map fun v => [.mark v]) ++ [.word (bytes ")")]
  | op => [.name w.column, .word (bytes " "), .word (opSql op), .word (bytes " "), .mark w.value]

def whereTokens : List WhereClause → List Token
  | [] => []
  | ws => .word (bytes " WHERE ") :: separated (bytes " AND ") (ws.map conditionTokens)

def orderTokens : Option OrderClause → List Token
  | none => []
  | some order => [.word (bytes " ORDER BY "), .name order.column,
      .word (if order.descending then bytes " DESC" else bytes " ASC")]

/-- An offset needs a limit before it. -/
def limitTokens (query : Query) : List Token :=
  match query.limit, query.offset with
  | none, none => []
  | some limit, none => [.word (bytes " LIMIT "), .numeral limit]
  | none, some offset => [.word (bytes " LIMIT -1"), .word (bytes " OFFSET "), .numeral offset]
  | some limit, some offset =>
    [.word (bytes " LIMIT "), .numeral limit, .word (bytes " OFFSET "), .numeral offset]

def setTokens (cols : List (Bytes × Value)) : List Token :=
  separated (bytes ", ") (cols.map fun c => [.name c.1, .word (bytes " = "), .mark c.2])

/-- The condition that picks the row with an id. -/
def idTokens (id : Int) : List Token :=
  [.word (bytes " WHERE "), .name (bytes "id"), .word (bytes " = "), .mark (.int id)]

/-- An operation with its arguments. -/
inductive Call where
  | insert (table : Bytes) (cols : List (Bytes × Value))
  | find (table : Bytes) (id : Int)
  | select (table : Bytes) (query : Query)
  | count (table : Bytes) (query : Query)
  | update (table : Bytes) (id : Int) (cols : List (Bytes × Value))
  | updateIf (table : Bytes) (id : Int) (guardCol : Bytes) (guardValue : Value)
      (cols : List (Bytes × Value))
  | remove (table : Bytes) (id : Int)

/-- What an operation prepares and binds. -/
def Call.statement : Call → Except Error Statement
  | insert table cols => insertStatement table cols
  | find table id => findStatement table id
  | select table query => selectStatement table query
  | count table query => countStatement table query
  | update table id cols => updateStatement table id cols
  | updateIf table id guardCol guardValue cols =>
    updateIfStatement table id guardCol guardValue cols
  | remove table id => removeStatement table id

/-- The statement that an operation stands for. -/
def Call.tokens : Call → List Token
  | insert table cols =>
    [.word (bytes "INSERT INTO "), .name table, .word (bytes " (")] ++
      separated (bytes ", ") (cols.map fun c => [.name c.1]) ++ [.word (bytes ") VALUES (")] ++
      separated (bytes ", ") (cols.map fun c => [.mark c.2]) ++ [.word (bytes ")")]
  | find table id => [.word (bytes "SELECT * FROM "), .name table] ++ idTokens id
  | select table query =>
    [.word (bytes "SELECT * FROM "), .name table] ++ whereTokens query.wheres ++
      orderTokens query.order ++ limitTokens query
  | count table query =>
    [.word (bytes "SELECT COUNT(*) FROM "), .name table] ++ whereTokens query.wheres
  | update table id cols =>
    [.word (bytes "UPDATE "), .name table, .word (bytes " SET ")] ++ setTokens (withoutId cols) ++
      idTokens id
  | updateIf table id guardCol guardValue cols =>
    [.word (bytes "UPDATE "), .name table, .word (bytes " SET ")] ++ setTokens (withoutId cols) ++
      idTokens id ++ [.word (bytes " AND "), .name guardCol, .word (bytes " = "),
        .mark guardValue]
  | remove table id => [.word (bytes "DELETE FROM "), .name table] ++ idTokens id

/-! ### The loops -/

/-- Items after a first one, as a loop adds them that tests its index. -/
def following (separator : Bytes) (i : Nat) (items : List (List Token)) : List Token :=
  match i with
  | 0 => separated separator items
  | _ + 1 => items.flatMap fun item => .word separator :: item

theorem following_nil (separator : Bytes) (i : Nat) : following separator i [] = [] := by
  cases i <;> rfl

theorem following_cons (separator : Bytes) (i : Nat) (item : List Token)
    (items : List (List Token)) : following separator i (item :: items) =
      (if i = 0 then [] else [.word separator]) ++ item ++ following separator (i + 1) items := by
  cases i with
  | zero => rfl
  | succ i => simp [following]

/-- Names that may stand in a text. -/
def Safe (names : List Bytes) : Prop := ∀ n ∈ names, isSqlIdentifier n = true

instance (names : List Bytes) : Decidable (Safe names) :=
  inferInstanceAs (Decidable (∀ n ∈ names, isSqlIdentifier n = true))

@[simp] theorem safe_nil : Safe [] := fun n hn => by cases hn

@[simp] theorem safe_cons {n : Bytes} {names : List Bytes} :
    Safe (n :: names) ↔ isSqlIdentifier n = true ∧ Safe names := List.forall_mem_cons

@[simp] theorem safe_append {names names' : List Bytes} :
    Safe (names ++ names') ↔ Safe names ∧ Safe names' := List.forall_mem_append

/-- A computation that gives `a` if its names are safe, and throws otherwise. -/
def Checked {α : Type} (x : Except Error α) (a : α) (names : List Bytes) : Prop :=
  (∃ what, x = .error (.invalidArgument what)) ∧ ¬ Safe names ∨ x = .ok a ∧ Safe names

theorem Checked.pure {α : Type} (a : α) : Checked (.ok a) a [] := .inr ⟨rfl, safe_nil⟩

theorem Checked.bind {α β : Type} {x : Except Error α} {a : α} {names names' : List Bytes}
    {f : α → Except Error β} {b : β} (hx : Checked x a names) (hf : Checked (f a) b names') :
    Checked (x >>= f) b (names ++ names') := by
  obtain ⟨⟨what, hx⟩, hnames⟩ | ⟨hx, hnames⟩ := hx
  · exact .inl ⟨⟨what, by rw [hx]; rfl⟩, fun h => hnames (safe_append.mp h).1⟩
  · rw [hx]
    obtain ⟨hf, hnames'⟩ | ⟨hf, hnames'⟩ := hf
    · exact .inl ⟨hf, fun h => hnames' (safe_append.mp h).2⟩
    · exact .inr ⟨hf, safe_append.mpr ⟨hnames, hnames'⟩⟩

theorem checked_ident (name : Bytes) : Checked (ident name) name [name] := by
  unfold ident
  split
  · rename_i h
    exact .inr ⟨rfl, by simpa using h⟩
  · rename_i h
    exact .inl ⟨⟨_, rfl⟩, by simpa using h⟩

theorem inMarks_eq (j : Nat) (vs : List Value) :
    inMarks j vs = sqlText (following (bytes ",") j (vs.map fun v => [.mark v])) := by
  induction vs generalizing j with
  | nil => rw [List.map_nil, following_nil]; rfl
  | cons v vs ih =>
    rw [inMarks, ih, List.map_cons, following_cons]
    by_cases h : j = 0 <;> simp [h, Token.text, bytes]

theorem checked_appendSets (i : Nat) (sets : Bytes) (cols : List (Bytes × Value)) :
    Checked (appendSets i sets cols) (sets ++ sqlText (following (bytes ", ") i
      (cols.map fun c => [.name c.1, .word (bytes " = "), .mark c.2]))) (cols.map Prod.fst) := by
  induction cols generalizing i sets with
  | nil =>
    rw [List.map_nil, following_nil, sqlText_nil, List.append_nil]
    exact .pure _
  | cons c cols ih =>
    refine (checked_ident c.1).bind ?_
    convert ih (i + 1) _ using 1
    rw [List.map_cons, following_cons]
    by_cases h : i = 0 <;> simp [h, Token.text, bytes]

theorem checked_namesAndMarks (i : Nat) (names marks : Bytes) (cols : List (Bytes × Value)) :
    Checked (namesAndMarks i (names, marks) cols)
      (names ++ sqlText (following (bytes ", ") i (cols.map fun c => [.name c.1])),
        marks ++ sqlText (following (bytes ", ") i (cols.map fun c => [.mark c.2])))
      (cols.map Prod.fst) := by
  induction cols generalizing i names marks with
  | nil =>
    rw [List.map_nil, List.map_nil, following_nil, sqlText_nil, List.append_nil, List.append_nil]
    exact .pure _
  | cons c cols ih =>
    refine (checked_ident c.1).bind ?_
    convert ih (i + 1) _ _ using 2
    · rw [List.map_cons, following_cons]
      by_cases h : i = 0 <;> simp [h, Token.text, bytes]
    · rw [List.map_cons, following_cons]
      by_cases h : i = 0 <;> simp [h, Token.text, bytes]

/-- The where clauses from the index `i` on. -/
def whereTokensFrom : Nat → List WhereClause → List Token
  | _, [] => []
  | i, w :: ws =>
    .word (if i = 0 then bytes " WHERE " else bytes " AND ") :: conditionTokens w ++
      whereTokensFrom (i + 1) ws

theorem whereTokensFrom_succ (i : Nat) (ws : List WhereClause) :
    whereTokensFrom (i + 1) ws = following (bytes " AND ") (i + 1) (ws.map conditionTokens) := by
  induction ws generalizing i with
  | nil => rfl
  | cons w ws ih =>
    rw [whereTokensFrom, ih, List.map_cons, following_cons]
    rfl

theorem whereTokensFrom_zero (ws : List WhereClause) : whereTokensFrom 0 ws = whereTokens ws := by
  cases ws with
  | nil => rfl
  | cons w ws =>
    rw [whereTokensFrom, whereTokensFrom_succ]
    rfl

theorem conditionTokens_of_ne {w : WhereClause} (h : w.op ≠ .oneOf) : conditionTokens w =
    [.name w.column, .word (bytes " "), .word (opSql w.op), .word (bytes " "), .mark w.value] := by
  unfold conditionTokens
  split
  · rename_i hop
    exact absurd hop h
  · rfl

theorem checked_appendWheres (i : Nat) (sql : Bytes) (ws : List WhereClause) :
    Checked (appendWheres i sql ws) (sql ++ sqlText (whereTokensFrom i ws))
      (ws.map WhereClause.column) := by
  induction ws generalizing i sql with
  | nil =>
    rw [whereTokensFrom, sqlText_nil, List.append_nil]
    exact .pure _
  | cons w ws ih =>
    refine (checked_ident w.column).bind ?_
    -- Both branches go on with their own condition appended.
    split
    · rename_i hop
      convert ih (i + 1) _ using 1
      rw [whereTokensFrom, conditionTokens, hop]
      simp [inMarks_eq, following, Token.text]
    · rename_i op hop
      convert ih (i + 1) _ using 1
      rw [whereTokensFrom, conditionTokens_of_ne hop]
      simp [Token.text, bytes]

/-! ### The bindings -/

theorem bindFrom_append (idx : Nat) (vs vs' : List Value) :
    bindFrom idx (vs ++ vs') = bindFrom idx vs ++ bindFrom (idx + vs.length) vs' := by
  simp [bindFrom, List.zipIdx_append]

/-- Items with one mark each. -/
theorem markValues_following {α : Type} {item : α → List Token} {value : α → Value}
    (h : ∀ x, markValues (item x) = [value x]) (separator : Bytes) (i : Nat) (xs : List α) :
    markValues (following separator i (xs.map item)) = xs.map value := by
  induction xs generalizing i with
  | nil => rw [List.map_nil, following_nil]; rfl
  | cons x xs ih =>
    rw [List.map_cons, following_cons, markValues_append, markValues_append, ih, h]
    by_cases hi : i = 0 <;> simp [hi]

theorem bindWheres_eq (i idx : Nat) (ws : List WhereClause) :
    bindWheres idx ws = bindFrom idx (markValues (whereTokensFrom i ws)) := by
  induction ws generalizing i idx with
  | nil => rfl
  | cons w ws ih =>
    rw [bindWheres, whereTokensFrom, List.cons_append, markValues_cons_word, markValues_append,
      bindFrom_append]
    split
    · rename_i hop
      have hvalues : markValues (separated (bytes ",") (w.values.map fun v => [.mark v])) =
          w.values :=
        (markValues_following (fun _ => rfl) (bytes ",") 0 w.values).trans (List.map_id _)
      simp only [conditionTokens, hop, List.cons_append, List.nil_append, markValues_cons_name,
        markValues_cons_word, markValues_append, hvalues, markValues_nil, List.append_nil]
      rw [← ih]
    · rename_i hop
      rw [conditionTokens_of_ne hop, ih (i + 1)]
      rfl

/-! ### The operations -/

def AllPlain (ts : List Token) : Prop := ∀ t ∈ ts, t.Plain

@[simp] theorem allPlain_nil : AllPlain [] := fun t ht => by cases ht

@[simp] theorem allPlain_cons {t : Token} {ts : List Token} :
    AllPlain (t :: ts) ↔ t.Plain ∧ AllPlain ts := List.forall_mem_cons

@[simp] theorem allPlain_append {ts us : List Token} :
    AllPlain (ts ++ us) ↔ AllPlain ts ∧ AllPlain us := List.forall_mem_append

@[simp] theorem plain_mark (v : Value) : (Token.mark v).Plain := trivial

@[simp] theorem plain_numeral (n : Nat) : (Token.numeral n).Plain := trivial

@[simp] theorem plain_word {w : Bytes} : (Token.word w).Plain ↔ w ∈ fixedWords := Iff.rfl

theorem plain_name {n : Bytes} (h : isSqlIdentifier n = true) : (Token.name n).Plain :=
  isName_of_isSqlIdentifier h

theorem allPlain_following {separator : Bytes} (hsep : separator ∈ fixedWords) (i : Nat)
    {items : List (List Token)} (h : ∀ item ∈ items, AllPlain item) :
    AllPlain (following separator i items) := by
  induction items generalizing i with
  | nil => rw [following_nil]; exact allPlain_nil
  | cons item items ih =>
    obtain ⟨hitem, hitems⟩ := List.forall_mem_cons.mp h
    rw [following_cons]
    by_cases hi : i = 0 <;> simp [hi, hsep, hitem, ih _ hitems]

theorem opSql_mem (op : Op) : opSql op ∈ fixedWords := by
  cases op <;> decide

theorem allPlain_conditionTokens {w : WhereClause} (h : isSqlIdentifier w.column = true) :
    AllPlain (conditionTokens w) := by
  unfold conditionTokens
  split
  · have hvalues : AllPlain (separated (bytes ",") (w.values.map fun v => [.mark v])) :=
      allPlain_following (i := 0) (by decide) (by simp)
    have hin : bytes " IN (" ∈ fixedWords ∧ bytes ")" ∈ fixedWords := by decide
    simp [plain_name h, hvalues, hin]
  · have hblank : bytes " " ∈ fixedWords := by decide
    simp [plain_name h, opSql_mem, hblank]

theorem allPlain_whereTokensFrom (i : Nat) {ws : List WhereClause}
    (h : Safe (ws.map WhereClause.column)) : AllPlain (whereTokensFrom i ws) := by
  induction ws generalizing i with
  | nil => exact allPlain_nil
  | cons w ws ih =>
    obtain ⟨hw, hws⟩ := List.forall_mem_cons.mp h
    have hword : bytes " WHERE " ∈ fixedWords ∧ bytes " AND " ∈ fixedWords := by decide
    rw [whereTokensFrom]
    by_cases hi : i = 0 <;> simp [hi, hword, allPlain_conditionTokens hw, ih _ hws]

theorem allPlain_whereTokens {ws : List WhereClause} (h : Safe (ws.map WhereClause.column)) :
    AllPlain (whereTokens ws) :=
  whereTokensFrom_zero ws ▸ allPlain_whereTokensFrom 0 h

theorem allPlain_orderTokens {order : Option OrderClause}
    (h : Safe (order.toList.map OrderClause.column)) : AllPlain (orderTokens order) := by
  have hwords : bytes " ORDER BY " ∈ fixedWords ∧ bytes " DESC" ∈ fixedWords ∧
    bytes " ASC" ∈ fixedWords := by decide
  cases order with
  | none => exact allPlain_nil
  | some order =>
    have hcolumn := plain_name (h order.column (by simp))
    by_cases hdesc : order.descending <;> simp [orderTokens, hwords, hcolumn, hdesc]

theorem allPlain_setTokens {cols : List (Bytes × Value)} (h : Safe (cols.map Prod.fst)) :
    AllPlain (setTokens cols) := by
  refine allPlain_following (i := 0) (by decide) ?_
  have hword : bytes " = " ∈ fixedWords := by decide
  intro item hitem
  obtain ⟨c, hc, rfl⟩ := List.mem_map.mp hitem
  simp [plain_name (h c.1 (List.mem_map_of_mem hc)), hword]

theorem markValues_setTokens (cols : List (Bytes × Value)) :
    markValues (setTokens cols) = cols.map Prod.snd :=
  markValues_following (fun _ => rfl) (bytes ", ") 0 cols

theorem allPlain_idTokens (id : Int) : AllPlain (idTokens id) := by
  have hword : bytes " WHERE " ∈ fixedWords ∧ bytes " = " ∈ fixedWords := by decide
  simp [idTokens, hword, plain_name (n := bytes "id") (by decide)]

/-- The statement that tokens spell. -/
def spelled (ts : List Token) : Statement := ⟨sqlText ts, bindFrom 1 (markValues ts)⟩

theorem Checked.spelled {x : Except Error Statement} {s : Statement} {names : List Bytes}
    (hx : Checked x s names) {ts : List Token} (hsql : s.sql = sqlText ts)
    (hbinds : s.binds = bindFrom 1 (markValues ts)) : Checked x (spelled ts) names := by
  have hs : s = SqliteConnection.spelled ts := by
    cases s
    exact congrArg₂ Statement.mk hsql hbinds
  exact hs ▸ hx

section
variable (table : Bytes)

theorem checked_insert (cols : List (Bytes × Value)) : Checked (insertStatement table cols)
    (spelled (Call.insert table cols).tokens) (cols.map Prod.fst ++ [table]) := by
  have hchecked : Checked (insertStatement table cols) _ (cols.map Prod.fst ++ [table]) :=
    (checked_namesAndMarks 0 [] [] cols).bind ((checked_ident table).bind (.pure _))
  refine hchecked.spelled ?_ ?_
  · simp [Call.tokens, Token.text, following]
  · have hnames : markValues (separated (bytes ", ") (cols.map fun c => [.name c.1])) = [] := by
      cases cols <;> simp [separated, List.flatMap_map, markValues, List.filterMap_flatMap]
    have hmarks : markValues (separated (bytes ", ") (cols.map fun c => [.mark c.2])) =
        cols.map Prod.snd := markValues_following (fun _ => rfl) (bytes ", ") 0 cols
    simp [Call.tokens, hnames, hmarks]

theorem checked_find (id : Int) :
    Checked (findStatement table id) (spelled (Call.find table id).tokens) [table] := by
  have hchecked : Checked (findStatement table id) _ [table] :=
    (checked_ident table).bind (.pure _)
  refine hchecked.spelled ?_ rfl
  simp [Call.tokens, idTokens, Token.text, bytes]

theorem checked_remove (id : Int) :
    Checked (removeStatement table id) (spelled (Call.remove table id).tokens) [table] := by
  have hchecked : Checked (removeStatement table id) _ [table] :=
    (checked_ident table).bind (.pure _)
  refine hchecked.spelled ?_ rfl
  simp [Call.tokens, idTokens, Token.text, bytes]

theorem checked_count (query : Query) : Checked (countStatement table query)
    (spelled (Call.count table query).tokens) (table :: query.wheres.map WhereClause.column) := by
  have hchecked : Checked (countStatement table query) _
      ([table] ++ (query.wheres.map WhereClause.column ++ [])) :=
    (checked_ident table).bind ((checked_appendWheres 0 _ query.wheres).bind (.pure _))
  rw [List.append_nil] at hchecked
  refine hchecked.spelled ?_ ?_
  · simp [Call.tokens, Token.text, whereTokensFrom_zero]
  · simp [Call.tokens, bindWheres_eq 0, whereTokensFrom_zero]

theorem checked_appendOrder (sql : Bytes) (order : Option OrderClause) :
    Checked (appendOrder sql order) (sql ++ sqlText (orderTokens order))
      (order.toList.map OrderClause.column) := by
  cases order with
  | none =>
    rw [orderTokens, sqlText_nil, List.append_nil]
    exact .pure _
  | some order =>
    have h : Checked (appendOrder sql (some order)) _ _ :=
      (checked_ident order.column).bind (.pure _)
    simpa [orderTokens, Token.text] using h

theorem appendLimit_eq (sql : Bytes) (query : Query) :
    appendLimit sql query = sql ++ sqlText (limitTokens query) := by
  unfold appendLimit limitTokens
  cases query.limit <;> cases query.offset <;> simp [Token.text]

theorem checked_select (query : Query) :
    Checked (selectStatement table query) (spelled (Call.select table query).tokens)
      (table :: (query.wheres.map WhereClause.column ++
        query.order.toList.map OrderClause.column)) := by
  have hchecked : Checked (selectStatement table query) _
      ([table] ++ (query.wheres.map WhereClause.column ++
        (query.order.toList.map OrderClause.column ++ []))) :=
    (checked_ident table).bind ((checked_appendWheres 0 _ query.wheres).bind
      ((checked_appendOrder _ query.order).bind (.pure _)))
  rw [List.append_nil] at hchecked
  refine hchecked.spelled ?_ ?_
  · simp [Call.tokens, Token.text, whereTokensFrom_zero, appendLimit_eq]
  · have horder : markValues (orderTokens query.order) = [] := by
      cases query.order <;> rfl
    have hlimit : markValues (limitTokens query) = [] := by
      unfold limitTokens
      split <;> rfl
    simp [Call.tokens, bindWheres_eq 0, whereTokensFrom_zero, horder, hlimit]

theorem checked_update (id : Int) (cols : List (Bytes × Value)) :
    Checked (updateStatement table id cols) (spelled (Call.update table id cols).tokens)
      ((withoutId cols).map Prod.fst ++ [table]) := by
  have hchecked : Checked (updateStatement table id cols) _
      ((withoutId cols).map Prod.fst ++ [table]) :=
    (checked_appendSets 0 [] (withoutId cols)).bind ((checked_ident table).bind (.pure _))
  refine hchecked.spelled ?_ ?_
  · simp [Call.tokens, idTokens, Token.text, bytes, following, setTokens]
  · simp [Call.tokens, markValues_setTokens, idTokens]

theorem checked_updateIf (id : Int) (guardCol : Bytes) (guardValue : Value)
    (cols : List (Bytes × Value)) :
    Checked (updateIfStatement table id guardCol guardValue cols)
      (spelled (Call.updateIf table id guardCol guardValue cols).tokens)
      ((withoutId cols).map Prod.fst ++ [table, guardCol]) := by
  have hchecked : Checked (updateIfStatement table id guardCol guardValue cols) _
      ((withoutId cols).map Prod.fst ++ [table, guardCol]) :=
    (checked_appendSets 0 [] (withoutId cols)).bind
      ((checked_ident table).bind ((checked_ident guardCol).bind (.pure _)))
  refine hchecked.spelled ?_ ?_
  · simp [Call.tokens, idTokens, Token.text, bytes, following, setTokens]
  · simp [Call.tokens, markValues_setTokens, idTokens]

end

/-- The names that an operation puts into its text. -/
def Call.names : Call → List Bytes
  | insert table cols => cols.map Prod.fst ++ [table]
  | find table _ => [table]
  | select table query => table :: (query.wheres.map WhereClause.column ++
      query.order.toList.map OrderClause.column)
  | count table query => table :: query.wheres.map WhereClause.column
  | update table _ cols => (withoutId cols).map Prod.fst ++ [table]
  | updateIf table _ guardCol _ cols => (withoutId cols).map Prod.fst ++ [table, guardCol]
  | remove table _ => [table]

theorem checked_call (call : Call) : Checked call.statement (spelled call.tokens) call.names := by
  cases call with
  | insert table cols => exact checked_insert table cols
  | find table id => exact checked_find table id
  | select table query => exact checked_select table query
  | count table query => exact checked_count table query
  | update table id cols => exact checked_update table id cols
  | updateIf table id guardCol guardValue cols =>
    exact checked_updateIf table id guardCol guardValue cols
  | remove table id => exact checked_remove table id

/-- With safe names every token is plain. -/
theorem allPlain_tokens {call : Call} (h : Safe call.names) : AllPlain call.tokens := by
  cases call with
  | insert table cols =>
    simp only [Call.names, safe_append, safe_cons] at h
    have hword : bytes "INSERT INTO " ∈ fixedWords ∧ bytes " (" ∈ fixedWords ∧
        bytes ") VALUES (" ∈ fixedWords ∧ bytes ")" ∈ fixedWords := by decide
    -- The two lists of an insert: its names, and a mark for each value.
    have hcols : AllPlain (separated (bytes ", ") (cols.map fun c => [.name c.1])) := by
      refine allPlain_following (i := 0) (by decide) ?_
      intro item hitem
      obtain ⟨c, hc, rfl⟩ := List.mem_map.mp hitem
      simp [plain_name (h.1 c.1 (List.mem_map_of_mem hc))]
    have hmarks : AllPlain (separated (bytes ", ") (cols.map fun c => [.mark c.2])) := by
      refine allPlain_following (i := 0) (by decide) ?_
      intro item hitem
      obtain ⟨c, -, rfl⟩ := List.mem_map.mp hitem
      simp
    simp [Call.tokens, hword, hcols, hmarks, plain_name h.2.1]
  | find table id =>
    simp only [Call.names, safe_cons] at h
    have hword : bytes "SELECT * FROM " ∈ fixedWords := by decide
    simp [Call.tokens, allPlain_idTokens, hword, plain_name h.1]
  | select table query =>
    simp only [Call.names, safe_append, safe_cons] at h
    obtain ⟨htable, hwheres, horder⟩ := h
    have hword : bytes "SELECT * FROM " ∈ fixedWords := by decide
    have hlimit : AllPlain (limitTokens query) := by
      have hwords : bytes " LIMIT " ∈ fixedWords ∧ bytes " LIMIT -1" ∈ fixedWords ∧
        bytes " OFFSET " ∈ fixedWords := by decide
      unfold limitTokens
      split <;> simp [hwords]
    simp [Call.tokens, hword, allPlain_whereTokens hwheres, allPlain_orderTokens horder, hlimit,
      plain_name htable]
  | count table query =>
    simp only [Call.names, safe_cons] at h
    have hword : bytes "SELECT COUNT(*) FROM " ∈ fixedWords := by decide
    simp [Call.tokens, hword, allPlain_whereTokens h.2, plain_name h.1]
  | update table id cols =>
    simp only [Call.names, safe_append, safe_cons] at h
    have hword : bytes "UPDATE " ∈ fixedWords ∧ bytes " SET " ∈ fixedWords := by decide
    simp [Call.tokens, hword, allPlain_setTokens h.1, allPlain_idTokens, plain_name h.2.1]
  | updateIf table id guardCol guardValue cols =>
    simp only [Call.names, safe_append, safe_cons] at h
    have hword : bytes "UPDATE " ∈ fixedWords ∧ bytes " SET " ∈ fixedWords ∧
        bytes " AND " ∈ fixedWords ∧ bytes " = " ∈ fixedWords := by decide
    simp [Call.tokens, hword, allPlain_setTokens h.1, allPlain_idTokens, plain_name h.2.1,
      plain_name h.2.2.1]
  | remove table id =>
    simp only [Call.names, safe_cons] at h
    have hword : bytes "DELETE FROM " ∈ fixedWords := by decide
    simp [Call.tokens, allPlain_idTokens, hword, plain_name h.1]

theorem cStr_eq_self_iff {s : Bytes} : cStr s = s ↔ 0 ∉ s := by
  rw [cStr, List.takeWhile_eq_self_iff]
  constructor
  · intro h hmem
    simpa using h 0 hmem
  · intro h c hc
    have hne : c ≠ 0 := fun h0 => h (h0 ▸ hc)
    simpa using hne

theorem cStr_cStr (s : Bytes) : cStr (cStr s) = cStr s := by
  rw [cStr, cStr, List.takeWhile_takeWhile]
  simp

/-- The library sees the whole text. -/
theorem cStr_sqlText {ts : List Token} (h : AllPlain ts) : cStr (sqlText ts) = sqlText ts :=
  cStr_eq_self_iff.mpr fun hmem => (sqlText_plain h).1 0 hmem rfl

/-- For every operation and all arguments: it throws before it prepares anything, or the text is
spelled by plain tokens, the library sees all of it, there are as many marks as values bound, and
the values bound are those of the marks. -/
theorem statement_of_call (call : Call) :
    (∃ what, call.statement = .error (.invalidArgument what)) ∨
      ∃ s, call.statement = .ok s ∧ (∀ t ∈ call.tokens, t.Plain) ∧ s.sql = sqlText call.tokens ∧
        cStr s.sql = s.sql ∧ s.sql.count 63 = s.binds.length ∧
        s.binds = bindFrom 1 (markValues call.tokens) := by
  obtain ⟨herror, -⟩ | ⟨hok, hsafe⟩ := checked_call call
  · exact .inl herror
  · have hplain := allPlain_tokens hsafe
    refine .inr ⟨spelled call.tokens, hok, hplain, rfl, cStr_sqlText hplain, ?_, rfl⟩
    show (sqlText call.tokens).count 63 = (bindFrom 1 (markValues call.tokens)).length
    rw [(sqlText_plain hplain).2]
    simp [bindFrom]

end CppLaravel.Database.SqliteConnection
