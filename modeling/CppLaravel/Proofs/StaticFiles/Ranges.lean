import CppLaravel.StaticFiles.Serve

/-!
# `CppLaravel.Proofs.StaticFiles.Ranges`: the part of a file that a header asks for

A well-formed header names one range by numerals of any length (`ByteRange`), and
`ByteRange.wanted` says which bytes of a file of a given size it asks for. `parse_range` reads
the numerals by `std::stoll`, which throws from `2 ^ 63` on, and takes a throw for an
unsatisfiable range. `range_law_iff` says for which headers that makes no difference: where the
start lies behind the file anyway, or the number after the dash fits.
-/

set_option autoImplicit false

namespace CppLaravel.StaticFiles

open CppLaravel.Lib CppLaravel.Http

/-- A well-formed header with a single range. -/
inductive ByteRange where
  | between (a b : Numeral) (h : a.value ≤ b.value)
  | onward (a : Numeral)
  | suffix (s : Numeral)

namespace ByteRange

/-- `bytes=a-b`, `bytes=a-` and `bytes=-s`. -/
def header : ByteRange → Bytes
  | .between a b _ => bytes "bytes=" ++ (a.digits ++ 45 :: b.digits)
  | .onward a => bytes "bytes=" ++ (a.digits ++ [45])
  | .suffix s => bytes "bytes=" ++ 45 :: s.digits

/-- The first and the last byte that the header asks for, of a file of size `n`; `none` where
it asks for nothing that the file has. -/
def wanted (n : Nat) : ByteRange → Option (Nat × Nat)
  | .between a b _ => if a.value < n then some (a.value, min b.value (n - 1)) else none
  | .onward a => if a.value < n then some (a.value, n - 1) else none
  | .suffix s => if 0 < s.value ∧ 0 < n then some (n - s.value, n - 1) else none

/-- The number after the dash can be read, or there is nothing to be sent. -/
def Readable (n : Nat) : ByteRange → Prop
  | .between a b _ => n ≤ a.value ∨ b.value < 2 ^ 63
  | .onward _ => True
  | .suffix s => n = 0 ∨ s.value < 2 ^ 63

end ByteRange

/-! ### What is reported -/

/-- The range is satisfiable with these ends, or it is not satisfiable. -/
def Range.Reports (r : Range) : Option (Nat × Nat) → Prop
  | some (i, j) => r.satisfiable = true ∧ r.start = i ∧ r.last = j
  | none => r.satisfiable = false

/-- What is not satisfiable reports nothing. -/
theorem reports_none_iff {r : Range} {w : Option (Nat × Nat)} (h : r.satisfiable = false) :
    r.Reports w ↔ w = none := by
  cases w with
  | none => simp [Range.Reports, h]
  | some w => simp [Range.Reports, h]

/-- Fitting cuts a range at the end of the file, and reports what is left. -/
theorem fit_reports {r : Range} {i n : Nat} (hstart : r.start = i)
    (hfresh : r.satisfiable = false) :
    (r.fit n).Reports
      (if i < n ∧ (i : Int) ≤ r.last then some (i, min r.last.toNat (n - 1)) else none) := by
  unfold Range.fit
  by_cases hend : r.last > (n : Int) - 1
  · simp only [if_pos hend, hstart]
    split
    · rename_i hnone
      rw [if_neg (by omega)]
      exact hfresh
    · rename_i hsome
      rw [if_pos (by omega)]
      exact ⟨rfl, rfl, by show (n : Int) - 1 = _; omega⟩
  · simp only [if_neg hend, hstart]
    split
    · rename_i hnone
      rw [if_neg (by omega)]
      exact hfresh
    · rename_i hsome
      rw [if_pos (by omega)]
      exact ⟨rfl, rfl, by show r.last = _; omega⟩

/-- What fitting calls satisfiable lies inside the file. -/
theorem inside_of_fit {r : Range} {size : Int} (hfresh : r.satisfiable = false)
    (h : (r.fit size).satisfiable = true) :
    0 ≤ (r.fit size).start ∧ (r.fit size).start ≤ (r.fit size).last ∧
      (r.fit size).last < size := by
  unfold Range.fit at h ⊢
  by_cases hend : r.last > size - 1
  · simp only [if_pos hend] at h ⊢
    split at h
    · rw [hfresh] at h
      cases h
    · rename_i hsome
      rw [if_neg hsome]
      dsimp only
      omega
  · simp only [if_neg hend] at h ⊢
    split at h
    · rw [hfresh] at h
      cases h
    · rename_i hsome
      rw [if_neg hsome]
      dsimp only
      omega

/-- A header with a dash after a text without one. -/
theorem parseRange_eq {a : Bytes} (ha : (45 : UInt8) ∉ a) (b : Bytes) (size : Int) :
    parseRange (bytes "bytes=" ++ (a ++ 45 :: b)) size = parseEnds a b size := by
  have hdash : find (a ++ 45 :: b) [45] 0 = some a.length := by
    rw [find_zero]
    exact firstAt_single ha b
  rw [parseRange, if_neg (not_not.mpr (List.prefix_append _ _)), List.drop_left]
  simp only [hdash]
  rw [substr, List.drop_zero, List.take_left, List.drop_length_add_append]
  rfl

/-- A dash is no digit. -/
theorem dash_notMem (a : Numeral) : (45 : UInt8) ∉ a.digits := a.not_mem_digits (by decide)

/-- A range with both ends. -/
theorem parseEnds_between (a b : Numeral) {n : Nat} (hn : n < 2 ^ 63) (hab : a.value ≤ b.value) :
    (parseEnds a.digits b.digits n).Reports ((ByteRange.between a b hab).wanted n) ↔
      (ByteRange.between a b hab).Readable n := by
  show _ ↔ n ≤ a.value ∨ b.value < 2 ^ 63
  simp only [parseEnds, if_neg a.ne_nil, if_neg b.ne_nil, ByteRange.wanted]
  by_cases ha : a.value < 2 ^ 63
  · obtain ⟨start, hread, hstart⟩ := a.stoll_of_lt ha
    by_cases hb : b.value < 2 ^ 63
    · obtain ⟨last, hread', hlast⟩ := b.stoll_of_lt hb
      simp only [hread, hread', hstart, hlast]
      have hfit := fit_reports (r := { present := true, start := a.value, last := b.value })
        (n := n) rfl rfl
      rw [Int.toNat_natCast] at hfit
      have hcond : (a.value < n ∧ (a.value : Int) ≤ b.value) ↔ a.value < n := by omega
      simp only [hcond] at hfit
      exact iff_of_true hfit (.inr hb)
    · simp only [hread, b.stoll_of_ge (Nat.le_of_not_lt hb)]
      rw [reports_none_iff rfl, ite_eq_right_iff]
      constructor
      · intro hnone
        exact .inl (Nat.le_of_not_lt fun hlt => Option.some_ne_none _ (hnone hlt))
      · intro hcond hlt
        omega
  · -- Such a start lies behind every file.
    simp only [a.stoll_of_ge (Nat.le_of_not_lt ha)]
    rw [reports_none_iff rfl, if_neg (by omega)]
    exact iff_of_true rfl (.inl (by omega))

/-- A range up to the end of the file. -/
theorem parseEnds_onward (a : Numeral) {n : Nat} (hn : n < 2 ^ 63) :
    (parseEnds a.digits [] n).Reports ((ByteRange.onward a).wanted n) := by
  simp only [parseEnds, if_neg a.ne_nil, ByteRange.wanted]
  by_cases ha : a.value < 2 ^ 63
  · obtain ⟨start, hread, hstart⟩ := a.stoll_of_lt ha
    simp only [hread, hstart]
    have hfit := fit_reports (r := { present := true, start := a.value, last := (n : Int) - 1 })
      (n := n) rfl rfl
    have hcond : (a.value < n ∧ (a.value : Int) ≤ (n : Int) - 1) ↔ a.value < n := by omega
    have hlast : min ((n : Int) - 1).toNat (n - 1) = n - 1 := by omega
    simp only [hcond, hlast] at hfit
    exact hfit
  · simp only [a.stoll_of_ge (Nat.le_of_not_lt ha)]
    rw [reports_none_iff rfl, if_neg (by omega)]

/-- The last bytes of the file. -/
theorem parseEnds_suffix (s : Numeral) {n : Nat} :
    (parseEnds [] s.digits n).Reports ((ByteRange.suffix s).wanted n) ↔
      (ByteRange.suffix s).Readable n := by
  show _ ↔ n = 0 ∨ s.value < 2 ^ 63
  simp only [parseEnds, if_true, if_neg s.ne_nil, ByteRange.wanted]
  by_cases hs : s.value < 2 ^ 63
  · obtain ⟨v, hread, hv⟩ := s.stoll_of_lt hs
    simp only [hread, hv]
    refine iff_of_true ?_ (.inr hs)
    -- `-0` asks for no byte, and the source says that it cannot be satisfied.
    by_cases hzero : s.value = 0
    · rw [if_pos (by omega), if_neg (by omega)]
      exact rfl
    · rw [if_neg (by omega)]
      -- A suffix longer than the file is the whole file.
      have hstart : (if (n : Int) > s.value then (n : Int) - s.value else 0)
          = ((n - s.value : Nat) : Int) := by
        split <;> omega
      have hfit := fit_reports
        (r := { present := true, start := ((n - s.value : Nat) : Int), last := (n : Int) - 1 })
        (n := n) rfl rfl
      have hcond : (n - s.value < n ∧ ((n - s.value : Nat) : Int) ≤ (n : Int) - 1) ↔
          0 < s.value ∧ 0 < n := by omega
      have hlast : min ((n : Int) - 1).toNat (n - 1) = n - 1 := by omega
      simp only [hcond, hlast] at hfit
      rw [hstart]
      exact hfit
  · simp only [s.stoll_of_ge (Nat.le_of_not_lt hs)]
    -- `stoll` throws, and the range is reported as unsatisfiable.
    rw [reports_none_iff rfl, ite_eq_right_iff]
    constructor
    · intro hnone
      refine .inl ?_
      by_contra hn
      exact Option.some_ne_none _ (hnone (by omega))
    · intro hcond hpos
      omega

/-- What `parse_range` makes of a well-formed header. -/
theorem reports_iff (s : ByteRange) {n : Nat} (hn : n < 2 ^ 63) :
    (parseRange s.header n).Reports (s.wanted n) ↔ s.Readable n := by
  cases s with
  | between a b hab =>
    rw [ByteRange.header, parseRange_eq (dash_notMem a)]
    exact parseEnds_between a b hn hab
  | onward a =>
    rw [ByteRange.header, parseRange_eq (dash_notMem a)]
    exact iff_of_true (parseEnds_onward a hn) trivial
  | suffix s =>
    have hheader : (ByteRange.suffix s).header = bytes "bytes=" ++ ([] ++ 45 :: s.digits) := rfl
    rw [hheader, parseRange_eq List.not_mem_nil]
    exact parseEnds_suffix s

/-- A fitted range is as present as it was. -/
theorem fit_present (r : Range) (size : Int) : (r.fit size).present = r.present := by
  unfold Range.fit
  dsimp only
  split <;> split <;> rfl

/-- What `parse_range` says about the texts around a dash: it is left with a start and nothing
else, or with a range that it fits into the file. -/
theorem parseEnds_cases (a b : Bytes) (size : Int) :
    (∃ start, parseEnds a b size = { present := true, start := start }) ∨
      ∃ r : Range, r.present = true ∧ r.satisfiable = false ∧ parseEnds a b size = r.fit size := by
  simp only [parseEnds]
  by_cases ha : a = []
  · rw [if_pos ha]
    by_cases hb : b = []
    · exact .inl ⟨0, if_pos hb⟩
    · rw [if_neg hb]
      cases stoll b with
      | none => exact .inl ⟨0, rfl⟩
      | some n =>
        dsimp only
        split
        · exact .inl ⟨0, rfl⟩
        · exact .inr ⟨_, rfl, rfl, rfl⟩
  · rw [if_neg ha]
    cases stoll a with
    | none => exact .inl ⟨0, rfl⟩
    | some start =>
      dsimp only
      by_cases hb : b = []
      · rw [if_pos hb]
        exact .inr ⟨_, rfl, rfl, rfl⟩
      · rw [if_neg hb]
        cases stoll b with
        | none => exact .inl ⟨start.toInt, rfl⟩
        | some last => exact .inr ⟨_, rfl, rfl, rfl⟩

theorem parseEnds_present (a b : Bytes) (size : Int) : (parseEnds a b size).present = true := by
  rcases parseEnds_cases a b size with ⟨start, hends⟩ | ⟨r, hpresent, -, hends⟩
  · rw [hends]
  · rw [hends, fit_present, hpresent]

/-- A range that is satisfiable lies inside the file, whatever the header. -/
theorem inside_of_satisfiable {header : Bytes} {size : Int}
    (h : (parseRange header size).satisfiable = true) :
    0 ≤ (parseRange header size).start ∧
      (parseRange header size).start ≤ (parseRange header size).last ∧
      (parseRange header size).last < size := by
  have hends : ∀ a b, (parseEnds a b size).satisfiable = true →
      0 ≤ (parseEnds a b size).start ∧ (parseEnds a b size).start ≤ (parseEnds a b size).last ∧
        (parseEnds a b size).last < size := by
    intro a b h
    rcases parseEnds_cases a b size with ⟨start, hends⟩ | ⟨r, -, hfresh, hends⟩
    · rw [hends] at h
      cases h
    · rw [hends] at h ⊢
      exact inside_of_fit hfresh h
  simp only [parseRange] at h ⊢
  split at h
  · cases h
  · rename_i hprefix
    rw [if_neg hprefix]
    split at h
    · cases h
    · exact hends _ _ h

/-! ### What is sent -/

/-- Reading inside the file gives the bytes there. -/
theorem read_of_le {f : File} {start len : Nat} (h : start + len ≤ f.content.length) :
    f.read start len = substr f.content start len := by
  have hlength : (substr f.content start len).length = len := by
    rw [substr, List.length_take, List.length_drop]
    omega
  rw [File.read, hlength, Nat.sub_self]
  exact List.append_nil _

/-- The request reaches this file, without naming its entity tag. -/
structure Reaches (fs : Canonicalise) (files : Files) (root rel : Bytes)
    (headers : List (Bytes × Bytes)) (f : File) : Prop where
  resolved : safeResolve fs root rel ≠ []
  regular : files (safeResolve fs root rel) = some f
  unmatched : headerCi headers (bytes "If-None-Match") ≠ f.etag

section
variable {fs : Canonicalise} {files : Files} {root rel : Bytes} {headers : List (Bytes × Bytes)}
  {f : File} (opts : Options)

/-- The answer to a range is the part that `parse_range` reports, or `416`. -/
theorem serve_of_range (h : Reaches fs files root rel headers f)
    (hrange : headerCi headers (bytes "Range") ≠ [])
    (hpresent : (parseRange (headerCi headers (bytes "Range")) f.size).present = true) :
    serve fs files root rel headers opts =
      if (parseRange (headerCi headers (bytes "Range")) f.size).satisfiable then
        partialContent opts (safeResolve fs root rel) f
          (parseRange (headerCi headers (bytes "Range")) f.size)
      else rangeNotSatisfiable opts f := by
  simp only [serve, if_neg h.resolved, h.regular, if_neg h.unmatched, if_neg hrange, hpresent,
    Bool.true_and, Bool.not_eq_true']
  split
  · rename_i hnone
    rw [hnone, if_neg Bool.false_ne_true]
  · rename_i hsome
    rw [Bool.not_eq_false] at hsome
    rw [if_pos hsome, if_pos hsome]

/-- The bytes of a part that lies inside the file. -/
theorem partialContent_body {path : Bytes} {rg : Range} {i j : Nat} (hstart : rg.start = i)
    (hlast : rg.last = j) (hij : i ≤ j) (hj : j < f.content.length) :
    (partialContent opts path f rg).body = substr f.content i (j + 1 - i) := by
  have hlen : (rg.last - rg.start + 1).toNat = j + 1 - i := by omega
  show f.read rg.start.toNat (rg.last - rg.start + 1).toNat = _
  rw [hlen, hstart, Int.toNat_natCast, read_of_le (by omega)]

end

/-- What a well-formed header asks for is inside the file. -/
theorem wanted_inside {s : ByteRange} {n i j : Nat} (h : s.wanted n = some (i, j)) :
    i ≤ j ∧ j < n := by
  cases s with
  | between a b hab =>
    simp only [ByteRange.wanted, Option.ite_none_right_eq_some, Option.some.injEq,
      Prod.mk.injEq] at h
    omega
  | onward a =>
    simp only [ByteRange.wanted, Option.ite_none_right_eq_some, Option.some.injEq,
      Prod.mk.injEq] at h
    omega
  | suffix s =>
    simp only [ByteRange.wanted, Option.ite_none_right_eq_some, Option.some.injEq,
      Prod.mk.injEq] at h
    omega

/-- The law of ranges, for a header and a size: `parse_range` reports what the header asks for,
and `serve` sends exactly these bytes with `206`, or answers `416` where there are none; a part
that is sent lies inside the file. -/
structure RangeLaw (n : Nat) (s : ByteRange) : Prop where
  reported : (parseRange s.header n).present = true ∧
    (parseRange s.header n).Reports (s.wanted n)
  served : ∀ (fs : Canonicalise) (files : Files) (root rel : Bytes)
    (headers : List (Bytes × Bytes)) (opts : Options) (f : File),
    Reaches fs files root rel headers f → f.content.length = n →
    headerCi headers (bytes "Range") = s.header →
    match s.wanted n with
    | some (i, j) => (serve fs files root rel headers opts).status = 206 ∧
        (serve fs files root rel headers opts).body = substr f.content i (j + 1 - i)
    | none => (serve fs files root rel headers opts).status = 416
  inside : (parseRange s.header n).satisfiable = true →
    0 ≤ (parseRange s.header n).start ∧
      (parseRange s.header n).start ≤ (parseRange s.header n).last ∧
      (parseRange s.header n).last < n

theorem header_ne_nil (s : ByteRange) : s.header ≠ [] := by
  cases s <;> exact List.cons_ne_nil _ _

/-- A well-formed header is taken for a range. -/
theorem header_present (s : ByteRange) (size : Int) :
    (parseRange s.header size).present = true := by
  cases s with
  | between a b hab =>
    rw [ByteRange.header, parseRange_eq (dash_notMem a)]
    exact parseEnds_present _ _ _
  | onward a =>
    rw [ByteRange.header, parseRange_eq (dash_notMem a)]
    exact parseEnds_present _ _ _
  | suffix s =>
    have hheader : (ByteRange.suffix s).header = bytes "bytes=" ++ ([] ++ 45 :: s.digits) := rfl
    rw [hheader, parseRange_eq List.not_mem_nil]
    exact parseEnds_present _ _ _

/-- What is reported is what is sent. -/
theorem served_of_reports {s : ByteRange} {fs : Canonicalise} {files : Files} {root rel : Bytes}
    {headers : List (Bytes × Bytes)} {f : File} (opts : Options)
    (h : Reaches fs files root rel headers f)
    (hrange : headerCi headers (bytes "Range") = s.header)
    (hreports : (parseRange s.header f.size).Reports (s.wanted f.content.length)) :
    match s.wanted f.content.length with
    | some (i, j) => (serve fs files root rel headers opts).status = 206 ∧
        (serve fs files root rel headers opts).body = substr f.content i (j + 1 - i)
    | none => (serve fs files root rel headers opts).status = 416 := by
  have hserve := serve_of_range opts h (by rw [hrange]; exact header_ne_nil s)
    (by rw [hrange]; exact header_present s f.size)
  rw [hrange] at hserve
  cases hwanted : s.wanted f.content.length with
  | none =>
    rw [hwanted] at hreports
    have hnone : (parseRange s.header f.size).satisfiable = false := hreports
    rw [hserve, hnone, if_neg Bool.false_ne_true]
    rfl
  | some ij =>
    obtain ⟨i, j⟩ := ij
    rw [hwanted] at hreports
    obtain ⟨hsome, hstart, hlast⟩ := hreports
    obtain ⟨hij, hj⟩ := wanted_inside hwanted
    rw [hserve, if_pos hsome]
    exact ⟨rfl, partialContent_body opts hstart hlast hij hj⟩

/-- **Ranges, for numerals that can be read.** For every size below `2 ^ 63` and every
well-formed header with one range, of numerals of any length: `parse_range` reports exactly the
bytes that the header asks for, and `serve` sends exactly these or answers `416`, if and only if
the start lies behind the file or the number after the dash is below `2 ^ 63`. -/
theorem range_law_iff (n : Nat) (hn : n < 2 ^ 63) (s : ByteRange) :
    RangeLaw n s ↔ s.Readable n := by
  constructor
  · intro hlaw
    exact (reports_iff s hn).mp hlaw.reported.2
  · intro hreadable
    have hreports := (reports_iff s hn).mpr hreadable
    exact
      { reported := ⟨header_present s n, hreports⟩
        served := by
          intro fs files root rel headers opts f hreaches hlength hrange
          subst hlength
          exact served_of_reports opts hreaches hrange hreports
        inside := inside_of_satisfiable }

/-- The first ten bytes and more of a file of four. -/
theorem range_law_iff_applies :
    RangeLaw 4 (.between (natNumeral 0) (natNumeral 9) (by decide)) :=
  (range_law_iff 4 (by decide) _).mpr (.inr (by decide))

/-- `bytes=0-9223372036854775808` asks for the whole of a file of four bytes, and is answered
as if it asked for nothing. -/
theorem large_end_is_unsatisfiable :
    ¬ RangeLaw 4 (.between (natNumeral 0) (natNumeral (2 ^ 63)) (by decide)) := by
  intro hlaw
  have hreports := (reports_iff _ (by decide)).mp hlaw.reported.2
  have hunread : ¬ ByteRange.Readable 4
      (.between (natNumeral 0) (natNumeral (2 ^ 63)) (by decide)) := by
    show ¬ (4 ≤ (natNumeral 0).value ∨ (natNumeral (2 ^ 63)).value < 2 ^ 63)
    decide
  exact hunread hreports

end CppLaravel.StaticFiles
