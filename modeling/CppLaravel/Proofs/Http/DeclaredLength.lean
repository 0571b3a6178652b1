import CppLaravel.Proofs.Http.Framing

/-!
# `CppLaravel.Proofs.Http.DeclaredLength`: what a declared length is good for

A Content-Length of decimal digits writes a natural number of any size. `read_request` is to refuse
the request when the number exceeds the limit, and to wait for so many bytes otherwise
(`HonoursLength`). The number goes through `std::strtoull` and an `optional` with a default, and the
end of the body through a sum of sizes.

* `readRequest_of_completes`: from the chunk on that completes the header block, the loop refuses,
  or waits for `completeAt`.
* `honoursLength_iff`: the length is honoured exactly when it is `0`, or fits 64 bits and is refused
  or has an end that fits them too.
* `unrepresentable_length_is_empty`: one more than the largest `std::size_t` is read as `0`.
-/

set_option autoImplicit false

namespace CppLaravel.Http

open CppLaravel.Lib

/-- The text of a header block: its blank line is the first one. -/
def IsHeaderBlock (head : Bytes) : Prop := find (head ++ blankLine) blankLine 0 = some head.length

/-- The Content-Length is a nonempty string of digits that writes `n`, and there is no chunked
coding. -/
structure Declares (head : Bytes) (n : Nat) : Prop where
  digits : ∃ v, headerValue head (bytes "content-length") = some v ∧ v ≠ [] ∧ v.all isDigit ∧
    digitsValue v = n
  not_chunked : hasChunkedBody head = false

/-- With the chunk `c` on top of `p` the header block `head` is complete, and until then its limit
was not passed. -/
structure Completes (limits : Limits) (head p c : Bytes) : Prop where
  open_before : find p blankLine 0 = none
  within_before : p.length ≤ limits.maxHeaderBytes
  found : find (p ++ c) blankLine 0 = some head.length
  head_eq : (p ++ c).take head.length = head
  within : head.length ≤ limits.maxHeaderBytes

/-- Waits until there are `need` bytes. -/
def waitFor (need : Nat) (p : Bytes) : List Bytes → ReadResult
  | [] => if need ≤ p.length then ⟨.ok, p⟩ else ⟨.closed, p⟩
  | c :: cs => if need ≤ p.length then ⟨.ok, p⟩ else waitFor need (p ++ c) cs

/-- In every run in which the header block gets complete, the request is refused for its size if and
only if the declared length exceeds the limit, and otherwise the read waits for exactly so many
bytes behind the blank line. -/
def HonoursLength (limits : Limits) (head : Bytes) (n : Nat) : Prop :=
  ∀ before c rest b, Cut 4096 b (before ++ c :: rest) →
    Completes limits head before.flatten c →
      ((readRequest limits (before ++ c :: rest)).status = .bodyTooLarge ↔
        limits.maxBodyBytes < n) ∧
      (n ≤ limits.maxBodyBytes → readRequest limits (before ++ c :: rest)
        = waitFor (head.length + 4 + n) (before.flatten ++ c) rest)

/-! ### Waiting -/

/-- What is there is enough. -/
theorem waitFor_of_le {need : Nat} {p : Bytes} (h : need ≤ p.length) (cs : List Bytes) :
    waitFor need p cs = ⟨.ok, p⟩ := by
  cases cs with
  | nil => exact if_pos h
  | cons c cs => exact if_pos h

/-- Waiting never ends in a refusal. -/
theorem waitFor_status_ne (need : Nat) (p : Bytes) (cs : List Bytes) :
    (waitFor need p cs).status ≠ .bodyTooLarge := by
  induction cs generalizing p with
  | nil =>
    unfold waitFor
    split <;> simp
  | cons c cs ih =>
    unfold waitFor
    split
    · simp
    · exact ih (p ++ c)

section Completed

variable {limits : Limits} {head p c : Bytes}

/-- What arrives later leaves the header block as it is. -/
theorem Completes.later (h : Completes limits head p c) {q : Bytes} (hq : p ++ c <+: q) :
    firstAt blankLine q = some head.length ∧ q.take head.length = head := by
  obtain ⟨s, rfl⟩ := hq
  have hfound : firstAt blankLine (p ++ c) = some head.length := (find_zero _ _).symm.trans h.found
  have hle := firstAt_length_le hfound
  refine ⟨firstAt_append hfound, ?_⟩
  rw [List.take_append_of_le_length (by omega), h.head_eq]

/-- While the header block is not complete nothing is decided. -/
theorem Completes.judge_before (h : Completes limits head p c) {q : Bytes} (hq : q <+: p) :
    judge limits q = none := by
  have hnone : firstAt blankLine q = none := by
    cases hpos : firstAt blankLine q with
    | none => rfl
    | some pos =>
      obtain ⟨s, rfl⟩ := hq
      have hfound := firstAt_append (t := s) hpos
      rw [← find_zero, h.open_before] at hfound
      cases hfound
  have hwithin := h.within_before
  have hle := hq.length_le
  rw [judge_of_none hnone, if_neg (by omega)]

/-- Behind an accepted head the first verdict comes when the size is reached. -/
theorem Completes.waits (h : Completes limits head p c) (hverdict : headVerdict limits head = none)
    {q : Bytes} (hq : p ++ c <+: q) (cs : List Bytes) :
    ((judge limits q).or (firstVerdict (judge limits) q cs)).getD ⟨.closed, q ++ cs.flatten⟩
      = waitFor (completeAt head) q cs := by
  have hjudge : ∀ q, p ++ c <+: q →
      judge limits q = if completeAt head ≤ q.length then some ⟨.ok, q⟩ else none := by
    intro q hq
    obtain ⟨hpos, htake⟩ := h.later hq
    rw [judge_of_accepted hpos (by rw [htake]; exact hverdict), htake]
  -- On the chunks that are still to come.
  induction cs generalizing q with
  | nil =>
    rw [hjudge q hq]
    unfold waitFor
    split <;> simp [firstVerdict]
  | cons d cs ih =>
    rw [hjudge q hq]
    unfold waitFor
    split
    · simp
    · rw [Option.none_or, firstVerdict, List.flatten_cons, ← List.append_assoc]
      exact ih (hq.trans (List.prefix_append q d))

/-- **From the end of the header block on** the loop refuses the request for its head, or waits for
the end of the body as it computes it. -/
theorem readRequest_of_completes {before rest : List Bytes} {b : Bytes}
    (hcut : Cut 4096 b (before ++ c :: rest)) (h : Completes limits head before.flatten c) :
    readRequest limits (before ++ c :: rest) =
      match headVerdict limits head with
      | some status => ⟨status, before.flatten ++ c⟩
      | none => waitFor (completeAt head) (before.flatten ++ c) rest := by
  have hopen : firstVerdict (judge limits) [] before = none := by
    cases hv : firstVerdict (judge limits) [] before with
    | none => rfl
    | some v =>
      obtain ⟨q, -, hq, hjudge⟩ := judge_of_firstVerdict hv
      rw [h.judge_before hq] at hjudge
      cases hjudge
  have hb : b = before.flatten ++ c ++ rest.flatten := by
    rw [← hcut.1, List.flatten_append, List.flatten_cons, List.append_assoc]
  have hself : before.flatten ++ c <+: before.flatten ++ c := List.prefix_refl _
  rw [readRequest_eq limits hcut, firstVerdict_append, hopen, Option.none_or, List.nil_append,
    firstVerdict, hb]
  cases hverdict : headVerdict limits head with
  | none => exact h.waits hverdict hself rest
  | some status =>
    obtain ⟨hpos, htake⟩ := h.later hself
    rw [judge_of_refused hpos (by rw [htake]; exact hverdict)]
    rfl

end Completed

/-! ### The length as the loop has it -/

section Declared

variable {limits : Limits} {head : Bytes} {n : Nat}

theorem Declares.declaredLength (h : Declares head n) : declaredLength head = n := by
  obtain ⟨v, hv, hne, hdigits, rfl⟩ := h.digits
  unfold Http.declaredLength
  simp only [hv, if_pos (And.intro hne hdigits)]

/-- The head is accepted unless the parsed length exceeds the limit. -/
theorem Declares.headVerdict (h : Declares head n) (hwithin : head.length ≤ limits.maxHeaderBytes) :
    headVerdict limits head =
      if limits.maxBodyBytes < (if n < 2 ^ 64 then n else 0) then some .bodyTooLarge
      else none := by
  unfold Http.headVerdict
  rw [if_neg (by omega), h.not_chunked, parseContentLength_getD, h.declaredLength]
  rfl

theorem Declares.completeAt (h : Declares head n) :
    completeAt head = (head.length + 4 + if n < 2 ^ 64 then n else 0) % 2 ^ 64 := by
  unfold Http.completeAt
  rw [parseContentLength_getD, h.declaredLength]

/-- A length whose end is a size is honoured. -/
theorem Declares.honoured (h : Declares head n)
    (hfits : n = 0 ∨ n < 2 ^ 64 ∧ (limits.maxBodyBytes < n ∨ head.length + 4 + n < 2 ^ 64)) :
    HonoursLength limits head n := by
  intro before c rest b hcut hcompletes
  have hread := readRequest_of_completes hcut hcompletes
  have hparsed : (if n < 2 ^ 64 then n else 0) = n := by
    split <;> omega
  rw [h.headVerdict hcompletes.within, hparsed] at hread
  by_cases hlarge : limits.maxBodyBytes < n
  · rw [if_pos hlarge] at hread
    rw [hread]
    exact ⟨by simp [hlarge], fun hle => absurd hlarge (by omega)⟩
  · rw [if_neg hlarge, h.completeAt, hparsed] at hread
    have hneed : waitFor ((head.length + 4 + n) % 2 ^ 64) (before.flatten ++ c) rest
        = waitFor (head.length + 4 + n) (before.flatten ++ c) rest := by
      rcases hfits with rfl | ⟨-, hlt | hlt⟩
      · -- An empty body is complete with the blank line, whatever the sum is.
        obtain ⟨hpos, -⟩ := hcompletes.later (List.prefix_refl _)
        have hle := firstAt_length_le hpos
        have hfour : blankLine.length = 4 := rfl
        rw [waitFor_of_le (by omega), waitFor_of_le (by omega)]
      · exact absurd hlt hlarge
      · rw [Nat.mod_eq_of_lt hlt]
    rw [hread]
    exact ⟨by simp [hlarge, waitFor_status_ne], fun _ => hneed⟩

/-- The run in which a header block arrives byte by byte, and its blank line at once. -/
theorem completes_of_isHeaderBlock (hhead : IsHeaderBlock head)
    (hwithin : head.length ≤ limits.maxHeaderBytes) :
    Cut 4096 (head ++ blankLine) (head.map List.singleton ++ [blankLine]) ∧
      Completes limits head (head.map List.singleton).flatten blankLine := by
  have hflat := flatten_singletons head
  refine ⟨⟨by simp [hflat], fun d hd => ?_⟩, ?_⟩
  · rcases List.mem_append.mp hd with hd | hd
    · exact (cut_singletons head (by omega)).2 d hd
    · obtain rfl := List.mem_singleton.mp hd
      exact ⟨by decide, by decide⟩
  · rw [hflat]
    exact {
      open_before := by
        rw [find_zero]
        cases hpos : firstAt blankLine head with
        | none => rfl
        | some pos =>
          have hle := firstAt_length_le hpos
          have hsame := firstAt_append (t := blankLine) hpos
          rw [← find_zero] at hsame
          obtain rfl := Option.some.inj (hhead.symm.trans hsame)
          have hfour : blankLine.length = 4 := rfl
          omega
      within_before := hwithin
      found := hhead
      head_eq := List.take_left
      within := hwithin }

/-- A length whose end is no size is not. -/
theorem Declares.not_honoured (h : Declares head n) (hhead : IsHeaderBlock head)
    (hwithin : head.length ≤ limits.maxHeaderBytes) (hpos : 0 < n)
    (hlarge : 2 ^ 64 ≤ n ∨ n ≤ limits.maxBodyBytes ∧ 2 ^ 64 ≤ head.length + 4 + n) :
    ¬ HonoursLength limits head n := by
  intro hhonours
  obtain ⟨hcut, hcompletes⟩ := completes_of_isHeaderBlock hhead hwithin
  obtain ⟨hrefused, hwaits⟩ := hhonours _ _ _ _ hcut hcompletes
  have hread := readRequest_of_completes hcut hcompletes
  have hlen : (head ++ blankLine).length = head.length + 4 := List.length_append
  have haccepted : ¬ limits.maxBodyBytes < (if n < 2 ^ 64 then n else 0) := by
    split <;> omega
  have hearly : (head.length + 4 + if n < 2 ^ 64 then n else 0) % 2 ^ 64 ≤ head.length + 4 := by
    split <;> omega
  rw [h.headVerdict hwithin, if_neg haccepted, h.completeAt, flatten_singletons] at hread
  -- The read ends with the blank line, and no byte of the body.
  have hdone : readRequest limits (head.map List.singleton ++ [blankLine])
      = ⟨.ok, head ++ blankLine⟩ := by
    rw [hread]
    exact waitFor_of_le (by omega) []
  rw [hdone] at hrefused hwaits
  by_cases hle : n ≤ limits.maxBodyBytes
  · have hclosed := hwaits hle
    rw [flatten_singletons, waitFor, if_neg (by omega)] at hclosed
    cases hclosed
  · cases hrefused.mpr (by omega)

end Declared

/-- **Exactly the lengths whose end is a size are honoured**, apart from those that are refused. -/
theorem honoursLength_iff (limits : Limits) {head : Bytes} {n : Nat} (hhead : IsHeaderBlock head)
    (hwithin : head.length ≤ limits.maxHeaderBytes) (h : Declares head n) :
    HonoursLength limits head n ↔
      n = 0 ∨ n < 2 ^ 64 ∧ (limits.maxBodyBytes < n ∨ head.length + 4 + n < 2 ^ 64) := by
  refine ⟨fun hhonours => ?_, h.honoured⟩
  by_contra hnot
  exact h.not_honoured hhead hwithin (by omega) (by omega) hhonours

/-- A header block that declares the number. -/
def declaring (digits : Bytes) : Bytes := bytes "POST / HTTP/1.1\r\nContent-Length: " ++ digits

theorem honoursLength_iff_applies : HonoursLength {} (declaring (bytes "20000000")) 20000000 :=
  (honoursLength_iff {} (by unfold IsHeaderBlock; decide) (by decide)
    ⟨⟨bytes "20000000", by decide, by decide, by decide, by decide⟩,
      by decide⟩).mpr (by decide)

/-- **A length that does not fit is read as `0`**: the request is accepted, without a body. -/
theorem unrepresentable_length_is_empty :
    (IsHeaderBlock (declaring (bytes "18446744073709551616")) ∧
      Declares (declaring (bytes "18446744073709551616")) (2 ^ 64)) ∧
    (readRequest {} [declaring (bytes "18446744073709551616") ++ blankLine]).status = .ok ∧
    ¬ HonoursLength {} (declaring (bytes "18446744073709551616")) (2 ^ 64) := by
  have hhead : IsHeaderBlock (declaring (bytes "18446744073709551616")) := by
    unfold IsHeaderBlock
    decide
  have hdeclares : Declares (declaring (bytes "18446744073709551616")) (2 ^ 64) :=
    ⟨⟨bytes "18446744073709551616", by decide, by decide, by decide, by decide⟩,
      by decide⟩
  refine ⟨⟨hhead, hdeclares⟩, ?_, ?_⟩
  · decide
  · exact hdeclares.not_honoured hhead (by decide) (by decide) (by decide)

end CppLaravel.Http
