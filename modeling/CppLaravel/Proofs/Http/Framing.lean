import CppLaravel.Http.ReadRequest
import CppLaravel.Lib.Chunks

/-!
# `CppLaravel.Proofs.Http.Framing`: when a request does not depend on its chunks

`read_request` decides on whatever has accumulated when a chunk arrives. `judge` is that
decision as a function of the bytes alone, and `readRequest_eq` says that the loop gives the
first verdict of `judge` on what has accumulated.

* `cutFree_iff`: the outcome is the same for every cut of a stream, and the body of a request
  is what its Content-Length declares, if and only if the stream is `Unambiguous`: its header
  block does not end within three bytes of the limit, and nothing follows the body.
* `pipelined_bytes_join_the_body`: bytes that follow a complete request in the same chunk
  become part of its body.
-/

set_option autoImplicit false

namespace CppLaravel.Http

open CppLaravel.Lib

/-! ### The decision as a function of the bytes -/

/-- The refusal of a complete header block, if it is refused. -/
def headVerdict (limits : Limits) (head : Bytes) : Option ReadStatus :=
  if limits.maxHeaderBytes < head.length then some .headerTooLarge
  else if hasChunkedBody head then some .lengthRequired
  else if limits.maxBodyBytes < (parseContentLength head).getD 0 then some .bodyTooLarge
  else none

theorem headVerdict_ne_ok (limits : Limits) (head : Bytes) :
    headVerdict limits head ≠ some .ok := by
  unfold headVerdict
  split_ifs <;> simp

/-- The size at which a request with the header block `head` is complete. -/
def completeAt (head : Bytes) : Nat :=
  (head.length + 4 + (parseContentLength head).getD 0) % 2 ^ 64

/-- The decision on the bytes `p`, if there is one. -/
def judge (limits : Limits) (p : Bytes) : Option ReadResult :=
  match firstAt blankLine p with
  | none => if limits.maxHeaderBytes < p.length then some ⟨.headerTooLarge, p⟩ else none
  | some pos =>
    match headVerdict limits (p.take pos) with
    | some status => some ⟨status, p⟩
    | none => if completeAt (p.take pos) ≤ p.length then some ⟨.ok, p⟩ else none

/-- Without a blank line only the limit decides. -/
theorem judge_of_none {limits : Limits} {p : Bytes} (h : firstAt blankLine p = none) :
    judge limits p
      = if limits.maxHeaderBytes < p.length then some ⟨.headerTooLarge, p⟩ else none := by
  simp only [judge, h]

/-- A refused head decides at once. -/
theorem judge_of_refused {limits : Limits} {p : Bytes} {pos : Nat} {status : ReadStatus}
    (hpos : firstAt blankLine p = some pos)
    (hverdict : headVerdict limits (p.take pos) = some status) :
    judge limits p = some ⟨status, p⟩ := by
  simp only [judge, hpos, hverdict]

/-- Behind an accepted head the size decides. -/
theorem judge_of_accepted {limits : Limits} {p : Bytes} {pos : Nat}
    (hpos : firstAt blankLine p = some pos)
    (hverdict : headVerdict limits (p.take pos) = none) :
    judge limits p = if completeAt (p.take pos) ≤ p.length then some ⟨.ok, p⟩ else none := by
  simp only [judge, hpos, hverdict]

/-- The locals of the loop after the bytes `p`, on which there was no decision. -/
def Reads (limits : Limits) (p : Bytes) (r : Reading) : Prop :=
  r.data = p ∧
    if r.haveHeaders then
      ∃ pos, firstAt blankLine p = some pos ∧ headVerdict limits (p.take pos) = none ∧
        r.headerEnd = pos + 4 ∧ r.contentLength = (parseContentLength (p.take pos)).getD 0
    else firstAt blankLine p = none

theorem length_take_of_firstAt {p : Bytes} {pos : Nat} (h : firstAt blankLine p = some pos) :
    (p.take pos).length = pos := by
  have := firstAt_length_le h
  rw [List.length_take]
  omega

/-- With its header block accepted, the loop waits for the end of the body. -/
theorem awaitBody_spec (limits : Limits) {p : Bytes} {pos : Nat} {r : Reading}
    (hdata : r.data = p) (hhave : r.haveHeaders = true) (hpos : firstAt blankLine p = some pos)
    (hhead : headVerdict limits (p.take pos) = none) (hend : r.headerEnd = pos + 4)
    (hlen : r.contentLength = (parseContentLength (p.take pos)).getD 0) :
    (∃ v, judge limits p = some v ∧ awaitBody r = .error v) ∨
      (judge limits p = none ∧ awaitBody r = .ok r ∧ Reads limits p r) := by
  have hcomplete : (r.headerEnd + r.contentLength) % 2 ^ 64 = completeAt (p.take pos) := by
    rw [completeAt, length_take_of_firstAt hpos, hend, hlen]
  unfold awaitBody
  rw [hcomplete, hdata, judge_of_accepted hpos hhead]
  by_cases hle : completeAt (p.take pos) ≤ p.length
  · exact .inl ⟨_, if_pos hle, if_pos hle⟩
  · refine .inr ⟨if_neg hle, if_neg hle, hdata, ?_⟩
    rw [hhave]
    exact ⟨pos, hpos, hhead, hend, hlen⟩

/-- The loop body once the header block was found. -/
theorem readChunk_of_haveHeaders {limits : Limits} {r : Reading} (h : r.haveHeaders = true)
    (buf : Bytes) : readChunk limits r buf = awaitBody { r with data := r.data ++ buf } :=
  if_pos h

/-- The loop body while there is no blank line. -/
theorem readChunk_of_none {limits : Limits} {r : Reading} {buf : Bytes}
    (h : r.haveHeaders = false) (hpos : firstAt blankLine (r.data ++ buf) = none) :
    readChunk limits r buf =
      if limits.maxHeaderBytes < (r.data ++ buf).length then
        .error ⟨.headerTooLarge, r.data ++ buf⟩
      else .ok { r with data := r.data ++ buf } := by
  unfold readChunk
  simp only [h, Bool.false_eq_true, if_false, find_zero, hpos]

/-- The loop body when the blank line arrives. -/
theorem readChunk_of_some {limits : Limits} {r : Reading} {buf : Bytes} {pos : Nat}
    (h : r.haveHeaders = false) (hpos : firstAt blankLine (r.data ++ buf) = some pos) :
    readChunk limits r buf =
      match headVerdict limits ((r.data ++ buf).take pos) with
      | some status => .error ⟨status, r.data ++ buf⟩
      | none => awaitBody ⟨r.data ++ buf, true, pos + 4,
          (parseContentLength ((r.data ++ buf).take pos)).getD 0⟩ := by
  unfold readChunk headVerdict
  simp only [h, Bool.false_eq_true, if_false, find_zero, hpos, substr, List.drop_zero]
  split_ifs <;> rfl

/-- **One round of the loop** gives the decision on the bytes so far, or goes on with the
locals they leave. -/
theorem readChunk_spec {limits : Limits} {p : Bytes} {r : Reading} (h : Reads limits p r)
    (buf : Bytes) :
    (∃ v, judge limits (p ++ buf) = some v ∧ readChunk limits r buf = .error v) ∨
      (judge limits (p ++ buf) = none ∧
        ∃ r', readChunk limits r buf = .ok r' ∧ Reads limits (p ++ buf) r') := by
  obtain ⟨rfl, hstate⟩ := h
  cases hhave : r.haveHeaders with
  | true =>
    rw [hhave, if_pos rfl] at hstate
    obtain ⟨pos, hpos, hhead, hend, hlen⟩ := hstate
    -- The header block that was found stays the first one.
    have hle := firstAt_length_le hpos
    have htake : (r.data ++ buf).take pos = r.data.take pos :=
      List.take_append_of_le_length (by omega)
    rw [readChunk_of_haveHeaders hhave]
    rcases awaitBody_spec limits (r := { r with data := r.data ++ buf }) rfl hhave
      (firstAt_append hpos) (by rw [htake]; exact hhead) hend (by rw [htake]; exact hlen) with
      hdone | ⟨hopen, hok, hreads⟩
    · exact .inl hdone
    · exact .inr ⟨hopen, _, hok, hreads⟩
  | false =>
    cases hpos : firstAt blankLine (r.data ++ buf) with
    | none =>
      rw [judge_of_none hpos, readChunk_of_none hhave hpos]
      -- Still no blank line: the whole buffer counts against the limit.
      by_cases hlarge : limits.maxHeaderBytes < (r.data ++ buf).length
      · exact .inl ⟨_, if_pos hlarge, if_pos hlarge⟩
      · refine .inr ⟨if_neg hlarge, _, if_neg hlarge, rfl, ?_⟩
        rw [hhave]
        exact hpos
    | some pos =>
      rw [readChunk_of_some hhave hpos]
      cases hverdict : headVerdict limits ((r.data ++ buf).take pos) with
      | some status => exact .inl ⟨_, judge_of_refused hpos hverdict, rfl⟩
      | none =>
        rcases awaitBody_spec limits (r := ⟨r.data ++ buf, true, pos + 4,
          (parseContentLength ((r.data ++ buf).take pos)).getD 0⟩) rfl rfl hpos hverdict rfl rfl
          with hdone | ⟨hopen, hok, hreads⟩
        · exact .inl hdone
        · exact .inr ⟨hopen, _, hok, hreads⟩

/-- The loop gives the first verdict on what has accumulated. -/
theorem readLoop_eq {limits : Limits} {p : Bytes} {r : Reading} (h : Reads limits p r)
    {cs : List Bytes} (hcs : ∀ c ∈ cs, c ≠ []) :
    readLoop limits r cs = (firstVerdict (judge limits) p cs).getD ⟨.closed, p ++ cs.flatten⟩ := by
  -- On the chunks; `Reads` is the invariant of the loop.
  induction cs generalizing p r with
  | nil =>
    rw [readLoop, h.1, firstVerdict, List.flatten_nil, List.append_nil]
    rfl
  | cons c cs ih =>
    have hc : c ≠ [] := hcs c (List.mem_cons_self ..)
    have hcs' : ∀ d ∈ cs, d ≠ [] := fun d hd => hcs d (List.mem_cons_of_mem _ hd)
    rw [readLoop, if_neg hc, firstVerdict]
    rcases readChunk_spec h c with ⟨v, hv, hread⟩ | ⟨hopen, r', hread, hreads⟩
    · rw [hread, hv]
      rfl
    · rw [hread, hopen, Option.none_or, List.flatten_cons, ← List.append_assoc]
      exact ih hreads hcs'

/-- **`read_request` as a function of the chunks.** -/
theorem readRequest_eq (limits : Limits) {b : Bytes} {cs : List Bytes} (hcut : Cut 4096 b cs) :
    readRequest limits cs = (firstVerdict (judge limits) [] cs).getD ⟨.closed, b⟩ := by
  have hreads : Reads limits [] {} := ⟨rfl, rfl⟩
  have heq := readLoop_eq hreads fun c hc => (hcut.2 c hc).1
  rw [List.nil_append, hcut.1] at heq
  exact heq

/-! ### Streams whose cuts do not matter -/

/-- The natural number that the Content-Length of a header block writes, of any size; `0`
without one, or when it is not a number. -/
def declaredLength (head : Bytes) : Nat :=
  match headerValue head (bytes "content-length") with
  | none => 0
  | some v => if v ≠ [] ∧ v.all isDigit then digitsValue v else 0

/-- The outcome of a stream does not depend on the chunks it arrives in, and the body of a
request is as many of the bytes behind the blank line as its Content-Length declares. -/
def CutFree (limits : Limits) (b : Bytes) : Prop :=
  (∀ cs cs', Cut 4096 b cs → Cut 4096 b cs' → outcome limits cs = outcome limits cs') ∧
    ∀ cs, Cut 4096 b cs → ∀ req, outcome limits cs = (.ok, some req) →
      ∃ pos, find b blankLine 0 = some pos ∧ req.body <+: b.drop (pos + 4) ∧
        req.body.length = declaredLength (b.take pos)

/-- A header block that ends at `pos` is longer than the limit, or ends more than three bytes
below it; and unless the request is refused for its head, nothing follows its body, whose
end is a 64-bit size. -/
def Unambiguous (limits : Limits) (b : Bytes) : Prop :=
  ∀ pos, find b blankLine 0 = some pos →
    limits.maxHeaderBytes < pos ∨
      (pos + 3 ≤ limits.maxHeaderBytes ∧
        (hasChunkedBody (b.take pos) = true ∨
          limits.maxBodyBytes < (parseContentLength (b.take pos)).getD 0 ∨
          splitRequestLine (requestLine (b.take pos)) = none ∨
          (b.length ≤ pos + 4 + declaredLength (b.take pos) ∧
            (declaredLength (b.take pos) = 0 ∨
              pos + 4 + declaredLength (b.take pos) < 2 ^ 64))))

/-- The parsed length is the declared one, unless that does not fit 64 bits. -/
theorem parseContentLength_getD (head : Bytes) :
    (parseContentLength head).getD 0 = if declaredLength head < 2 ^ 64 then declaredLength head
      else 0 := by
  unfold parseContentLength declaredLength
  cases headerValue head (bytes "content-length") with
  | none => rfl
  | some v =>
    by_cases hnil : v = []
    · simp [hnil]
    · by_cases hdigits : v.all isDigit = true
      · have hdeclared : v ≠ [] ∧ v.all isDigit = true := ⟨hnil, hdigits⟩
        simp only [if_neg hnil, if_pos hdigits, if_pos hdeclared]
        by_cases hfits : digitsValue v < 2 ^ 64
        · rw [if_pos hfits, if_pos hfits]
          rfl
        · rw [if_neg hfits, if_neg hfits]
          rfl
      · simp [hnil, hdigits]

/-- What the handler's parser makes of bytes with a complete header block. -/
theorem parseHttpRequest_body {raw : Bytes} {pos : Nat} (hpos : firstAt blankLine raw = some pos)
    {req : Request} (h : parseHttpRequest raw = some req) : req.body = raw.drop (pos + 4) := by
  have hbody : bodyOf raw = raw.drop (pos + 4) := by
    unfold bodyOf
    rw [find_zero, hpos]
  unfold parseHttpRequest at h
  split at h
  · cases h
  · cases h
    exact hbody

theorem parseHttpRequest_eq_none_iff {raw : Bytes} {pos : Nat}
    (hpos : firstAt blankLine raw = some pos) :
    parseHttpRequest raw = none ↔ splitRequestLine (requestLine (raw.take pos)) = none := by
  have hhead : headOf raw = raw.take pos := by
    unfold headOf
    rw [find_zero, hpos]
    exact congrArg _ (List.drop_zero)
  unfold parseHttpRequest
  rw [hhead]
  cases splitRequestLine (requestLine (raw.take pos)) with
  | none => simp
  | some p => simp

/-! ### The decision on a prefix of a stream -/

section Prefix

variable {limits : Limits} {b : Bytes} {pos n : Nat}

theorem length_take_of_le (hnb : n ≤ b.length) : (b.take n).length = n := by
  rw [List.length_take]
  omega

/-- Before the blank line is complete, only the limit decides. -/
theorem judge_take_of_lt (hpos : firstAt blankLine b = some pos) (hn : n < pos + 4) :
    judge limits (b.take n) =
      if limits.maxHeaderBytes < n then some ⟨.headerTooLarge, b.take n⟩ else none := by
  have hle := firstAt_length_le hpos
  have hlen : blankLine.length = 4 := rfl
  have hnone : firstAt blankLine (b.take n) = none := by
    cases h : firstAt blankLine (b.take n) with
    | none => rfl
    | some pos' =>
      obtain ⟨hpos', hin⟩ := (firstAt_take_iff (by omega)).mp h
      rw [hpos, Option.some.injEq] at hpos'
      omega
  rw [judge_of_none hnone, length_take_of_le (by omega)]

/-- A prefix with the blank line has the head of the stream. -/
theorem firstAt_take (hpos : firstAt blankLine b = some pos) (hn : pos + 4 ≤ n)
    (hnb : n ≤ b.length) : firstAt blankLine (b.take n) = some pos :=
  (firstAt_take_iff hnb).mpr ⟨hpos, hn⟩

theorem take_take_of_le (hn : pos + 4 ≤ n) : (b.take n).take pos = b.take pos := by
  rw [List.take_take, Nat.min_eq_left (by omega)]

/-- From the blank line on a refused head decides. -/
theorem judge_take_of_refused {status : ReadStatus} (hpos : firstAt blankLine b = some pos)
    (hverdict : headVerdict limits (b.take pos) = some status) (hn : pos + 4 ≤ n)
    (hnb : n ≤ b.length) : judge limits (b.take n) = some ⟨status, b.take n⟩ :=
  judge_of_refused (firstAt_take hpos hn hnb) ((take_take_of_le hn).symm ▸ hverdict)

/-- Behind an accepted head the size of the prefix decides. -/
theorem judge_take_of_accepted (hpos : firstAt blankLine b = some pos)
    (hverdict : headVerdict limits (b.take pos) = none) (hn : pos + 4 ≤ n)
    (hnb : n ≤ b.length) :
    judge limits (b.take n)
      = if completeAt (b.take pos) ≤ n then some ⟨.ok, b.take n⟩ else none := by
  have hverdict' : headVerdict limits ((b.take n).take pos) = none :=
    (take_take_of_le hn).symm ▸ hverdict
  rw [judge_of_accepted (firstAt_take hpos hn hnb) hverdict', take_take_of_le hn,
    length_take_of_le hnb]

theorem completeAt_take (hpos : firstAt blankLine b = some pos) :
    completeAt (b.take pos) = (pos + 4 + (parseContentLength (b.take pos)).getD 0) % 2 ^ 64 := by
  rw [completeAt, length_take_of_firstAt hpos]

/-- When the declared end of the body is a size, the request is complete from there on. -/
theorem completeAt_le_iff (hpos : firstAt blankLine b = some pos)
    (hfits : declaredLength (b.take pos) = 0 ∨
      pos + 4 + declaredLength (b.take pos) < 2 ^ 64) (hn : pos + 4 ≤ n) :
    completeAt (b.take pos) ≤ n ↔ pos + 4 + declaredLength (b.take pos) ≤ n := by
  rw [completeAt_take hpos, parseContentLength_getD]
  split <;> omega

/-- A head over the limit is refused for its size. -/
theorem headVerdict_of_lt (hpos : firstAt blankLine b = some pos)
    (hlt : limits.maxHeaderBytes < pos) :
    headVerdict limits (b.take pos) = some .headerTooLarge := by
  unfold headVerdict
  rw [length_take_of_firstAt hpos, if_pos hlt]

/-- A head within the limit is not refused for its size. -/
theorem headVerdict_ne_headerTooLarge (hpos : firstAt blankLine b = some pos)
    (hle : pos ≤ limits.maxHeaderBytes) :
    headVerdict limits (b.take pos) ≠ some .headerTooLarge := by
  unfold headVerdict
  rw [length_take_of_firstAt hpos, if_neg (by omega)]
  split_ifs <;> simp

/-- A head within the limit is accepted unless its body is chunked or too large. -/
theorem headVerdict_eq_none_iff (hpos : firstAt blankLine b = some pos)
    (hle : pos ≤ limits.maxHeaderBytes) :
    headVerdict limits (b.take pos) = none ↔
      ¬ hasChunkedBody (b.take pos) = true ∧
        ¬ limits.maxBodyBytes < (parseContentLength (b.take pos)).getD 0 := by
  unfold headVerdict
  rw [length_take_of_firstAt hpos, if_neg (by omega)]
  split_ifs with hchunked hbody
  · simp [hchunked]
  · simp [hchunked, hbody]
  · simp [hchunked, hbody]

/-- Whether a prefix with the blank line parses is decided by its request line. -/
theorem parseHttpRequest_take_eq_none_iff (hpos : firstAt blankLine b = some pos)
    (hn : pos + 4 ≤ n) (hnb : n ≤ b.length) :
    parseHttpRequest (b.take n) = none ↔
      splitRequestLine (requestLine (b.take pos)) = none := by
  rw [parseHttpRequest_eq_none_iff (firstAt_take hpos hn hnb), take_take_of_le hn]

/-- A request that is parsed from a prefix has all of the prefix behind the blank line for its
body. -/
theorem length_body_take {req : Request} (hpos : firstAt blankLine b = some pos)
    (hn : pos + 4 ≤ n) (hnb : n ≤ b.length) (hreq : parseHttpRequest (b.take n) = some req) :
    req.body.length = n - (pos + 4) := by
  rw [parseHttpRequest_body (firstAt_take hpos hn hnb) hreq, List.length_drop,
    length_take_of_le hnb]

end Prefix

/-- What `handle_client` goes on with after a decision. -/
def ReadResult.outcome (v : ReadResult) : ReadStatus × Option Request := (v.status, v.request)

theorem outcome_eq (limits : Limits) {b : Bytes} {cs : List Bytes} (hcut : Cut 4096 b cs) :
    outcome limits cs
      = ((firstVerdict (judge limits) [] cs).map ReadResult.outcome).getD (.closed, none) := by
  unfold outcome
  rw [readRequest_eq limits hcut]
  cases firstVerdict (judge limits) [] cs with
  | none => rfl
  | some v => rfl

/-- What an accepted head leaves of the condition. -/
theorem Unambiguous.of_accepted {limits : Limits} {b : Bytes} {pos : Nat}
    (h : Unambiguous limits b) (hpos : firstAt blankLine b = some pos)
    (hverdict : headVerdict limits (b.take pos) = none) :
    splitRequestLine (requestLine (b.take pos)) = none ∨
      (b.length ≤ pos + 4 + declaredLength (b.take pos) ∧
        (declaredLength (b.take pos) = 0 ∨
          pos + 4 + declaredLength (b.take pos) < 2 ^ 64)) := by
  rcases h pos ((find_zero _ _).trans hpos) with hlt | ⟨hge, hrest⟩
  · rw [headVerdict_of_lt hpos hlt] at hverdict
    cases hverdict
  · obtain ⟨hchunked, hlarge⟩ := (headVerdict_eq_none_iff hpos (by omega)).mp hverdict
    rcases hrest with hc | hb | hrest
    · exact absurd hc hchunked
    · exact absurd hb hlarge
    · exact hrest

/-- In an unambiguous stream a decision on a prefix is the one on the whole stream. -/
theorem judge_stable {limits : Limits} {b : Bytes} (h : Unambiguous limits b) (p : Bytes)
    (hp : p <+: b) (v : ReadResult) (hv : judge limits p = some v) :
    (judge limits b).map ReadResult.outcome = some v.outcome := by
  obtain ⟨n, hnb, rfl⟩ : ∃ n, n ≤ b.length ∧ p = b.take n :=
    ⟨p.length, hp.length_le, List.prefix_iff_eq_take.mp hp⟩
  have hself : b.take b.length = b := List.take_length
  cases hpos : firstAt blankLine b with
  | none =>
    -- No blank line: the limit is passed for good.
    have hnone : firstAt blankLine (b.take n) = none := by
      cases h' : firstAt blankLine (b.take n) with
      | none => rfl
      | some pos =>
        rw [((firstAt_take_iff hnb).mp h').1] at hpos
        cases hpos
    rw [judge_of_none hnone, length_take_of_le hnb] at hv
    rw [judge_of_none hpos]
    split at hv
    · cases hv
      rw [if_pos (by omega)]
      rfl
    · cases hv
  | some pos =>
    have hle := firstAt_length_le hpos
    have hfour : blankLine.length = 4 := rfl
    by_cases hn : n < pos + 4
    · -- The limit is passed before the blank line is complete, so the head is too large.
      rw [judge_take_of_lt hpos hn] at hv
      split at hv
      · rename_i hlarge
        cases hv
        -- A head within three bytes of the limit is excluded by the condition.
        rcases h pos ((find_zero _ _).trans hpos) with hlt | ⟨hge, -⟩
        · rw [judge_of_refused hpos (headVerdict_of_lt hpos hlt)]
          rfl
        · omega
      · cases hv
    · cases hverdict : headVerdict limits (b.take pos) with
      | some status =>
        -- A refusal carries no request, whatever has arrived with it.
        rw [judge_take_of_refused hpos hverdict (by omega) hnb] at hv
        cases hv
        have hstatus : status ≠ .ok := by
          rintro rfl
          exact headVerdict_ne_ok _ _ hverdict
        rw [judge_of_refused hpos hverdict]
        simp [ReadResult.outcome, ReadResult.request, hstatus]
      | none =>
        rw [judge_take_of_accepted hpos hverdict (by omega) hnb] at hv
        split at hv
        · rename_i hcomplete
          cases hv
          rw [judge_of_accepted hpos hverdict, if_pos (by omega)]
          rcases h.of_accepted hpos hverdict with hline | ⟨hend, hfits⟩
          · -- No prefix parses.
            have hparse : ∀ m, pos + 4 ≤ m → m ≤ b.length →
                parseHttpRequest (b.take m) = none := fun m hm hmb =>
              (parseHttpRequest_take_eq_none_iff hpos hm hmb).mpr hline
            have hn' := hparse n (by omega) hnb
            have hb' := hparse b.length (by omega) le_rfl
            rw [hself] at hb'
            simp [ReadResult.outcome, ReadResult.request, hn', hb']
          · -- The request is complete at the end of the stream and not before.
            have hn' := (completeAt_le_iff hpos hfits (by omega)).mp hcomplete
            have hnb' : n = b.length := by omega
            rw [hnb', hself]
            rfl
        · cases hv

/-- In an unambiguous stream the outcome does not depend on the cut. -/
theorem outcome_of_unambiguous {limits : Limits} {b : Bytes} (h : Unambiguous limits b)
    {cs : List Bytes} (hcut : Cut 4096 b cs) :
    outcome limits cs = ((judge limits b).map ReadResult.outcome).getD (.closed, none) := by
  have hnil : judge limits [] = none := rfl
  have hrun := firstVerdict_eq_of_stable ReadResult.outcome hnil (judge_stable h) hcut
  rw [outcome_eq limits hcut, hrun]

/-- In an unambiguous stream the body of a request is the declared one. -/
theorem body_of_unambiguous {limits : Limits} {b : Bytes} (h : Unambiguous limits b)
    {req : Request} (hreq : (judge limits b).map ReadResult.outcome = some (.ok, some req)) :
    ∃ pos, find b blankLine 0 = some pos ∧ req.body <+: b.drop (pos + 4) ∧
      req.body.length = declaredLength (b.take pos) := by
  obtain ⟨v, hv, hout⟩ := Option.map_eq_some_iff.mp hreq
  have hstatus : v.status = .ok := congrArg Prod.fst hout
  have hparse : v.request = some req := congrArg Prod.snd hout
  rw [ReadResult.request, if_pos hstatus] at hparse
  cases hpos : firstAt blankLine b with
  | none =>
    rw [judge_of_none hpos] at hv
    split at hv
    · cases hv
      cases hstatus
    · cases hv
  | some pos =>
    cases hverdict : headVerdict limits (b.take pos) with
    | some status =>
      -- A refusal is no request.
      rw [judge_of_refused hpos hverdict] at hv
      cases hv
      exact absurd (hverdict.trans (congrArg some hstatus)) (headVerdict_ne_ok _ _)
    | none =>
      rw [judge_of_accepted hpos hverdict] at hv
      split at hv
      · rename_i hcomplete
        cases hv
        have hbody := parseHttpRequest_body hpos hparse
        refine ⟨pos, (find_zero _ _).trans hpos, by rw [hbody], ?_⟩
        rcases h.of_accepted hpos hverdict with hline | ⟨hend, hfits⟩
        · rw [(parseHttpRequest_eq_none_iff hpos).mpr hline] at hparse
          cases hparse
        · have hlen := firstAt_length_le hpos
          have hge := (completeAt_le_iff hpos hfits hlen).mp hcomplete
          rw [hbody, List.length_drop]
          omega
      · cases hv

/-- **Ambiguity near the limit.** A header block that ends within three bytes of the limit is
refused or not, depending on the cut. -/
theorem not_cutFree_of_near_limit {limits : Limits} {b : Bytes} {pos : Nat}
    (hpos : firstAt blankLine b = some pos) (hle : pos ≤ limits.maxHeaderBytes)
    (hlt : limits.maxHeaderBytes < pos + 3) (h : CutFree limits b) : False := by
  have hlen := firstAt_length_le hpos
  have hfour : blankLine.length = 4 := rfl
  have hopen : ∀ n, n ≤ limits.maxHeaderBytes → judge limits (b.take n) = none := by
    intro n hn
    rw [judge_take_of_lt hpos (by omega), if_neg (by omega)]
  -- One byte after the other: refused when the limit is passed.
  have hcut := cut_cutAt 4096 (s := b) (m := limits.maxHeaderBytes)
    (k := limits.maxHeaderBytes + 1) (by omega) (by omega) (by omega)
  have hrefused : judge limits (b.take (limits.maxHeaderBytes + 1))
      = some ⟨.headerTooLarge, b.take (limits.maxHeaderBytes + 1)⟩ := by
    rw [judge_take_of_lt hpos (by omega), if_pos (by omega)]
  have hone := outcome_eq limits hcut
  rw [firstVerdict_cutAt (by omega) (by omega) hopen hrefused] at hone
  -- The blank line in one chunk: whatever is decided, the head is not too large.
  have hcut' := cut_cutAt 4096 (s := b) (m := pos) (k := pos + 4) (by omega) (by omega)
    (by omega)
  have htwo := outcome_eq limits hcut'
  rw [← h.1 _ _ hcut hcut', hone] at htwo
  cases hv : firstVerdict (judge limits) [] (cutAt b pos (pos + 4)) with
  | none =>
    rw [hv] at htwo
    cases htwo
  | some v =>
    rw [hv] at htwo
    have hstatus : ReadStatus.headerTooLarge = v.status := congrArg Prod.fst htwo
    obtain ⟨p, hk, hp, hjudge⟩ := judge_of_firstVerdict_cutAt (by omega) (by omega)
      (fun n hn => hopen n (by omega)) hv
    have hplen := hk.length_le
    rw [length_take_of_le (by omega)] at hplen
    rw [List.prefix_iff_eq_take.mp hp] at hjudge
    cases hverdict : headVerdict limits (b.take pos) with
    | some status =>
      rw [judge_take_of_refused hpos hverdict hplen hp.length_le] at hjudge
      cases hjudge
      exact headVerdict_ne_headerTooLarge hpos hle (hverdict.trans (congrArg some hstatus.symm))
    | none =>
      rw [judge_take_of_accepted hpos hverdict hplen hp.length_le] at hjudge
      split at hjudge
      · cases hjudge
        cases hstatus
      · cases hjudge

/-- The outcome of a cut that first completes an accepted request at the size `k`. -/
theorem outcome_cutAt (limits : Limits) {b : Bytes} {pos m k : Nat}
    (hpos : firstAt blankLine b = some pos) (hge : pos + 3 ≤ limits.maxHeaderBytes)
    (hverdict : headVerdict limits (b.take pos) = none) (hmk : m < k) (hkb : k ≤ b.length)
    (hk : pos + 4 ≤ k) (hmax : k - m ≤ 4096)
    (hopen : ∀ n, pos + 4 ≤ n → n ≤ m → n < completeAt (b.take pos))
    (hcomplete : completeAt (b.take pos) ≤ k) :
    Cut 4096 b (cutAt b m k) ∧
      outcome limits (cutAt b m k) = (.ok, parseHttpRequest (b.take k)) := by
  have hcut := cut_cutAt 4096 hmk hkb hmax
  have hopen' : ∀ n, n ≤ m → judge limits (b.take n) = none := by
    intro n hn
    by_cases hlt : n < pos + 4
    · rw [judge_take_of_lt hpos hlt, if_neg (by omega)]
    · have hbefore := hopen n (by omega) hn
      rw [judge_take_of_accepted hpos hverdict (by omega) (by omega), if_neg (by omega)]
  have hjudge : judge limits (b.take k) = some ⟨.ok, b.take k⟩ := by
    rw [judge_take_of_accepted hpos hverdict hk hkb, if_pos hcomplete]
  refine ⟨hcut, ?_⟩
  rw [outcome_eq limits hcut, firstVerdict_cutAt hmk hkb hopen' hjudge]
  rfl

/-- **Ambiguity behind the body.** Bytes that follow the body are part of it or not, depending
on the cut. -/
theorem not_cutFree_of_more {limits : Limits} {b : Bytes} {pos : Nat}
    (hpos : firstAt blankLine b = some pos) (hge : pos + 3 ≤ limits.maxHeaderBytes)
    (hverdict : headVerdict limits (b.take pos) = none)
    (hline : splitRequestLine (requestLine (b.take pos)) ≠ none)
    (hfits : declaredLength (b.take pos) = 0 ∨ pos + 4 + declaredLength (b.take pos) < 2 ^ 64)
    (hmore : pos + 4 + declaredLength (b.take pos) < b.length) (h : CutFree limits b) : False := by
  have hcomplete : ∀ n, pos + 4 ≤ n →
      (completeAt (b.take pos) ≤ n ↔ pos + 4 + declaredLength (b.take pos) ≤ n) := fun n hn =>
    completeAt_le_iff hpos hfits hn
  obtain ⟨k, hk⟩ : ∃ k, k = pos + 4 + declaredLength (b.take pos) := ⟨_, rfl⟩
  rw [← hk] at hcomplete hmore
  have hopen : ∀ n, pos + 4 ≤ n → n ≤ k - 1 → n < completeAt (b.take pos) := by
    intro n hn hn'
    have hnot := (hcomplete n hn).not.mpr (by omega)
    omega
  have hdone : completeAt (b.take pos) ≤ k := (hcomplete k (by omega)).mpr le_rfl
  -- The chunk that completes the request ends with it, or one byte later.
  obtain ⟨hcut, hout⟩ := outcome_cutAt limits (m := k - 1) (k := k) hpos hge hverdict
    (by omega) (by omega) (by omega) (by omega) hopen (by omega)
  obtain ⟨hcut', hout'⟩ := outcome_cutAt limits (m := k - 1) (k := k + 1) hpos hge hverdict
    (by omega) (by omega) (by omega) (by omega) hopen (by omega)
  have hsame := h.1 _ _ hcut hcut'
  rw [hout, hout', Prod.mk.injEq] at hsame
  obtain ⟨req, hreq⟩ := Option.ne_none_iff_exists'.mp
    (mt (parseHttpRequest_take_eq_none_iff hpos (n := k) (by omega) (by omega)).mp hline)
  have hlen := length_body_take hpos (by omega) (by omega) hreq
  have hlen' := length_body_take hpos (by omega) (by omega) (hsame.2.symm.trans hreq)
  omega

/-- **A body whose end is no size**: it is taken for empty. -/
theorem not_cutFree_of_overflow {limits : Limits} {b : Bytes} {pos : Nat}
    (hpos : firstAt blankLine b = some pos) (hge : pos + 3 ≤ limits.maxHeaderBytes)
    (hverdict : headVerdict limits (b.take pos) = none)
    (hline : splitRequestLine (requestLine (b.take pos)) ≠ none)
    (hcomplete : completeAt (b.take pos) ≤ pos + 4)
    (hdeclared : declaredLength (b.take pos) ≠ 0) (h : CutFree limits b) : False := by
  have hlen := firstAt_length_le hpos
  have hfour : blankLine.length = 4 := rfl
  obtain ⟨hcut, hout⟩ := outcome_cutAt limits (m := pos + 3) (k := pos + 4) hpos hge hverdict
    (by omega) (by omega) (by omega) (by omega) (fun n hn hn' => by omega) hcomplete
  obtain ⟨req, hreq⟩ := Option.ne_none_iff_exists'.mp
    (mt (parseHttpRequest_take_eq_none_iff hpos (n := pos + 4) le_rfl (by omega)).mp hline)
  rw [hreq] at hout
  obtain ⟨pos', hpos', -, hbody⟩ := h.2 _ hcut req hout
  rw [find_zero, hpos, Option.some.injEq] at hpos'
  rw [length_body_take hpos le_rfl (by omega) hreq, ← hpos'] at hbody
  omega

/-- A stream that is read alike from every cut is unambiguous. -/
theorem unambiguous_of_cutFree {limits : Limits} {b : Bytes} (h : CutFree limits b) :
    Unambiguous limits b := by
  intro pos hfind
  have hpos : firstAt blankLine b = some pos := (find_zero _ _).symm.trans hfind
  have hlen := firstAt_length_le hpos
  have hfour : blankLine.length = 4 := rfl
  by_contra hnot
  rw [not_or, not_and_or] at hnot
  obtain ⟨hle, hrest⟩ := hnot
  -- Contraposed: for each way to be ambiguous, a cut that is read otherwise.
  by_cases hge : pos + 3 ≤ limits.maxHeaderBytes
  · rcases hrest with hrest | hrest
    · exact hrest hge
    rw [not_or, not_or, not_or] at hrest
    obtain ⟨hchunked, hbody, hline, hend⟩ := hrest
    have hverdict : headVerdict limits (b.take pos) = none :=
      (headVerdict_eq_none_iff hpos (by omega)).mpr ⟨hchunked, hbody⟩
    by_cases hfits : declaredLength (b.take pos) = 0 ∨
        pos + 4 + declaredLength (b.take pos) < 2 ^ 64
    · -- The end of the body is a size, so something follows it.
      have hmore : pos + 4 + declaredLength (b.take pos) < b.length := by
        by_contra hno
        exact hend ⟨by omega, hfits⟩
      exact not_cutFree_of_more hpos hge hverdict hline hfits hmore h
    · rw [not_or] at hfits
      -- The end wraps around, so the body counts as complete too early.
      have hearly : completeAt (b.take pos) ≤ pos + 4 := by
        rw [completeAt_take hpos, parseContentLength_getD]
        split <;> omega
      exact not_cutFree_of_overflow hpos hge hverdict hline hearly hfits.1 h
  · exact not_cutFree_of_near_limit hpos (by omega) (by omega) h

/-- **Exactly the unambiguous streams are read alike from every cut.** -/
theorem cutFree_iff (limits : Limits) (b : Bytes) : CutFree limits b ↔ Unambiguous limits b := by
  constructor
  · exact unambiguous_of_cutFree
  · intro h
    refine ⟨fun cs cs' hcut hcut' => ?_, fun cs hcut req hreq => ?_⟩
    · rw [outcome_of_unambiguous h hcut, outcome_of_unambiguous h hcut']
    · rw [outcome_of_unambiguous h hcut] at hreq
      cases hjudge : judge limits b with
      | none =>
        rw [hjudge] at hreq
        cases hreq
      | some v =>
        rw [hjudge] at hreq
        refine body_of_unambiguous h ?_
        rw [hjudge]
        exact congrArg some hreq

/-- A complete request with a body of one byte, and one byte that follows it. -/
def pipelined : Bytes := bytes "POST / HTTP/1.1\r\nContent-Length: 1\r\n\r\nab"

/-- **Bytes behind a request join its body**, when they arrive in the same chunk. -/
theorem pipelined_bytes_join_the_body :
    ((outcome {} [pipelined]).2.map Request.body = some (bytes "ab") ∧
      (outcome {} [pipelined.take 39, bytes "b"]).2.map Request.body = some (bytes "a")) ∧
    ¬ CutFree {} pipelined := by
  have hjoined : (outcome {} [pipelined]).2.map Request.body = some (bytes "ab") := by
    decide
  have hcutoff : (outcome {} [pipelined.take 39, bytes "b"]).2.map Request.body
      = some (bytes "a") := by
    decide
  refine ⟨⟨hjoined, hcutoff⟩, fun h => ?_⟩
  have hsame := h.1 [pipelined] [pipelined.take 39, bytes "b"] ⟨by decide, by decide⟩
    ⟨by decide, by decide⟩
  rw [hsame, hcutoff] at hjoined
  exact absurd hjoined (by decide)

end CppLaravel.Http
