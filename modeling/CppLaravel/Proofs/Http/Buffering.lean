import CppLaravel.Proofs.Http.Framing

/-!
# `CppLaravel.Proofs.Http.Buffering`: what a peer can make the server hold

`buffers` are what `read_request` has in its buffer, iteration by iteration. An iteration that
decides nothing leaves no more than the limits allow (`length_le_of_open`), and a further chunk adds
4096 bytes at most. A request is complete only behind a header block that was accepted
(`accepted_of_headVerdict`).
-/

set_option autoImplicit false

namespace CppLaravel.Http

open CppLaravel.Lib

/-- The buffer in every iteration of the loop, right after the chunk was appended. -/
def buffers (limits : Limits) (r : Reading) : List Bytes → List Bytes
  | [] => []
  | buf :: rest =>
    if buf = [] then []
    else
      (r.data ++ buf) ::
        match readChunk limits r buf with
        | .error _ => []
        | .ok r => buffers limits r rest

/-- A header block that is not refused. -/
theorem accepted_of_headVerdict {limits : Limits} {head : Bytes}
    (h : headVerdict limits head = none) :
    head.length ≤ limits.maxHeaderBytes ∧ hasChunkedBody head = false ∧
      (parseContentLength head).getD 0 ≤ limits.maxBodyBytes := by
  unfold headVerdict at h
  split_ifs at h with hlarge hchunked hbody
  exact ⟨not_lt.mp hlarge, Bool.eq_false_iff.mpr hchunked, not_lt.mp hbody⟩

/-- Within the limits the end of the body does not wrap around. -/
theorem completeAt_eq {limits : Limits}
    (hlimits : limits.maxHeaderBytes + limits.maxBodyBytes + 8192 < 2 ^ 64) {head : Bytes}
    (h : headVerdict limits head = none) :
    completeAt head = head.length + 4 + (parseContentLength head).getD 0 := by
  obtain ⟨hhead, -, hbody⟩ := accepted_of_headVerdict h
  rw [completeAt, Nat.mod_eq_of_lt]
  omega

/-- A decision is about all that was read. -/
theorem data_of_judge {limits : Limits} {p : Bytes} {v : ReadResult}
    (h : judge limits p = some v) : v.data = p := by
  cases hpos : firstAt blankLine p with
  | none =>
    rw [judge_of_none hpos, Option.ite_none_right_eq_some] at h
    exact (Option.some.inj h.2) ▸ rfl
  | some pos =>
    cases hverdict : headVerdict limits (p.take pos) with
    | some status =>
      rw [judge_of_refused hpos hverdict] at h
      exact (Option.some.inj h) ▸ rfl
    | none =>
      rw [judge_of_accepted hpos hverdict, Option.ite_none_right_eq_some] at h
      exact (Option.some.inj h.2) ▸ rfl

/-- What was read when the loop goes on is no more than the limits allow. -/
theorem length_le_of_open {limits : Limits}
    (hlimits : limits.maxHeaderBytes + limits.maxBodyBytes + 8192 < 2 ^ 64) {p : Bytes}
    (h : judge limits p = none) : p.length ≤ limits.maxHeaderBytes + limits.maxBodyBytes + 4 := by
  cases hpos : firstAt blankLine p with
  | none =>
    rw [judge_of_none hpos] at h
    split_ifs at h with hlarge
    omega
  | some pos =>
    cases hverdict : headVerdict limits (p.take pos) with
    | some status =>
      rw [judge_of_refused hpos hverdict] at h
      cases h
    | none =>
      rw [judge_of_accepted hpos hverdict] at h
      split_ifs at h with hcomplete
      obtain ⟨hhead, -, hbody⟩ := accepted_of_headVerdict hverdict
      rw [completeAt_eq hlimits hverdict] at hcomplete
      omega

section
variable {limits : Limits} {p : Bytes} {r : Reading}

/-- What is returned is the last of the buffers. -/
theorem readLoop_data (h : Reads limits p r) (chunks : List Bytes) :
    (readLoop limits r chunks).data = (buffers limits r chunks).getLastD p := by
  -- On the chunks; `Reads` is the invariant of the loop.
  induction chunks generalizing p r with
  | nil => exact h.1
  | cons buf chunks ih =>
    rw [readLoop, buffers]
    split
    · exact h.1
    · rcases readChunk_spec h buf with ⟨v, hv, hread⟩ | ⟨-, r', hread, hreads⟩
      · simp only [hread, h.1, List.getLastD_cons, List.getLastD_nil]
        exact data_of_judge hv
      · simp only [hread, h.1, List.getLastD_cons]
        exact ih hreads

theorem length_le_of_mem_buffers
    (hlimits : limits.maxHeaderBytes + limits.maxBodyBytes + 8192 < 2 ^ 64)
    (h : Reads limits p r) (hp : p.length ≤ limits.maxHeaderBytes + limits.maxBodyBytes + 4)
    {chunks : List Bytes} (hchunks : ∀ c ∈ chunks, c.length ≤ 4096) :
    ∀ b ∈ buffers limits r chunks,
      b.length ≤ limits.maxHeaderBytes + limits.maxBodyBytes + 4 + 4096 := by
  induction chunks generalizing p r with
  | nil => simp [buffers]
  | cons buf chunks ih =>
    have hbuf : buf.length ≤ 4096 := hchunks buf List.mem_cons_self
    intro b hb
    rw [buffers] at hb
    split at hb
    · cases hb
    · rcases List.mem_cons.mp hb with rfl | hb
      · rw [h.1, List.length_append]
        omega
      · rcases readChunk_spec h buf with ⟨v, -, hread⟩ | ⟨hopen, r', hread, hreads⟩
        · simp [hread] at hb
        · simp only [hread] at hb
          exact ih hreads (length_le_of_open hlimits hopen)
            (fun c hc => hchunks c (List.mem_cons_of_mem buf hc)) b hb

/-- Ok is a decision on what was read. -/
theorem judge_of_readLoop (h : Reads limits p r) {chunks : List Bytes}
    (hok : (readLoop limits r chunks).status = .ok) :
    judge limits (readLoop limits r chunks).data = some (readLoop limits r chunks) := by
  induction chunks generalizing p r with
  | nil => cases hok
  | cons buf chunks ih =>
    rw [readLoop] at hok ⊢
    split at hok
    · cases hok
    · rw [if_neg ‹_›]
      rcases readChunk_spec h buf with ⟨v, hv, hread⟩ | ⟨-, r', hread, hreads⟩
      · simp only [hread]
        rwa [data_of_judge hv]
      · simp only [hread] at hok ⊢
        exact ih hreads hok

end

/-- Every buffer of `read_request` is bounded by the limits, and a request that is returned has a
header block within its limit that declares no chunked coding, and a declared length within its
limit of which all bytes were received. -/
theorem readRequest_bounded (limits : Limits)
    (hlimits : limits.maxHeaderBytes + limits.maxBodyBytes + 8192 < 2 ^ 64)
    (chunks : List Bytes) (hchunks : ∀ c ∈ chunks, c.length ≤ 4096) :
    (∀ b ∈ buffers limits {} chunks,
      b.length ≤ limits.maxHeaderBytes + limits.maxBodyBytes + 4 + 4096) ∧
    (readRequest limits chunks).data = (buffers limits {} chunks).getLastD [] ∧
    ((readRequest limits chunks).status = .ok →
      let data := (readRequest limits chunks).data
      ∃ pos, firstAt blankLine data = some pos ∧
        let head := data.take pos
        pos ≤ limits.maxHeaderBytes ∧ hasChunkedBody head = false ∧
          (parseContentLength head).getD 0 ≤ limits.maxBodyBytes ∧
          (parseContentLength head).getD 0 ≤ (data.drop (pos + 4)).length) := by
  have hreads : Reads limits [] {} := ⟨rfl, rfl⟩
  refine ⟨length_le_of_mem_buffers hlimits hreads (Nat.zero_le _) hchunks,
    readLoop_data hreads chunks, fun hok => ?_⟩
  have hjudge := judge_of_readLoop hreads hok
  change judge limits (readRequest limits chunks).data = some (readRequest limits chunks) at hjudge
  generalize readRequest limits chunks = v at hok hjudge
  -- What is returned was judged, and only a complete request is judged `ok`.
  cases hpos : firstAt blankLine v.data with
  | none =>
    rw [judge_of_none hpos] at hjudge
    split_ifs at hjudge
    rw [← Option.some.inj hjudge] at hok
    cases hok
  | some pos =>
    cases hverdict : headVerdict limits (v.data.take pos) with
    | some status =>
      rw [judge_of_refused hpos hverdict] at hjudge
      rw [← Option.some.inj hjudge] at hok
      obtain rfl : status = .ok := hok
      exact absurd hverdict (headVerdict_ne_ok limits _)
    | none =>
      rw [judge_of_accepted hpos hverdict] at hjudge
      split_ifs at hjudge with hcomplete
      obtain ⟨hhead, hchunked, hbody⟩ := accepted_of_headVerdict hverdict
      rw [completeAt_eq hlimits hverdict] at hcomplete
      rw [length_take_of_firstAt hpos] at hhead hcomplete
      refine ⟨pos, hpos, hhead, hchunked, hbody, ?_⟩
      rw [List.length_drop]
      omega

/-- A request in two chunks. -/
theorem readRequest_bounded_applies :
    let chunks := [bytes "POST / HTTP/1.1\r\nContent-Le", bytes "ngth: 1\r\n\r\na"]
    (readRequest {} chunks).status = .ok ∧
    ∀ b ∈ buffers {} {} chunks, b.length ≤ 64 * 1024 + 16 * 1024 * 1024 + 4 + 4096 := by
  refine ⟨by decide, (readRequest_bounded {} (by decide) _ ?_).1⟩
  decide

end CppLaravel.Http
