import CppLaravel.Http.HandleClient
import CppLaravel.Proofs.Http.Form
import CppLaravel.Proofs.Http.Framing
import CppLaravel.Proofs.Http.Recased
import CppLaravel.Proofs.Http.Response

/-!
# `CppLaravel.Proofs.Http.HandleClient`: a request and its response on the wire

`Sends` is how a client writes a request. `exchange`: however the bytes are cut, the kernel is given
the request that was written, once, and the client reads what the kernel answered.
-/

set_option autoImplicit false

namespace CppLaravel.Http

open CppLaravel.Lib
open CppLaravel.Routing (Outcome Thrown internalServerError)

/-! ### Lines -/

theorem joinLines_cons (line l : Bytes) (lines : List Bytes) :
    joinLines line (l :: lines) = line ++ 13 :: 10 :: joinLines l lines := by
  simp [joinLines, crlf]

/-- A line without a carriage return. -/
theorem firstAt_crlf_of_notMem {line : Bytes} (h : 13 ∉ line) : firstAt crlf line = none := by
  have hnone := firstAt_append_of_not_mem (q := [10]) h []
  rwa [List.append_nil] at hnone

/-- Lines with something in them do not make a blank line. -/
theorem firstAt_blankLine {line : Bytes} {lines : List Bytes} (h : ∀ l ∈ line :: lines, 13 ∉ l)
    (hne : ∀ l ∈ lines, l ≠ []) (rest : Bytes) :
    firstAt blankLine (joinLines line lines ++ (blankLine ++ rest)) =
      some (joinLines line lines).length := by
  have hskip := fun s => firstAt_append_of_not_mem (q := [10, 13, 10]) (h line List.mem_cons_self) s
  induction lines generalizing line with
  | nil =>
    have hhere : firstAt blankLine (blankLine ++ rest) = some 0 :=
      firstAt_of_isPrefix (List.prefix_append _ _)
    have hjoin : joinLines line [] = line := List.append_nil _
    rw [hjoin]
    refine (hskip _).trans ?_
    rw [← blankLine, hhere]
    rfl
  | cons l lines ih =>
    have hrest := ih (fun l' hl' => h l' (List.mem_cons_of_mem _ hl'))
      (fun l' hl' => hne l' (List.mem_cons_of_mem _ hl'))
      (firstAt_append_of_not_mem (h l (List.mem_cons_of_mem _ List.mem_cons_self)))
    -- Neither of the two bytes between the lines begins a blank line.
    have hcr : ¬ blankLine <+: 13 :: 10 :: (joinLines l lines ++ (blankLine ++ rest)) := by
      obtain ⟨c, l, rfl⟩ := List.exists_cons_of_ne_nil (hne l List.mem_cons_self)
      have hc : c ≠ 13 := fun hc => h (c :: l) (by simp) (hc ▸ List.mem_cons_self)
      simp [blankLine, joinLines, List.cons_prefix_cons, hc.symm]
    have hlf : ¬ blankLine <+: 10 :: (joinLines l lines ++ (blankLine ++ rest)) := by
      simp [blankLine, List.cons_prefix_cons]
    rw [joinLines_cons, List.append_assoc, List.cons_append, List.cons_append]
    refine (hskip _).trans ?_
    rw [← blankLine, firstAt_cons_of_not hcr, firstAt_cons_of_not hlf, hrest]
    simp

/-! ### How a client writes a request -/

/-- The ways to write a path and a query. -/
inductive IsTarget (path : Bytes) : StringMap → Bytes → Prop
  | plain : IsTarget path ∅ path
  | query {m : StringMap} {text : Bytes} : Renders m text → IsTarget path m (path ++ 63 :: text)

/-- The head of a request. -/
def requestHead (method target : Bytes) (entries : List (Bytes × Bytes)) : Bytes :=
  joinLines (method ++ 32 :: (target ++ 32 :: bytes "HTTP/1.1")) (entries.map headerLine)

/-- The text of a request: with all of its headers, and the length of its body where it has one. -/
structure Sends (entries : List (Bytes × Bytes)) (target : Bytes) (req : Request) (wire : Bytes) :
    Prop where
  method : 32 ∉ req.method ∧ 13 ∉ req.method
  path : 32 ∉ req.path ∧ 13 ∉ req.path ∧ 63 ∉ req.path
  isTarget : IsTarget req.path req.query target
  visits : Visits entries req.headers
  plain : ∀ f ∈ entries, PlainField f
  length : ∀ f ∈ entries, IsContentLength f → readNumber f.2 = some req.body.length
  exists_length : req.body ≠ [] → ∃ f ∈ entries, IsContentLength f
  not_chunked : ∀ f ∈ entries, lower f.1 ≠ bytes "transfer-encoding"
  wire : wire = requestHead req.method target entries ++ (blankLine ++ req.body)

/-- The request as it is parsed: nothing has been stored in it yet. -/
def Request.bare (req : Request) : Request :=
  { req with routeParams := ∅, cookies := ∅, remoteAddr := [] }

/-- The request is within the limits of the server. -/
structure Within (limits : Limits) (entries : List (Bytes × Bytes)) (target : Bytes)
    (req : Request) : Prop where
  head : (requestHead req.method target entries).length + 3 ≤ limits.maxHeaderBytes
  body : req.body.length ≤ limits.maxBodyBytes
  size : (requestHead req.method target entries).length + 4 + req.body.length < 2 ^ 64

section
variable {entries : List (Bytes × Bytes)} {target : Bytes} {req : Request} {wire : Bytes}

/-- A byte of a rendering stays within its line. -/
theorem EncodesByte.not_cr {c : UInt8} {t : Bytes} (h : EncodesByte c t) : 13 ∉ t := by
  have hdigit : ∀ x, (hexValue x).isSome = true → x ≠ 13 := by
    rintro x h rfl
    exact absurd h (by decide)
  have hunreserved : ∀ x, isUnreserved x = true → x ≠ 13 := by
    rintro x h rfl
    exact absurd h (by decide)
  intro hx
  cases h with
  | literal hc => exact hunreserved c hc (List.mem_singleton.mp hx).symm
  | plus => exact absurd hx (by decide)
  | percent hh hl =>
    rw [List.mem_cons, List.mem_cons, List.mem_singleton] at hx
    rcases hx with hx | hx | hx
    · cases hx
    · exact hdigit _ (by rw [(hexValue_of_isHexDigit hh).2]; rfl) hx.symm
    · exact hdigit _ (by rw [(hexValue_of_isHexDigit hl).2]; rfl) hx.symm

theorem Encodes.not_cr {s t : Bytes} (h : Encodes s t) : 13 ∉ t := by
  induction h with
  | nil => exact List.not_mem_nil
  | cons hc _ ih => exact fun hx => (List.mem_append.mp hx).elim hc.not_cr ih

theorem EncodesPair.not_cr {kv : Bytes × Bytes} {text : Bytes} (h : EncodesPair kv text) :
    13 ∉ text ∧ 32 ∉ text := by
  obtain ⟨k, v, hk, hv, rfl⟩ := h
  have hspace : 32 ∉ k ∧ 32 ∉ v :=
    ⟨fun hx => (hk.plain 32 hx).2.2 rfl, fun hx => (hv.plain 32 hx).2.2 rfl⟩
  simp [hk.not_cr, hv.not_cr, hspace]

theorem not_mem_intercalate {c x : UInt8} (hc : x ≠ c) {texts : List Bytes}
    (h : ∀ t ∈ texts, x ∉ t) : x ∉ List.intercalate [c] texts := by
  induction texts with
  | nil => exact List.not_mem_nil
  | cons t texts ih =>
    have ih := ih fun t ht => h t (List.mem_cons_of_mem _ ht)
    cases texts with
    | nil => simpa using h t List.mem_cons_self
    | cons u texts =>
      rw [List.intercalate_cons_cons]
      simp [h t List.mem_cons_self, hc, ih]

/-- A query stays within the request line. -/
theorem not_cr_of_renders {m : StringMap} {text : Bytes} (h : Renders m text) :
    13 ∉ text ∧ 32 ∉ text := by
  obtain ⟨entries, texts, -, htexts, rfl⟩ := h
  have hall : ∀ t ∈ texts, 13 ∉ t ∧ 32 ∉ t := by
    intro t ht
    obtain ⟨i, hi, rfl⟩ := List.mem_iff_getElem.mp ht
    exact (htexts.get (htexts.length_eq ▸ hi) hi).not_cr
  exact ⟨not_mem_intercalate (by decide) fun t ht => (hall t ht).1,
    not_mem_intercalate (by decide) fun t ht => (hall t ht).2⟩

theorem parsePairs_of_renders {m : StringMap} {text : Bytes} (h : Renders m text) :
    parsePairs text 38 true = m := by
  obtain ⟨entries, texts, hvisits, htexts, rfl⟩ := h
  rw [parsePairs, pairsLoop_eq _ true (pieces_of_encodesPair htexts) 0 ∅ List.drop_zero,
    foldl_addPair htexts, hvisits.insertAll_eq]

theorem IsTarget.not_cr {path : Bytes} {query : StringMap} (h : IsTarget path query target)
    (hspace : 32 ∉ path) (hcr : 13 ∉ path) : 32 ∉ target ∧ 13 ∉ target := by
  cases h with
  | plain => exact ⟨hspace, hcr⟩
  | query h =>
    obtain ⟨hcr', hspace'⟩ := not_cr_of_renders h
    simp [hspace, hcr, hspace', hcr']

/-- The first question mark ends the path. -/
theorem IsTarget.split {path : Bytes} {query : StringMap} (h : IsTarget path query target)
    (hmark : 63 ∉ path) :
    (find target [63] 0 = none ∧ target = path ∧ query = ∅) ∨
      ∃ q, find target [63] 0 = some q ∧ substr target 0 q = path ∧
        parsePairs (target.drop (q + 1)) 38 true = query := by
  cases h with
  | plain =>
    have hnone := firstAt_append_of_not_mem (q := []) hmark []
    rw [List.append_nil] at hnone
    exact .inl ⟨(find_zero _ _).trans hnone, rfl, rfl⟩
  | @query m text h =>
    have hdrop : (path ++ 63 :: text).drop (path.length + 1) = text := List.drop_length_add_append 1
    refine .inr ⟨path.length, (find_zero _ _).trans (firstAt_single hmark text), ?_, ?_⟩
    · rw [substr, List.drop_zero, List.take_left]
    · rw [hdrop, parsePairs_of_renders h]

/-! ### How it is read -/

namespace Sends

/-- The request line. -/
theorem line_head (h : Sends entries target req wire) :
    13 ∉ req.method ++ 32 :: (target ++ 32 :: bytes "HTTP/1.1") := by
  have htarget := h.isTarget.not_cr h.path.1 h.path.2.1
  have hversion : 13 ∉ bytes "HTTP/1.1" := by decide
  simp [h.method.2, htarget.2, hversion]

theorem not_cr_headerLine (h : Sends entries target req wire) :
    ∀ l ∈ entries.map headerLine, 13 ∉ l := by
  intro l hl
  obtain ⟨f, hf, rfl⟩ := List.mem_map.mp hl
  have hcolon : 13 ∉ bytes ": " := by decide
  simp [headerLine, (h.plain f hf).name.cr, (h.plain f hf).value.cr, hcolon]

theorem splitLines_head (h : Sends entries target req wire) :
    splitLines (requestHead req.method target entries) =
      (req.method ++ 32 :: (target ++ 32 :: bytes "HTTP/1.1")) :: entries.map headerLine :=
  splitLines_joinLines (List.forall_mem_cons.mpr ⟨firstAt_crlf_of_notMem h.line_head,
    fun l hl => firstAt_crlf_of_notMem (h.not_cr_headerLine l hl)⟩)

/-- The fields of the head. -/
theorem fields_head (h : Sends entries target req wire) :
    fields (requestHead req.method target entries) = entries.map fun f => (f.1, 32 :: f.2) := by
  rw [fields, h.splitLines_head, List.tail_cons, List.filterMap_map]
  have hfield : ∀ f ∈ entries, (field ∘ headerLine) f = some (f.1, 32 :: f.2) := by
    intro f hf
    refine field_eq_some_iff.mpr ⟨(h.plain f hf).colon, ?_⟩
    simp [headerLine, bytes]
  rw [List.filterMap_congr hfield, ← List.filterMap_eq_map]
  rfl

/-- The head ends where it was ended. -/
theorem firstAt_wire (h : Sends entries target req wire) :
    firstAt blankLine wire = some (requestHead req.method target entries).length := by
  have hne : ∀ l ∈ entries.map headerLine, l ≠ [] := by
    intro l hl
    obtain ⟨f, -, rfl⟩ := List.mem_map.mp hl
    simp [headerLine, bytes]
  rw [h.wire]
  exact firstAt_blankLine (List.forall_mem_cons.mpr ⟨h.line_head, h.not_cr_headerLine⟩) hne _

theorem take_wire (h : Sends entries target req wire) :
    wire.take (requestHead req.method target entries).length =
      requestHead req.method target entries := by
  rw [h.wire, List.take_left]

theorem headOf_wire (h : Sends entries target req wire) :
    headOf wire = requestHead req.method target entries := by
  rw [headOf, find_zero, h.firstAt_wire]
  exact h.take_wire

theorem bodyOf_wire (h : Sends entries target req wire) : bodyOf wire = req.body := by
  rw [bodyOf, find_zero, h.firstAt_wire, h.wire]
  dsimp only
  rw [List.drop_length_add_append]
  rfl

theorem requestLine_head (h : Sends entries target req wire) :
    requestLine (requestHead req.method target entries) =
      req.method ++ 32 :: (target ++ 32 :: bytes "HTTP/1.1") := by
  have hsplit := splitLines_eq_cons (requestHead req.method target entries)
  rw [h.splitLines_head] at hsplit
  rw [requestLine_eq]
  exact (List.cons.inj hsplit).1.symm

theorem splitRequestLine_head (h : Sends entries target req wire) :
    splitRequestLine (req.method ++ 32 :: (target ++ 32 :: bytes "HTTP/1.1")) =
      some (req.method, target) := by
  have htarget := h.isTarget.not_cr h.path.1 h.path.2.1
  have hfirst : find (req.method ++ 32 :: (target ++ 32 :: bytes "HTTP/1.1")) [32] 0 =
      some req.method.length := by
    rw [find_zero, firstAt_single h.method.1]
  have hdrop : (req.method ++ 32 :: (target ++ 32 :: bytes "HTTP/1.1")).drop
      (req.method.length + 1) = target ++ 32 :: bytes "HTTP/1.1" :=
    List.drop_length_add_append 1
  have hsecond : find (req.method ++ 32 :: (target ++ 32 :: bytes "HTTP/1.1")) [32]
      (req.method.length + 1) = some (req.method.length + 1 + target.length) := by
    rw [find_eq (by simp), hdrop, firstAt_single htarget.1]
    rfl
  have hlen : req.method.length + 1 + target.length - req.method.length - 1 = target.length := by
    omega
  rw [splitRequestLine, hfirst]
  dsimp only
  rw [hsecond]
  dsimp only
  rw [substr, substr, List.drop_zero, List.take_left, hdrop, hlen, List.take_left]

theorem parseHeaders_head (h : Sends entries target req wire) :
    parseHeaders (requestHead req.method target entries) = req.headers := by
  rw [parseHeaders_eq, h.fields_head, List.foldl_map, ← h.visits.insertAll_eq, insertAll]
  refine List.foldl_ext _ _ _ fun headers f hf => ?_
  dsimp only
  rw [(h.plain f hf).name.trimmed, trim_blank_cons rfl, (h.plain f hf).value.trimmed]

/-- The handler is given what was written. -/
theorem parseHttpRequest_wire (h : Sends entries target req wire) :
    parseHttpRequest wire = some req.bare := by
  rw [parseHttpRequest, h.headOf_wire, h.requestLine_head, h.splitRequestLine_head,
    h.parseHeaders_head, h.bodyOf_wire]
  dsimp only
  rcases h.isTarget.split h.path.2.2 with ⟨hnone, hpath, hquery⟩ | ⟨q, hsome, hpath, hquery⟩
  · rw [hnone]
    dsimp only
    rw [Request.bare, hpath, hquery]
  · rw [hsome]
    dsimp only
    rw [Request.bare, hpath, hquery]

/-- The framing sees the body as it was written. -/
theorem declaredLength_head (h : Sends entries target req wire) :
    declaredLength (requestHead req.method target entries) = req.body.length := by
  rw [declaredLength, headerValue_eq (by decide) (by decide), h.fields_head]
  cases hfind : (entries.map fun f => (f.1, 32 :: f.2)).find?
      fun f => lower f.1 = bytes "content-length" with
  | none =>
    have hbody : req.body = [] := by
      by_contra hbody
      obtain ⟨f, hf, hlength⟩ := h.exists_length hbody
      have hnot := List.find?_eq_none.mp hfind (f.1, 32 :: f.2) (List.mem_map_of_mem hf)
      exact hnot (decide_eq_true hlength)
    rw [hbody]
    rfl
  | some g =>
    obtain ⟨f, hf, rfl⟩ := List.mem_map.mp (List.mem_of_find?_eq_some hfind)
    have hname := List.find?_some hfind
    rw [decide_eq_true_eq] at hname
    have hnumber := h.length f hf hname
    rw [readNumber] at hnumber
    split at hnumber
    · rename_i hdigits
      rw [Option.map_some, trim_blank_cons rfl, (h.plain f hf).value.trimmed]
      dsimp only
      rw [if_pos hdigits]
      exact Option.some.inj hnumber
    · cases hnumber

theorem hasChunkedBody_head (h : Sends entries target req wire) :
    hasChunkedBody (requestHead req.method target entries) = false := by
  have hnone : (entries.map fun f => (f.1, 32 :: f.2)).find?
      (fun f => lower f.1 = bytes "transfer-encoding") = none := by
    rw [List.find?_eq_none]
    intro g hg
    obtain ⟨f, hf, rfl⟩ := List.mem_map.mp hg
    rw [decide_eq_true_eq]
    exact h.not_chunked f hf
  rw [hasChunkedBody, headerValue_eq (by decide) (by decide), h.fields_head, hnone]
  rfl

/-- **However it is cut, a request is read as it was written.** -/
theorem outcome_wire {limits : Limits} (h : Sends entries target req wire)
    (hwithin : Within limits entries target req) {recvs : List Bytes}
    (hcut : Cut 4096 wire recvs) : outcome limits recvs = (.ok, some req.bare) := by
  have hpos := h.firstAt_wire
  have htake := h.take_wire
  have hdeclared := h.declaredLength_head
  have hlength : wire.length =
      (requestHead req.method target entries).length + 4 + req.body.length := by
    rw [h.wire, List.length_append, List.length_append, Nat.add_assoc]
    rfl
  have hhead := hwithin.head
  have hsize := hwithin.size
  have hbody : (parseContentLength (requestHead req.method target entries)).getD 0 =
      req.body.length := by
    rw [parseContentLength_getD, hdeclared, if_pos (by omega)]
  have hunambiguous : Unambiguous limits wire := by
    intro pos hfind
    rw [find_zero, hpos] at hfind
    obtain rfl := Option.some.inj hfind
    rw [htake, hdeclared]
    exact .inr ⟨hhead, .inr (.inr (.inr ⟨hlength.le, .inr hsize⟩))⟩
  -- The whole text is accepted, so every cut is.
  have hverdict : headVerdict limits (wire.take
      (requestHead req.method target entries).length) = none := by
    rw [headVerdict_eq_none_iff hpos (by omega), htake, h.hasChunkedBody_head, hbody]
    exact ⟨Bool.false_ne_true, hwithin.body.not_gt⟩
  have hcomplete : completeAt (wire.take (requestHead req.method target entries).length) ≤
      wire.length := by
    rw [completeAt_le_iff hpos (.inr (by rw [htake, hdeclared]; exact hsize)) (by omega), htake,
      hdeclared]
    exact hlength.ge
  rw [outcome_of_unambiguous hunambiguous hcut, judge_of_accepted hpos hverdict,
    if_pos hcomplete]
  show (ReadStatus.ok, parseHttpRequest wire) = _
  rw [h.parseHttpRequest_wire]

end Sends

end

/-- What `recv` returns is the text of a request, cut in any way, within the limits. -/
def Asks (limits : Limits) (recvs : List Bytes) (req : Request) : Prop :=
  ∃ entries target wire, Sends entries target req wire ∧ Within limits entries target req ∧
    Cut 4096 wire recvs

theorem Asks.outcome {limits : Limits} {recvs : List Bytes} {req : Request}
    (h : Asks limits recvs req) : outcome limits recvs = (.ok, some req.bare) := by
  obtain ⟨entries, target, wire, hsends, hwithin, hcut⟩ := h
  exact hsends.outcome_wire hwithin hcut

/-! ### What is sent back -/

/-- `send` never fails, and has taken this many bytes in the end. -/
structure Takes (sends : List Int) (size : Nat) : Prop where
  pos : ∀ n ∈ sends, 0 < n
  le_sum : (size : Int) ≤ sends.sum

theorem le_sendLoop {sends : List Int} {size sent : Nat} (hpos : ∀ n ∈ sends, 0 < n)
    (hsum : (size : Int) ≤ sent + sends.sum) : size ≤ sendLoop size sent sends := by
  induction sends generalizing sent with
  | nil =>
    rw [List.sum_nil] at hsum
    rw [sendLoop]
    omega
  | cons n sends ih =>
    obtain ⟨hn, hrest⟩ := List.forall_mem_cons.mp hpos
    rw [List.sum_cons] at hsum
    rw [sendLoop]
    split
    · rw [if_neg (by omega)]
      exact ih hrest (by omega)
    · omega

theorem Takes.sendAll_eq {sends : List Int} {out : Bytes} (h : Takes sends out.length) :
    sendAll out sends = out :=
  List.take_of_length_le (le_sendLoop h.pos (by have := h.le_sum; omega))

/-- Whatever `send` says, what is sent is a beginning of the response. -/
theorem sendAll_prefix (out : Bytes) (sends : List Int) : sendAll out sends <+: out :=
  List.take_prefix _ _

/-- A response with plain headers is read in full. -/
theorem receive_formatHttpResponse {res : Response} {entries : List (Bytes × Bytes)}
    (h : Visits entries res.headers) (hplain : PlainHeaders res) :
    receive (formatHttpResponse res entries) =
      some ⟨res.status, entries ++ framing res, res.body⟩ := by
  have hentries : ∀ f ∈ entries, PlainField f ∧
      (IsContentLength f → readNumber f.2 = some res.body.length) := fun f hf =>
    hplain f.1 f.2 ((h.mem_iff f.1 f.2).mp hf)
  have hall : ∀ f ∈ entries ++ framing res, PlainField f := List.forall_mem_append.mpr
    ⟨fun f hf => (hentries f hf).1, plain_framing res⟩
  -- The length of the framing, and any that was among the headers.
  have hannounced : announced (entries ++ framing res) = some res.body.length := by
    have hlength : IsContentLength (bytes "Content-Length", natToString res.body.length) := by
      change lower (bytes "Content-Length") = bytes "content-length"
      decide
    refine announced_eq_some_iff.mpr ⟨⟨_, ?_, hlength⟩, List.forall_mem_append.mpr
      ⟨fun f hf hcontent => (hentries f hf).2 hcontent, ?_⟩⟩
    · exact List.mem_append_right _ List.mem_cons_self
    · refine List.forall_mem_cons.mpr ⟨fun _ => readNumber_natToString _, ?_⟩
      exact List.forall_mem_cons.mpr
        ⟨fun hcontent => absurd hcontent (by decide), List.forall_mem_nil _⟩
  have hlines : ∀ l ∈ statusLine res.status :: (entries ++ framing res).map headerLine,
      l ≠ [] ∧ 10 ∉ l := by
    refine List.forall_mem_cons.mpr ⟨⟨by simp [statusLine, bytes], lf_of_statusLine _⟩, ?_⟩
    intro l hl
    obtain ⟨f, hf, rfl⟩ := List.mem_map.mp hl
    have hcolon : 10 ∉ bytes ": " := by decide
    refine ⟨by simp [headerLine, bytes], ?_⟩
    simp [headerLine, (hall f hf).name.lf, (hall f hf).value.lf, hcolon]
  rw [formatHttpResponse_eq]
  exact receive_eq_some_iff.mpr ⟨_, _, res.body, res.body.length, readLines_write hlines res.body,
    readStatus_statusLine _, readFields_map_headerLine hall, hannounced, le_rfl,
    List.take_length.symm⟩

/-! ### The request cycle -/

section
variable {W : Type} (s : HttpServer W)

/-- What is answered when the kernel returns or throws. -/
def answer : Outcome → Response
  | .ok res => res
  | .error _ => internalServerError

/-- The server does not hand the socket of the request to anyone. -/
def HttpServer.Keeps (req : Request) : Prop :=
  isWebsocketUpgrade (s.order req.headers) = true → s.wsHandlers req.path = none

variable {s}

theorem HttpServer.cycle_eq (sends : List Int) (req : Request) (w : W) :
    ∃ stderr, s.cycle sends req w =
      s.respond sends (answer (s.kernel req w).1) stderr (s.kernel req w).2 := by
  rw [cycle]
  rcases s.kernel req w with ⟨out, w'⟩
  cases out with
  | ok res => exact ⟨_, rfl⟩
  | error e => exact ⟨_, rfl⟩

/-- A request that is read is answered by the kernel. -/
theorem HttpServer.handleClient_of_outcome {recvs : List Bytes} {req : Request}
    (h : outcome s.limits recvs = (.ok, some req)) (hkeeps : s.Keeps req) (remoteAddr : Bytes)
    (sends : List Int) (w : W) : s.handleClient remoteAddr recvs sends w =
      s.cycle sends { req with remoteAddr := remoteAddr } w := by
  obtain ⟨hstatus, hrequest⟩ := Prod.mk.inj h
  rw [ReadResult.request, if_pos hstatus] at hrequest
  have hnone : (if isWebsocketUpgrade (s.order req.headers) then s.wsHandlers req.path
      else none) = none := by
    split
    · rename_i hupgrade
      exact hkeeps hupgrade
    · rfl
  rw [handleClient, hstatus]
  dsimp only
  rw [hrequest]
  dsimp only
  rw [hnone]

/-- Whatever arrives, the world is changed by one call of the kernel or of a handler at most. -/
theorem HttpServer.world_handleClient (s : HttpServer W) (remoteAddr : Bytes) (recvs : List Bytes)
    (sends : List Int) (w : W) :
    (s.handleClient remoteAddr recvs sends w).world = w ∨
    ∃ req : Request, (s.handleClient remoteAddr recvs sends w).world = (s.kernel req w).2 ∨
      ∃ handler, s.wsHandlers req.path = some handler ∧
        (s.handleClient remoteAddr recvs sends w).world = handler req w := by
  rw [handleClient]
  dsimp only
  split
  · split
    · exact .inl rfl
    · rename_i req hreq
      refine .inr ⟨{ req with remoteAddr := remoteAddr }, ?_⟩
      split
      · rename_i handler hhandler
        refine .inr ⟨handler, ?_, rfl⟩
        split at hhandler
        · exact hhandler
        · cases hhandler
      · obtain ⟨stderr, hcycle⟩ := s.cycle_eq sends { req with remoteAddr := remoteAddr } w
        exact .inl (congrArg Served.world hcycle)
  · split
    · exact .inl rfl
    · exact .inl rfl

/-- A request is answered with what the kernel makes of it. -/
theorem HttpServer.handleClient_of_asks {recvs : List Bytes} {req : Request}
    (h : Asks s.limits recvs req) (hkeeps : s.Keeps req) (remoteAddr : Bytes) (sends : List Int)
    {w w' : W} {out : Outcome}
    (hkernel : s.kernel { req.bare with remoteAddr := remoteAddr } w = (out, w')) :
    ∃ stderr, s.handleClient remoteAddr recvs sends w =
      s.respond sends (answer out) stderr w' := by
  obtain ⟨stderr, hcycle⟩ := s.cycle_eq sends { req.bare with remoteAddr := remoteAddr } w
  rw [hkernel] at hcycle
  exact ⟨stderr, (handleClient_of_outcome h.outcome hkeeps remoteAddr sends w).trans hcycle⟩

theorem HttpServer.receive_respond {sends : List Int} {res : Response}
    (hvisits : Visits (s.order res.headers) res.headers) (hplain : PlainHeaders res)
    (htakes : Takes sends (formatHttpResponse res (s.order res.headers)).length) (stderr : Bytes)
    (w : W) : receive (s.respond sends res stderr w).sent =
      some ⟨res.status, s.order res.headers ++ framing res, res.body⟩ := by
  rw [respond, htakes.sendAll_eq]
  exact receive_formatHttpResponse hvisits hplain

/-- **A request and its response on the wire.** However the text of a request is cut on its way, the
kernel is given this request and the address of the client, once; and the client reads the status,
the headers and the body of what the kernel answers, or that it failed. -/
theorem HttpServer.exchange {recvs : List Bytes} {req : Request} (h : Asks s.limits recvs req)
    (hkeeps : s.Keeps req) (remoteAddr : Bytes) {sends : List Int} {w w' : W} {out : Outcome}
    (hkernel : s.kernel { req.bare with remoteAddr := remoteAddr } w = (out, w'))
    (hvisits : Visits (s.order (answer out).headers) (answer out).headers)
    (hplain : PlainHeaders (answer out))
    (htakes : Takes sends
      (formatHttpResponse (answer out) (s.order (answer out).headers)).length) :
    let served := s.handleClient remoteAddr recvs sends w
    served.world = w' ∧ served.closed = true ∧
      receive served.sent = some ⟨(answer out).status,
        s.order (answer out).headers ++ framing (answer out), (answer out).body⟩ := by
  intro served
  obtain ⟨stderr, hserved⟩ := handleClient_of_asks h hkeeps remoteAddr sends hkernel
  rw [show served = _ from hserved]
  exact ⟨rfl, rfl, receive_respond hvisits hplain htakes stderr w'⟩

end

/-- A kernel that counts its calls and gives back the body. -/
def echo : HttpServer Nat where
  kernel := fun req calls => (.ok { body := req.body }, calls + 1)
  order := fun _ => [(bytes "Content-Type", bytes "text/plain")]

def echoRequest : Request where
  method := bytes "POST"
  path := bytes "/echo"
  headers := Finmap.singleton (bytes "Content-Length") (bytes "1")
  body := [0]
  query := Finmap.singleton (bytes "a") (bytes "b")

/-- The text of the request, cut in its head. -/
def echoPieces : List Bytes :=
  [bytes "POST /echo?a=b HTTP/1.1\r\nCon", bytes "tent-Length: 1\r\n\r\n" ++ [0]]

theorem asks_echo : Asks {} echoPieces echoRequest := by
  refine ⟨[(bytes "Content-Length", bytes "1")], bytes "/echo?a=b", _, ?_, ?_, rfl, ?_⟩
  · exact {
      method := by decide
      path := by decide
      isTarget := @IsTarget.query (bytes "/echo") _ (bytes "a=b") ⟨[(bytes "a", bytes "b")],
        [bytes "a=b"], visits_singleton _ _, .cons ⟨bytes "a", bytes "b",
          .cons (.literal (by decide)) .nil, .cons (.literal (by decide)) .nil, rfl⟩ .nil, rfl⟩
      visits := visits_singleton _ _
      plain := List.forall_mem_singleton.mpr ⟨⟨by decide, by decide, by decide⟩, by decide,
        ⟨by decide, by decide, by decide⟩⟩
      length := by decide
      exists_length := fun _ => by decide
      not_chunked := by decide
      wire := by decide }
  · exact ⟨by decide, by decide, by decide⟩
  · decide

theorem plainHeaders_default (body : Bytes) : PlainHeaders { body := body } := by
  intro name v h
  obtain rfl := (Finmap.mem_singleton _ _ _).mp (Finmap.mem_of_lookup_eq_some h)
  obtain rfl := Option.some.inj (Finmap.lookup_singleton_eq.symm.trans h)
  exact ⟨⟨⟨by decide, by decide, by decide⟩, by decide, ⟨by decide, by decide, by decide⟩⟩,
    fun hlength => absurd hlength (by decide)⟩

theorem exchange_echo :
    let served := echo.handleClient [] echoPieces [1000] 0
    served.world = 1 ∧ served.closed = true ∧
      (receive served.sent).map Received.body = some [0] := by
  intro served
  have htakes : Takes [1000] (formatHttpResponse { body := [0] } (echo.order ∅)).length :=
    ⟨by decide, by decide⟩
  obtain ⟨hworld, hclosed, hreceive⟩ := HttpServer.exchange (s := echo) asks_echo (fun _ => rfl) []
    (w := 0) rfl (visits_singleton _ _) (plainHeaders_default _) htakes
  refine ⟨hworld, hclosed, ?_⟩
  rw [hreceive]
  rfl

end CppLaravel.Http
