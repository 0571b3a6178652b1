import CppLaravel.Http.Response
import CppLaravel.Proofs.Http.HeaderViews

/-!
# `CppLaravel.Proofs.Http.Response`: a response as its client reads it

`receive` is how a client reads a response: the status line, the header lines up to the first
empty line, and as many bytes of body as the `Content-Length` says. A line ends with a line feed,
with or without a carriage return before it; a carriage return elsewhere makes the line invalid.
Several `Content-Length` have to agree.

What a client reads are plain fields (`plain_of_receive`). So the fields of a response come back
only if they were plain before, and then they do (`recovered_iff`). The code writes them
unchecked: a redirect to what stands in the query can add a field (`redirect_adds_header`).
-/

set_option autoImplicit false

namespace CppLaravel.Http

open CppLaravel.Lib

/-! ### The client -/

/-- A line without the carriage return at its end. -/
def stripCr (line : Bytes) : Bytes := if line.getLast? = some 13 then line.dropLast else line

/-- The lines of a head up to the first empty one, and what stands behind; `line` is what was read
of the current line. -/
def readLines (line : Bytes) : Bytes → Option (List Bytes × Bytes)
  | [] => none
  | c :: s =>
    if c = 10 then
      if stripCr line = [] then some ([], s)
      else (readLines [] s).map fun r => (stripCr line :: r.1, r.2)
    else readLines (line ++ [c]) s

/-- The number of a status line. -/
def readStatus (line : Bytes) : Option Int :=
  if bytes "HTTP/1.1 " <+: line then some (atoi ((line.drop 9).takeWhile (· ≠ 32))) else none

/-- The name and the value of a header line. -/
def readField (line : Bytes) : Option (Bytes × Bytes) :=
  if 13 ∈ line then none else (field line).map fun f => (trim f.1, trim f.2)

/-- The fields of a head. -/
def readFields : List Bytes → Option (List (Bytes × Bytes))
  | [] => some []
  | line :: lines =>
    match readField line, readFields lines with
    | some f, some fs => some (f :: fs)
    | _, _ => none

/-- A number in digits. -/
def readNumber (v : Bytes) : Option Nat :=
  if v ≠ [] ∧ v.all isDigit then some (digitsValue v) else none

/-- The field is a `Content-Length`, in any spelling. -/
def IsContentLength (f : Bytes × Bytes) : Prop := lower f.1 = bytes "content-length"

instance (f : Bytes × Bytes) : Decidable (IsContentLength f) := inferInstanceAs (Decidable (_ = _))

/-- The length that the fields announce, where they agree on one. -/
def announced (fs : List (Bytes × Bytes)) : Option Nat :=
  match fs.filter IsContentLength with
  | [] => none
  | f :: rest => if ∀ g ∈ rest, readNumber g.2 = readNumber f.2 then readNumber f.2 else none

/-- What a client reads. -/
structure Received where
  status : Int
  fields : List (Bytes × Bytes)
  body : Bytes
deriving DecidableEq

/-- A client reads a response. -/
def receive (wire : Bytes) : Option Received :=
  match readLines [] wire with
  | none | some ([], _) => none
  | some (statusLine :: lines, rest) =>
    match readStatus statusLine, readFields lines with
    | some status, some fs =>
      match announced fs with
      | some n => if n ≤ rest.length then some ⟨status, fs, rest.take n⟩ else none
      | none => none
    | _, _ => none

/-- The two fields that the server adds. -/
def framing (res : Response) : List (Bytes × Bytes) :=
  [(bytes "Content-Length", natToString res.body.length), (bytes "Connection", bytes "close")]

/-- The client reads the status, the headers and the body of the response. -/
def Recovered (res : Response) (entries : List (Bytes × Bytes)) : Prop :=
  ∃ r, receive (formatHttpResponse res entries) = some r ∧ r.status = res.status ∧
    r.fields.Perm (entries ++ framing res) ∧ r.body = res.body

/-- A text that stays within its line and has no blanks at its ends. -/
structure PlainText (s : Bytes) : Prop where
  cr : 13 ∉ s
  lf : 10 ∉ s
  trimmed : trim s = s

/-- A name and a value that a header line can carry. -/
structure PlainField (f : Bytes × Bytes) : Prop where
  name : PlainText f.1
  colon : 58 ∉ f.1
  value : PlainText f.2

/-- The headers of the response are plain, and those that are a `Content-Length` themselves have
the length of the body. -/
def PlainHeaders (res : Response) : Prop :=
  ∀ name value, res.headers.lookup name = some value →
    PlainField (name, value) ∧
      (lower name = bytes "content-length" → readNumber value = some res.body.length)

/-! ### What is read is plain -/

theorem mem_of_mem_trim {c : UInt8} {s : Bytes} (h : c ∈ trim s) : c ∈ s := by
  have hdrop : c ∈ s.dropWhile isBlank := (List.rdropWhile_prefix isBlank _).subset h
  exact (List.dropWhile_suffix isBlank).subset hdrop

theorem trim_trim (s : Bytes) : trim (trim s) = trim s := by
  unfold trim
  generalize ht : s.dropWhile isBlank = t
  -- What is left begins with no blank, and still does when its end is cut.
  have hstart : (t.rdropWhile isBlank).dropWhile isBlank = t.rdropWhile isBlank := by
    cases hr : t.rdropWhile isBlank with
    | nil => rfl
    | cons c r =>
      obtain ⟨u, hu⟩ := List.rdropWhile_prefix isBlank t
      have hc : isBlank c = false := by
        have hne : s.dropWhile isBlank ≠ [] := by
          rw [ht, ← hu, hr]
          exact List.cons_ne_nil _ _
        have hhead := List.head_dropWhile_not isBlank hne
        have ht' : s.dropWhile isBlank = c :: (r ++ u) := by rw [ht, ← hu, hr, List.cons_append]
        simpa only [ht', List.head_cons] using hhead
      exact List.dropWhile_cons_of_neg (by simp [hc])
  rw [hstart, List.rdropWhile_idempotent]

theorem trim_blank_cons {c : UInt8} (hc : isBlank c) (s : Bytes) : trim (c :: s) = trim s := by
  unfold trim
  rw [List.dropWhile_cons_of_pos hc]

theorem not_mem_stripCr {c : UInt8} {line : Bytes} (h : c ∉ line) : c ∉ stripCr line := by
  unfold stripCr
  split
  · exact fun hmem => h (List.mem_of_mem_dropLast hmem)
  · exact h

/-- No line that is read has a line feed. -/
theorem lf_of_readLines {s line : Bytes} (hline : 10 ∉ line) {lines : List Bytes} {rest : Bytes}
    (h : readLines line s = some (lines, rest)) : ∀ l ∈ lines, 10 ∉ l := by
  induction s generalizing line lines rest with
  | nil => cases h
  | cons c s ih =>
    rw [readLines] at h
    split at h
    · split at h
      · cases h
        simp
      · obtain ⟨r, hr, hlines⟩ := Option.map_eq_some_iff.mp h
        cases hlines
        intro l hl
        rcases List.mem_cons.mp hl with rfl | hl
        · exact not_mem_stripCr hline
        · exact ih List.not_mem_nil hr l hl
    · rename_i hc
      refine ih ?_ h
      simp [hline, Ne.symm hc]

/-- A field that is read from a line is plain. -/
theorem plain_of_readField {line : Bytes} {f : Bytes × Bytes} (hlf : 10 ∉ line)
    (h : readField line = some f) : PlainField f := by
  unfold readField at h
  split at h
  · cases h
  · rename_i hcr
    obtain ⟨⟨u, v⟩, huv, rfl⟩ := Option.map_eq_some_iff.mp h
    obtain ⟨hcolon, rfl⟩ := field_eq_some_iff.mp huv
    simp only [List.mem_append, List.mem_cons, not_or] at hcr hlf
    exact {
      name := ⟨fun h => hcr.1 (mem_of_mem_trim h), fun h => hlf.1 (mem_of_mem_trim h), trim_trim u⟩
      colon := fun h => hcolon (mem_of_mem_trim h)
      value := ⟨fun h => hcr.2.2 (mem_of_mem_trim h), fun h => hlf.2.2 (mem_of_mem_trim h),
        trim_trim v⟩ }

/-- A head is read line by line. -/
theorem readFields_eq_some_iff {lines : List Bytes} {fs : List (Bytes × Bytes)} :
    readFields lines = some fs ↔ List.Forall₂ (fun line f => readField line = some f) lines fs := by
  induction lines generalizing fs with
  | nil => simp [readFields, eq_comm]
  | cons line lines ih =>
    rw [readFields, List.forall₂_cons_left_iff]
    constructor
    · intro h
      split at h
      · rename_i f fs' hf hfs
        cases h
        exact ⟨f, fs', hf, ih.mp hfs, rfl⟩
      · cases h
    · rintro ⟨f, fs', hf, hfs, rfl⟩
      rw [hf, ih.mpr hfs]

/-- What a client reads, from its parts. -/
theorem receive_eq_some_iff {wire : Bytes} {r : Received} :
    receive wire = some r ↔ ∃ statusLine lines rest n,
      readLines [] wire = some (statusLine :: lines, rest) ∧
      readStatus statusLine = some r.status ∧ readFields lines = some r.fields ∧
      announced r.fields = some n ∧ n ≤ rest.length ∧ r.body = rest.take n := by
  constructor
  · intro h
    unfold receive at h
    split at h
    · cases h
    · cases h
    · rename_i statusLine lines rest hlines
      split at h
      · rename_i status fs hstatus hfs
        split at h
        · rename_i n hn
          split at h
          · rename_i hle
            cases h
            exact ⟨statusLine, lines, rest, n, hlines, hstatus, hfs, hn, hle, rfl⟩
          · cases h
        · cases h
      · cases h
  · rintro ⟨statusLine, lines, rest, n, hlines, hstatus, hfs, hn, hle, hbody⟩
    simp only [receive, hlines, hstatus, hfs, hn, if_pos hle, ← hbody]

/-- Every `Content-Length` says what the fields announce. -/
theorem announced_eq_some_iff {fs : List (Bytes × Bytes)} {n : Nat} :
    announced fs = some n ↔
      (∃ f ∈ fs, IsContentLength f) ∧ ∀ f ∈ fs, IsContentLength f → readNumber f.2 = some n := by
  have hmem : ∀ f, f ∈ fs.filter IsContentLength ↔ f ∈ fs ∧ IsContentLength f := by
    simp [List.mem_filter]
  unfold announced
  cases hfs : fs.filter IsContentLength with
  | nil =>
    -- No `Content-Length`, and so no length.
    rw [hfs] at hmem
    simp only [reduceCtorEq, false_iff]
    rintro ⟨⟨f, hf⟩, -⟩
    exact List.not_mem_nil ((hmem f).mpr hf)
  | cons f rest =>
    rw [hfs] at hmem
    -- The first one decides, and the others have to say the same.
    have hf := (hmem f).mp List.mem_cons_self
    constructor
    · intro h
      dsimp only at h
      split at h
      · rename_i hsame
        refine ⟨⟨f, hf⟩, fun g hg hlength => ?_⟩
        rcases List.mem_cons.mp ((hmem g).mpr ⟨hg, hlength⟩) with rfl | hrest
        · exact h
        · exact (hsame g hrest).trans h
      · cases h
    · intro h
      have hall : ∀ g ∈ rest, readNumber g.2 = some n := by
        intro g hg
        have hg := (hmem g).mp (List.mem_cons_of_mem f hg)
        exact h.2 g hg.1 hg.2
      have hhead := h.2 f hf.1 hf.2
      simp only [hhead]
      exact if_pos hall

/-- A client reads plain fields, and every `Content-Length` among them says how long the body
is. -/
theorem plain_of_receive {wire : Bytes} {r : Received} (h : receive wire = some r) :
    (∀ f ∈ r.fields, PlainField f) ∧
      ∀ f ∈ r.fields, IsContentLength f → readNumber f.2 = some r.body.length := by
  obtain ⟨statusLine, lines, rest, n, hlines, -, hfs, hn, hle, hbody⟩ := receive_eq_some_iff.mp h
  constructor
  · intro f hf
    obtain ⟨i, hi, rfl⟩ := List.getElem_of_mem hf
    have hforall := readFields_eq_some_iff.mp hfs
    have hlength := hforall.length_eq
    have hline := hforall.get (by omega) hi
    have hlf := lf_of_readLines List.not_mem_nil hlines
    exact plain_of_readField (hlf _ (List.mem_cons_of_mem _ (List.getElem_mem _))) hline
  · have hlength : r.body.length = n := by rw [hbody, List.length_take, Nat.min_eq_left hle]
    rw [hlength]
    exact (announced_eq_some_iff.mp hn).2

/-! ### Plain fields are read back -/

/-- The line of a field. -/
def headerLine (f : Bytes × Bytes) : Bytes := f.1 ++ bytes ": " ++ f.2

/-- The first line of a response. -/
def statusLine (status : Int) : Bytes :=
  bytes "HTTP/1.1 " ++ intToString status ++ bytes " " ++ reasonPhrase status

/-- The text of a response, line by line. -/
theorem formatHttpResponse_eq (res : Response) (entries : List (Bytes × Bytes)) :
    formatHttpResponse res entries =
      (statusLine res.status :: (entries ++ framing res).map headerLine).flatMap (· ++ crlf) ++
        (crlf ++ res.body) := by
  have hfold : ∀ out : Bytes,
      entries.foldl (fun out h => out ++ (h.1 ++ bytes ": " ++ h.2 ++ crlf)) out =
        out ++ (entries.map headerLine).flatMap (· ++ crlf) := by
    intro out
    induction entries generalizing out with
    | nil => simp
    | cons f entries ih =>
      rw [List.foldl_cons, ih]
      simp [headerLine]
  have hlength : bytes "Content-Length: " = bytes "Content-Length" ++ bytes ": " := by decide
  have hconnection : bytes "Connection: close" =
      bytes "Connection" ++ (bytes ": " ++ bytes "close") := by decide
  have hblank : blankLine = crlf ++ crlf := rfl
  unfold formatHttpResponse
  dsimp only
  rw [hfold]
  simp only [statusLine, framing, headerLine, List.map_append,
    List.map_cons, List.map_nil, List.flatMap_cons, List.flatMap_append, List.flatMap_nil,
    List.append_assoc, List.append_nil, hlength, hconnection, hblank]

/-- A line is read up to its line feed. -/
theorem readLines_append {l : Bytes} (hl : 10 ∉ l) (line s : Bytes) :
    readLines line (l ++ s) = readLines (line ++ l) s := by
  induction l generalizing line with
  | nil => rw [List.nil_append, List.append_nil]
  | cons c l ih =>
    rw [List.mem_cons, not_or] at hl
    rw [List.cons_append, readLines, if_neg (Ne.symm hl.1), ih hl.2, List.append_assoc]
    rfl

/-- Lines that are written are read back. -/
theorem readLines_write {lines : List Bytes} (h : ∀ l ∈ lines, l ≠ [] ∧ 10 ∉ l) (body : Bytes) :
    readLines [] (lines.flatMap (· ++ crlf) ++ (crlf ++ body)) = some (lines, body) := by
  have hstrip : ∀ l : Bytes, stripCr (l ++ [13]) = l := by simp [stripCr]
  induction lines with
  | nil => rfl
  | cons l lines ih =>
    have hl := h l List.mem_cons_self
    have hsplit : (l :: lines).flatMap (· ++ crlf) ++ (crlf ++ body) =
        (l ++ [13]) ++ 10 :: (lines.flatMap (· ++ crlf) ++ (crlf ++ body)) := by
      simp [crlf]
    have hlf : 10 ∉ l ++ [13] := by simp [hl.2]
    rw [hsplit, readLines_append hlf, List.nil_append, readLines, if_pos rfl, hstrip,
      if_neg hl.1, ih fun l' hl' => h l' (List.mem_cons_of_mem l hl')]
    rfl

/-- The line of a plain field is read back. -/
theorem readField_headerLine {f : Bytes × Bytes} (hf : PlainField f) :
    readField (headerLine f) = some f := by
  have hline : headerLine f = f.1 ++ 58 :: (32 :: f.2) := by
    simp [headerLine, bytes]
  have hcr : 13 ∉ headerLine f := by
    simp [hline, hf.name.cr, hf.value.cr]
  rw [readField, if_neg hcr, field_eq_some_iff.mpr ⟨hf.colon, hline⟩, Option.map_some,
    hf.name.trimmed, trim_blank_cons rfl, hf.value.trimmed]

theorem readFields_map_headerLine {fs : List (Bytes × Bytes)} (h : ∀ f ∈ fs, PlainField f) :
    readFields (fs.map headerLine) = some fs := by
  induction fs with
  | nil => rfl
  | cons f fs ih =>
    have ih := ih fun g hg => h g (List.mem_cons_of_mem f hg)
    simp only [List.map_cons, readFields, readField_headerLine (h f List.mem_cons_self), ih]

theorem readNumber_natToString (n : Nat) : readNumber (natToString n) = some n := by
  have hall : (natToString n).all isDigit :=
    List.all_eq_true.mpr fun _ hc => isDigit_of_mem_natToString hc
  rw [readNumber, if_pos ⟨natToString_ne_nil n, hall⟩, digitsValue_natToString]

theorem lf_of_reasonPhrase (status : Int) : 10 ∉ reasonPhrase status := by
  unfold reasonPhrase
  split <;> decide

theorem lf_of_statusLine (status : Int) : 10 ∉ statusLine status := by
  have hversion : 10 ∉ bytes "HTTP/1.1 " := by decide
  have hblank : 10 ∉ bytes " " := by decide
  have hstatus : 10 ∉ intToString status := not_mem_intToString rfl (by decide) status
  simp [statusLine, hversion, hblank, hstatus, lf_of_reasonPhrase]

theorem readStatus_statusLine (status : Int) : readStatus (statusLine status) = some status := by
  have hline : statusLine status =
      bytes "HTTP/1.1 " ++ (intToString status ++ 32 :: reasonPhrase status) := by
    simp [statusLine, bytes]
  have hdrop : (statusLine status).drop 9 = intToString status ++ 32 :: reasonPhrase status := by
    rw [hline]
    exact List.drop_left' rfl
  have htake : ((statusLine status).drop 9).takeWhile (· ≠ 32) = intToString status := by
    rw [hdrop, List.takeWhile_append_of_pos]
    · simp
    · intro c hc
      have hne : c ≠ 32 := by
        rintro rfl
        exact not_mem_intToString rfl (by decide) status hc
      simpa using hne
  rw [readStatus, if_pos (hline ▸ List.prefix_append _ _), htake, atoi_intToString]

theorem plain_framing (res : Response) : ∀ f ∈ framing res, PlainField f := by
  have hnumber : PlainText (natToString res.body.length) := by
    refine ⟨not_mem_natToString rfl _, not_mem_natToString rfl _, trim_of_no_blanks fun c hc => ?_⟩
    by_contra hblank
    simp only [isBlank, Bool.not_eq_false, Bool.or_eq_true, decide_eq_true_eq] at hblank
    rcases hblank with rfl | rfl
    · exact not_mem_natToString rfl _ hc
    · exact not_mem_natToString rfl _ hc
  have hlength : PlainText (bytes "Content-Length") := ⟨by decide, by decide, by decide⟩
  have hname : PlainText (bytes "Connection") := ⟨by decide, by decide, by decide⟩
  have hvalue : PlainText (bytes "close") := ⟨by decide, by decide, by decide⟩
  intro f hf
  simp only [framing, List.mem_cons, List.not_mem_nil, or_false] at hf
  rcases hf with rfl | rfl
  · exact ⟨hlength, show 58 ∉ bytes "Content-Length" by decide, hnumber⟩
  · exact ⟨hname, by decide, hvalue⟩

/-- **A response is read back exactly where its headers are plain.** -/
theorem recovered_iff {res : Response} {entries : List (Bytes × Bytes)}
    (h : Visits entries res.headers) : Recovered res entries ↔ PlainHeaders res := by
  constructor
  · rintro ⟨r, hr, -, hfields, hbody⟩ name value hlookup
    -- What was read are the fields that were sent, so each of them was plain.
    have hmem : (name, value) ∈ r.fields :=
      hfields.mem_iff.mpr (List.mem_append_left _ ((h.mem_iff name value).mpr hlookup))
    obtain ⟨hplain, hlength⟩ := plain_of_receive hr
    rw [hbody] at hlength
    exact ⟨hplain _ hmem, hlength _ hmem⟩
  · intro hplain
    have hentries : ∀ f ∈ entries, PlainField f ∧
        (IsContentLength f → readNumber f.2 = some res.body.length) := fun f hf =>
      hplain f.1 f.2 ((h.mem_iff f.1 f.2).mp hf)
    have hall : ∀ f ∈ entries ++ framing res, PlainField f := by
      intro f hf
      rcases List.mem_append.mp hf with hf | hf
      · exact (hentries f hf).1
      · exact plain_framing res f hf
    -- The length that the framing writes, and any that the handler wrote itself.
    have hannounced : announced (entries ++ framing res) = some res.body.length := by
      have hlength : IsContentLength (bytes "Content-Length", natToString res.body.length) := by
        show lower (bytes "Content-Length") = bytes "content-length"
        decide
      refine announced_eq_some_iff.mpr ⟨⟨_, ?_, hlength⟩, fun f hf hcontent => ?_⟩
      · simp [framing]
      · rcases List.mem_append.mp hf with hf | hf
        · exact (hentries f hf).2 hcontent
        · simp only [framing, List.mem_cons, List.not_mem_nil, or_false] at hf
          rcases hf with rfl | rfl
          · exact readNumber_natToString _
          · exact absurd hcontent (by decide)
    refine ⟨⟨res.status, entries ++ framing res, res.body⟩, ?_, rfl, .refl _, rfl⟩
    -- A line of plain parts has no line feed in it and is not the blank one.
    have hlines : ∀ l ∈ statusLine res.status :: (entries ++ framing res).map headerLine,
        l ≠ [] ∧ 10 ∉ l := by
      intro l hl
      rcases List.mem_cons.mp hl with rfl | hl
      · exact ⟨by simp [statusLine, bytes], lf_of_statusLine res.status⟩
      · obtain ⟨f, hf, rfl⟩ := List.mem_map.mp hl
        have hlf : 10 ∉ bytes ": " := by decide
        refine ⟨by simp [headerLine, bytes], ?_⟩
        simp [headerLine, (hall f hf).name.lf, (hall f hf).value.lf, hlf]
    rw [formatHttpResponse_eq]
    exact receive_eq_some_iff.mpr ⟨_, _, res.body, res.body.length, readLines_write hlines res.body,
      readStatus_statusLine _, readFields_map_headerLine hall, hannounced, le_rfl,
      List.take_length.symm⟩

/-- A JSON answer is read back. -/
theorem recovered_iff_applies :
    let res : Response := { status := 201, body := bytes "[]" }
    Recovered res [(bytes "Content-Type", bytes "text/plain")] ↔ PlainHeaders res :=
  recovered_iff (visits_singleton _ _)

/-- **A redirect to what the query says adds a header.** -/
theorem redirect_adds_header :
    let raw := bytes "GET /login?next=/%0D%0ASet-Cookie:lwsid%3Dmine HTTP/1.1\r\n\r\n"
    let url := bytes "/\r\nSet-Cookie:lwsid=mine"
    let entries := [(bytes "Content-Type", bytes "text/plain"), (bytes "Location", url)]
    ((parseHttpRequest raw).bind fun req => req.query.lookup (bytes "next")) = some url ∧
      Visits entries (Response.redirect url).headers ∧
      receive (formatHttpResponse (Response.redirect url) entries) = some
        { status := 302
          fields := [(bytes "Content-Type", bytes "text/plain"), (bytes "Location", bytes "/"),
            (bytes "Set-Cookie", bytes "lwsid=mine"), (bytes "Content-Length", bytes "0"),
            (bytes "Connection", bytes "close")]
          body := [] } ∧
      ¬ Recovered (Response.redirect url) entries := by
  intro raw url entries
  have hread : receive (formatHttpResponse (Response.redirect url) entries) = some
      { status := 302
        fields := [(bytes "Content-Type", bytes "text/plain"), (bytes "Location", bytes "/"),
          (bytes "Set-Cookie", bytes "lwsid=mine"), (bytes "Content-Length", bytes "0"),
          (bytes "Connection", bytes "close")]
        body := [] } := by
    decide
  refine ⟨by decide +kernel, (visits_singleton _ _).insert (by decide) url, hread, ?_⟩
  rintro ⟨r, hr, -, hperm, -⟩
  rw [hread] at hr
  cases hr
  exact absurd hperm.length_eq (by decide)

end CppLaravel.Http
