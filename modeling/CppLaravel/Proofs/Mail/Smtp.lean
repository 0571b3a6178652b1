import CppLaravel.Mail.Server
import CppLaravel.Mail.Smtp

/-!
# `CppLaravel.Proofs.Mail.Smtp`: when a server reads the mail that was sent

A mail is put behind `DATA` as it is, so a line of it that begins with a dot loses the dot, and one
that is a single dot ends the message. `delivers_iff` says that a server sees the message, and
nothing else, exactly if no line of it begins with a dot (`Plain`).
-/

set_option autoImplicit false

namespace CppLaravel.Smtp

open CppLaravel.Lib CppLaravel.Http

/-! ### The lines that are sent -/

/-- The commands in front of the message. -/
def envelope (from_ : Bytes) (m : Mail) : List Bytes :=
  [ bytes "HELO localhost", bytes "MAIL FROM:<" ++ from_ ++ bytes ">",
    bytes "RCPT TO:<" ++ m.to_ ++ bytes ">", bytes "DATA" ]

/-- The lines of a message. -/
def messageLines (from_ : Bytes) (m : Mail) : List Bytes := lines 13 10 (formatEmail from_ m)

theorem cr_ne_lf : (13 : UInt8) ≠ 10 := by decide

theorem formatEmail_eq_lineText (from_ : Bytes) (m : Mail) :
    formatEmail from_ m =
      lineText 13 10 (bytes "From: " ++ from_ ++ crlf ++ bytes "To: " ++ m.to_ ++ crlf ++
        bytes "Subject: " ++ m.subject ++ crlf ++ crlf ++ m.body) := rfl

/-- A line without a carriage return comes before the lines of what follows. -/
theorem lines_line_append {l : Bytes} (h : (13 : UInt8) ∉ l) (s : Bytes) :
    lines 13 10 (l ++ crlf ++ s) = l :: lines 13 10 s := by
  have happend := lines_append 13 10 cr_ne_lf l s
  rw [lines_of_notMem 13 10 h] at happend
  exact happend

/-- The lines of the envelope have no carriage return. -/
theorem notMem_envelope {from_ : Bytes} {m : Mail} (hfrom : (13 : UInt8) ∉ from_)
    (hto : (13 : UInt8) ∉ m.to_) {l : Bytes} (hl : l ∈ envelope from_ m) : (13 : UInt8) ∉ l := by
  have hgt : (13 : UInt8) ∉ bytes ">" := by decide
  simp only [envelope, List.mem_cons, List.not_mem_nil, or_false] at hl
  rcases hl with rfl | rfl | rfl | rfl
  · decide
  · simp only [List.mem_append, not_or]
    exact ⟨⟨by decide, hfrom⟩, hgt⟩
  · simp only [List.mem_append, not_or]
    exact ⟨⟨by decide, hto⟩, hgt⟩
  · decide

/-- **The lines that are sent**: the envelope, the lines of the message, the dot and `QUIT`. -/
theorem lines_written {from_ : Bytes} {m : Mail} (hfrom : (13 : UInt8) ∉ from_)
    (hto : (13 : UInt8) ∉ m.to_) :
    lines 13 10 (written from_ m) =
      envelope from_ m ++ (messageLines from_ m ++ [46] :: [bytes "QUIT"]) := by
  have hwritten : written from_ m =
      (envelope from_ m).flatMap (fun cmd => cmd ++ crlf) ++
        (formatEmail from_ m ++ ([46] ++ crlf ++ (bytes "QUIT" ++ crlf ++ []))) := by
    simp only [written, smtpCommands, envelope, List.flatMap_cons, List.flatMap_nil,
      List.append_assoc, List.append_nil]
    rfl
  -- Each command ends its line, so the lines begin with the commands.
  have henvelope : ∀ (ls : List Bytes) (s : Bytes), (∀ l ∈ ls, (13 : UInt8) ∉ l) →
      lines 13 10 (ls.flatMap (fun cmd => cmd ++ crlf) ++ s) = ls ++ lines 13 10 s := by
    intro ls s hls
    induction ls with
    | nil => rfl
    | cons l ls ih =>
      rw [List.forall_mem_cons] at hls
      rw [List.flatMap_cons, List.append_assoc, lines_line_append hls.1, ih hls.2]
      rfl
  rw [hwritten, henvelope _ _ fun l hl => notMem_envelope hfrom hto hl, formatEmail_eq_lineText,
    lines_append 13 10 cr_ne_lf, lines_line_append (by decide), lines_line_append (by decide)]
  rfl

/-! ### What a server sees of a message -/

/-- **A server reads a message as a block of lines.** -/
theorem sees_data (sender : Bytes) (recipients : List Bytes) (content : Bytes)
    (ls : List Bytes) :
    (Server.data sender recipients content).sees ls =
      match block 46 ls with
      | none => []
      | some (message, rest) =>
        .message sender recipients (content ++ message.flatMap (lineText 13 10)) ::
          Server.ready.sees rest := by
  induction ls generalizing content with
  | nil => rfl
  | cons l ls ih =>
    rw [Server.sees, Server.receive, block]
    split
    · show Seen.message sender recipients content :: Server.ready.sees ls =
        Seen.message sender recipients (content ++ []) :: Server.ready.sees ls
      rw [List.append_nil]
    · rw [List.nil_append, ih]
      cases block 46 ls with
      | none => rfl
      | some read =>
        rw [Option.map_some]
        dsimp only
        rw [List.flatMap_cons, List.append_assoc]

/-- The mailbox of a command. -/
theorem mailbox_append (verb box : Bytes) :
    mailbox verb (verb ++ box ++ bytes ">") = some box := by
  have hverb : lower verb <+: lower (verb ++ box ++ bytes ">") := by
    rw [lower, lower, List.append_assoc, List.map_append]
    exact List.prefix_append _ _
  have hbracket : [62] <:+ verb ++ box ++ bytes ">" := List.suffix_append _ _
  rw [mailbox, if_pos ⟨hverb, hbracket⟩, List.append_assoc, List.drop_left' rfl]
  exact congrArg some List.dropLast_concat

/-! ### The commands in front of it -/

/-- A line is not a command whose first letters are others. -/
theorem lower_ne_of_take {line verb : Bytes} {n : Nat}
    (h : (lower line).take n ≠ verb.take n) : lower line ≠ verb := fun heq => h (by rw [heq])

theorem execute_mail (box : Bytes) :
    Server.ready.execute (bytes "MAIL FROM:<" ++ box ++ bytes ">") = .transaction box [] := by
  have hletters : (lower (bytes "MAIL FROM:<" ++ box ++ bytes ">")).take 4 = bytes "mail" := rfl
  have hquit : lower (bytes "MAIL FROM:<" ++ box ++ bytes ">") ≠ bytes "quit" :=
    lower_ne_of_take (n := 4) (by rw [hletters]; decide)
  rw [Server.execute, if_neg hquit, mailbox_append]

theorem execute_rcpt (sender : Bytes) (recipients : List Bytes) (box : Bytes) :
    (Server.transaction sender recipients).execute (bytes "RCPT TO:<" ++ box ++ bytes ">") =
      .transaction sender (recipients ++ [box]) := by
  have hletters : (lower (bytes "RCPT TO:<" ++ box ++ bytes ">")).take 5 = bytes "rcpt " := rfl
  have hne : ∀ verb : Bytes, verb.take 5 ≠ bytes "rcpt " →
      lower (bytes "RCPT TO:<" ++ box ++ bytes ">") ≠ verb := fun verb hverb =>
    lower_ne_of_take (n := 5) (by rw [hletters]; exact hverb.symm)
  have hhello : ¬ (isHello (bytes "RCPT TO:<" ++ box ++ bytes ">") = true ∨
      lower (bytes "RCPT TO:<" ++ box ++ bytes ">") = bytes "rset") := by
    intro h
    cases h with
    | inl hhello => exact Bool.false_ne_true hhello
    | inr hrset => exact hne _ (by decide) hrset
  have hdata : ¬ (lower (bytes "RCPT TO:<" ++ box ++ bytes ">") = bytes "data" ∧
      recipients ≠ []) := fun h => hne _ (by decide) h.1
  rw [Server.execute, if_neg (hne _ (by decide)), if_neg hhello, if_neg hdata, mailbox_append]

theorem execute_data (sender : Bytes) {recipients : List Bytes} (h : recipients ≠ []) :
    (Server.transaction sender recipients).execute (bytes "DATA") =
      .data sender recipients [] := by
  have hdata : lower (bytes "DATA") = bytes "data" := by decide
  rw [Server.execute, if_neg (by decide), if_neg (by decide), if_pos ⟨hdata, h⟩]

/-- **Behind the envelope the server reads the message.** -/
theorem sees_envelope (from_ : Bytes) (m : Mail) (rest : List Bytes) :
    Server.greeting.sees (envelope from_ m ++ rest) =
      (envelope from_ m).map .command ++ (Server.data from_ [m.to_] []).sees rest := by
  have hhello : Server.greeting.execute (bytes "HELO localhost") = .ready := by
    rw [Server.execute, if_neg (by decide), if_pos (by decide)]
  have hmail := execute_mail from_
  have hrcpt := execute_rcpt from_ [] m.to_
  have hdata := execute_data from_ (List.cons_ne_nil m.to_ [])
  simp only [envelope, List.cons_append, List.nil_append, Server.sees, Server.receive, hhello,
    hmail, hrcpt, hdata, List.map_cons, List.map_nil]

/-! ### The lines of a message -/

/-- No line of the message begins with a dot: the body does not, and no line end in the subject or
in the body has a dot behind it. -/
def Plain (m : Mail) : Prop :=
  ¬ crlf ++ bytes "." <:+: m.subject ∧ ¬ bytes "." <+: m.body ∧ ¬ crlf ++ bytes "." <:+: m.body

theorem messageLines_eq {from_ : Bytes} {m : Mail} (hfrom : (13 : UInt8) ∉ from_)
    (hto : (13 : UInt8) ∉ m.to_) :
    messageLines from_ m =
      [bytes "From: " ++ from_, bytes "To: " ++ m.to_] ++
        (linesFrom 13 10 (bytes "Subject: ") (lineText 13 10 m.subject) ++
          [] :: lines 13 10 (lineText 13 10 m.body)) := by
  have hformat : formatEmail from_ m =
      bytes "From: " ++ from_ ++ crlf ++ (bytes "To: " ++ m.to_ ++ crlf ++
        (lineText 13 10 (bytes "Subject: " ++ m.subject) ++
          ([] ++ crlf ++ lineText 13 10 m.body))) := by
    simp only [formatEmail, lineText, List.append_assoc, List.nil_append]
    rfl
  have hheader : ∀ name : Bytes, ∀ text : Bytes, (13 : UInt8) ∉ name → (13 : UInt8) ∉ text →
      (13 : UInt8) ∉ name ++ text := fun name text hname htext h =>
    (List.mem_append.mp h).elim hname htext
  -- The subject is written behind its name, and only its first line is lengthened.
  have hsubject : lines 13 10 (lineText 13 10 (bytes "Subject: " ++ m.subject)) =
      linesFrom 13 10 (bytes "Subject: ") (lineText 13 10 m.subject) := by
    rw [lines, lineText, List.append_assoc, linesFrom_of_notMem 13 10 (by decide)]
    rfl
  rw [messageLines, hformat, lines_line_append (hheader _ _ (by decide) hfrom),
    lines_line_append (hheader _ _ (by decide) hto), lines_append 13 10 cr_ne_lf, hsubject,
    lines_line_append List.not_mem_nil]
  rfl

/-- **Which messages have a line that begins with a dot.** -/
theorem exists_dot_line_messageLines {from_ : Bytes} {m : Mail} (hfrom : (13 : UInt8) ∉ from_)
    (hto : (13 : UInt8) ∉ m.to_) :
    (∃ l ∈ messageLines from_ m, [46] <+: l) ↔ ¬ Plain m := by
  have hdot : (46 : UInt8) ≠ 13 := by decide
  have hsubject := exists_dot_line_iff 13 10 cr_ne_lf hdot (bytes "Subject: ") m.subject
  have hbody := exists_dot_line_iff 13 10 cr_ne_lf hdot [] m.body
  have hname : ¬ [46] <+: bytes "Subject: " ++ m.subject := fun h =>
    absurd (List.cons_prefix_cons.mp h).1 (by decide)
  -- The lines of the two addresses begin with their names.
  have hheaders : ¬ ∃ l ∈ [bytes "From: " ++ from_, bytes "To: " ++ m.to_], [46] <+: l := by
    intro h
    rw [List.exists_mem_cons_iff, List.exists_mem_cons_iff] at h
    rcases h with h | h | h
    · exact absurd (List.cons_prefix_cons.mp h).1 (by decide)
    · exact absurd (List.cons_prefix_cons.mp h).1 (by decide)
    · obtain ⟨l, hl, -⟩ := h
      cases hl
  have hblank : ¬ [46] <+: ([] : Bytes) := by decide
  rw [or_iff_right hname] at hsubject
  have happend : ∀ ls ls' : List Bytes, (∃ l ∈ ls ++ ls', [46] <+: l) ↔
      (∃ l ∈ ls, [46] <+: l) ∨ ∃ l ∈ ls', [46] <+: l := fun ls ls' => by
    simp only [List.mem_append, or_and_right, exists_or]
  rw [messageLines_eq hfrom hto, happend, or_iff_right hheaders, happend,
    List.exists_mem_cons_iff, or_iff_right hblank, hsubject, lines, hbody]
  show _ ↔ ¬ (_ ∧ _ ∧ _)
  rw [← not_or, ← not_or, not_not]
  rfl

/-! ### What a server sees -/

/-- A server sees the commands of the envelope, the message and `QUIT`, and nothing else. -/
def Delivers (from_ : Bytes) (m : Mail) : Prop :=
  sees (written from_ m) =
    (envelope from_ m).map .command ++
      [.message from_ [m.to_] (formatEmail from_ m), .command (bytes "QUIT")]

/-- The lines of the message are the message. -/
theorem flatMap_messageLines (from_ : Bytes) (m : Mail) :
    (messageLines from_ m).flatMap (lineText 13 10) = formatEmail from_ m := by
  rw [messageLines, formatEmail_eq_lineText]
  exact flatMap_lines 13 10 cr_ne_lf _

/-- **A mail arrives as it was sent exactly if no line of it begins with a dot.** -/
theorem delivers_iff {from_ : Bytes} {m : Mail}
    (hfrom : (13 : UInt8) ∉ from_ ∧ (10 : UInt8) ∉ from_)
    (hto : (13 : UInt8) ∉ m.to_ ∧ (10 : UInt8) ∉ m.to_) : Delivers from_ m ↔ Plain m := by
  have hdots := exists_dot_line_messageLines hfrom.1 hto.1
  rw [Delivers, sees, lines_written hfrom.1 hto.1, sees_envelope, List.append_cancel_left_eq,
    sees_data]
  constructor
  · intro h
    by_contra hplain
    -- A line begins with a dot, so what is read is shorter than what was sent.
    have hdot := hdots.mpr hplain
    cases hblock : block 46 (messageLines from_ m ++ [46] :: [bytes "QUIT"]) with
    | none =>
      rw [hblock] at h
      cases h
    | some read =>
      have hshort : (read.1.flatMap (lineText 13 10)).length <
          ((messageLines from_ m).flatMap (lineText 13 10)).length :=
        length_lt_of_block hdot hblock
      rw [hblock] at h
      injection h with hmessage
      injection hmessage with _ _ hcontent
      rw [List.nil_append] at hcontent
      rw [hcontent, flatMap_messageLines] at hshort
      exact Nat.lt_irrefl _ hshort
  · intro hplain
    have hno : ∀ l ∈ messageLines from_ m, ¬ [46] <+: l := fun l hl hdot =>
      hdots.mp ⟨l, hl, hdot⟩ hplain
    rw [block_of_plain hno]
    show [Seen.message from_ [m.to_] ([] ++ _), Seen.command (bytes "QUIT")] = _
    rw [List.nil_append, flatMap_messageLines]

/-- A mail of which every line begins with a letter arrives. -/
theorem delivers_iff_welcome :
    Delivers (bytes "app@x.io") ⟨bytes "ann@x.io", bytes "Hi", bytes "Welcome.\r\nBye."⟩ :=
  (delivers_iff (by decide) (by decide)).mpr ⟨by decide, by decide, by decide⟩

/-- A mail with a second one in its body, behind a line that is a single dot. -/
def smuggling : Mail where
  to_ := bytes "ann@x.io"
  subject := bytes "Hi"
  body := bytes "hi\r\n.\r\nMAIL FROM:<eve@x.io>\r\nRCPT TO:<bob@x.io>\r\nDATA\r\nspam"

/-- The server sees the second mail too. -/
theorem second_mail_is_smuggled :
    (∀ box ∈ [bytes "app@x.io", smuggling.to_], (13 : UInt8) ∉ box ∧ (10 : UInt8) ∉ box) ∧
      .message (bytes "eve@x.io") [bytes "bob@x.io"] (bytes "spam\r\n") ∈
        sees (written (bytes "app@x.io") smuggling) ∧
      ¬ Delivers (bytes "app@x.io") smuggling := by
  have hsees : sees (written (bytes "app@x.io") smuggling) =
      (envelope (bytes "app@x.io") smuggling).map .command ++
        [ .message (bytes "app@x.io") [bytes "ann@x.io"]
            (bytes "From: app@x.io\r\nTo: ann@x.io\r\nSubject: Hi\r\n\r\nhi\r\n"),
          .command (bytes "MAIL FROM:<eve@x.io>"), .command (bytes "RCPT TO:<bob@x.io>"),
          .command (bytes "DATA"),
          .message (bytes "eve@x.io") [bytes "bob@x.io"] (bytes "spam\r\n"),
          .command (bytes "QUIT") ] := by
    decide
  refine ⟨by decide, ?_, ?_⟩
  · rw [hsees]
    decide
  · rw [Delivers, hsees]
    decide

end CppLaravel.Smtp
