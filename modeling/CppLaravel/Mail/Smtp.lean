import CppLaravel.Http.Message

/-!
# `CppLaravel.Mail.Smtp`: the SMTP mail transport (`include/smtp.hpp`, `include/mail.hpp`)

`send` writes the commands one after the other, each with a line end, and waits for a reply that it
does not look at; what the server is sent is the same whatever it replies.
-/

set_option autoImplicit false

namespace CppLaravel.Smtp

open CppLaravel.Http

/-- `Mail`. -/
structure Mail where
  to_ : Bytes
  subject : Bytes
  body : Bytes

/-- `format_email`. -/
def formatEmail (from_ : Bytes) (m : Mail) : Bytes :=
  bytes "From: " ++ from_ ++ crlf ++ bytes "To: " ++ m.to_ ++ crlf ++ bytes "Subject: " ++
    m.subject ++ crlf ++ crlf ++ m.body ++ crlf

/-- `smtp_commands`. -/
def smtpCommands (from_ : Bytes) (m : Mail) : List Bytes :=
  [ bytes "HELO localhost",
    bytes "MAIL FROM:<" ++ from_ ++ bytes ">",
    bytes "RCPT TO:<" ++ m.to_ ++ bytes ">",
    bytes "DATA",
    -- The lone dot terminates `DATA`.
    formatEmail from_ m ++ bytes ".",
    bytes "QUIT" ]

/-- What `SmtpMailer::send` writes. -/
def written (from_ : Bytes) (m : Mail) : Bytes :=
  (smtpCommands from_ m).flatMap fun cmd => cmd ++ crlf

end CppLaravel.Smtp
