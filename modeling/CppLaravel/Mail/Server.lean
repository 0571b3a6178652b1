import CppLaravel.Http.Message
import CppLaravel.Lib.DotLines

/-!
# `CppLaravel.Mail.Server`: a server that the mail transport speaks to

What a server understands of the bytes it is sent, by the rules of RFC 5321. It reads lines that end
at a carriage return and a line feed. A line is a command, unless `DATA` has been accepted: then it
belongs to the message, which ends at the first line that is a single dot, and a dot in front of a
line is removed. Mailboxes are not looked at; every one is accepted.
-/

set_option autoImplicit false

namespace CppLaravel.Smtp

open CppLaravel.Lib CppLaravel.Http

/-- What a server has understood. -/
inductive Seen where
  /-- A command line. -/
  | command (line : Bytes)
  /-- A message with its envelope. -/
  | message (sender : Bytes) (recipients : List Bytes) (content : Bytes)
  deriving DecidableEq

/-- Where a server stands. -/
inductive Server where
  /-- The client has not said `HELO`. -/
  | greeting
  | ready
  /-- `MAIL` has been accepted. -/
  | transaction (sender : Bytes) (recipients : List Bytes)
  /-- `DATA` has been accepted. -/
  | data (sender : Bytes) (recipients : List Bytes) (content : Bytes)
  /-- `QUIT` has been accepted. -/
  | closed

/-- The mailbox between the brackets of a command that begins with `verb`; upper and lower case are
alike. -/
def mailbox (verb line : Bytes) : Option Bytes :=
  if lower verb <+: lower line ∧ [62] <:+ line then some (line.drop verb.length).dropLast
  else none

/-- `HELO` or `EHLO`. -/
def isHello (line : Bytes) : Bool :=
  bytes "helo " <+: lower line || bytes "ehlo " <+: lower line

/-- The server after a command. A command that is out of place changes nothing. -/
def Server.execute (line : Bytes) : Server → Server
  | .greeting =>
    if lower line = bytes "quit" then .closed
    else if isHello line then .ready
    else .greeting
  | .ready =>
    if lower line = bytes "quit" then .closed
    else match mailbox (bytes "MAIL FROM:<") line with
      | some sender => .transaction sender []
      | none => .ready
  | .transaction sender recipients =>
    if lower line = bytes "quit" then .closed
    else if isHello line ∨ lower line = bytes "rset" then .ready
    else if lower line = bytes "data" ∧ recipients ≠ [] then .data sender recipients []
    else match mailbox (bytes "RCPT TO:<") line with
      | some recipient => .transaction sender (recipients ++ [recipient])
      | none => .transaction sender recipients
  | server => server

/-- A server reads a line. -/
def Server.receive (line : Bytes) : Server → Server × List Seen
  | .closed => (.closed, [])
  | .data sender recipients content =>
    if line = [46] then (.ready, [.message sender recipients content])
    else (.data sender recipients (content ++ lineText 13 10 (unstuff 46 line)), [])
  | server => (server.execute line, [.command line])

/-- What a server sees in lines. -/
def Server.sees : Server → List Bytes → List Seen
  | _, [] => []
  | server, line :: rest => (server.receive line).2 ++ (server.receive line).1.sees rest

/-- What a server sees in the bytes of a connection. -/
def sees (s : Bytes) : List Seen := Server.greeting.sees (lines 13 10 s)

end CppLaravel.Smtp
