import CppLaravel.WebSocket.Frame

/-!
# `CppLaravel.WebSocket.Connection`: receiving messages (`include/websocket_server.hpp`)

`receive` is `ws::Connection::receive`: it takes frames off the front of the buffer, filling
it from the socket as needed (`awaitFrame`), answers control frames, and returns the next
message, put together from its fragments (`handleFrame`). The socket is the list of what the
next calls of `recv` return; when it is used up, the peer has closed. What the connection
writes back is accepted by the peer.

`receive` is total: every round of its loop takes at least two bytes off the stream.
-/

set_option autoImplicit false

namespace CppLaravel.WebSocket

/-- `Connection`: what `receive` uses of it, with both directions of the socket. -/
structure Connection where
  buf : Bytes := []
  maxMessageBytes : Nat := 2 ^ 20
  requireMasked : Bool := true
  inbox : List Bytes := []
  sent : Bytes := []

/-- `send_control`. -/
def Connection.sendControl (c : Connection) (out : Bytes) : Connection :=
  { c with sent := c.sent ++ out }

/-- What a call of `receive` ends with: a message, `std::nullopt`, or the exception that
`parse_frame` throws. -/
inductive Received
  | message (payload : Bytes)
  | closed
  | lengthError
deriving DecidableEq

/-- What the inner loop of `receive` ends with. -/
inductive Awaited
  | frame (f : Frame)
  | closed
  | lengthError
deriving DecidableEq

/-- What the inner loop ends with before it calls `recv`, if it does. -/
def frameIn (maxMessageBytes : Nat) (buf : Bytes) : Option Awaited :=
  match parseFrame buf maxMessageBytes with
  | none => some .lengthError
  | some f => if !f.ok && !f.tooBig then none else some (.frame f)

/-- The inner loop of `receive`: calls `recv` until the buffer holds a frame. -/
def awaitFrame (maxMessageBytes : Nat) (buf : Bytes) : List Bytes → Awaited × Bytes × List Bytes
  | [] => ((frameIn maxMessageBytes buf).getD .closed, buf, [])
  | chunk :: inbox =>
    match frameIn maxMessageBytes buf with
    | some r => (r, buf, chunk :: inbox)
    | none =>
      if chunk = [] then (.closed, buf, inbox)
      else awaitFrame maxMessageBytes (buf ++ chunk) inbox

/-- The locals of `receive`: the message so far, and whether one is in progress. -/
structure Assembly where
  message : Bytes := []
  fragmenting : Bool := false

/-- How the outer loop of `receive` goes on after a frame. -/
inductive Next
  | again (asm : Assembly)
  | done (r : Received)

/-- The `switch` of `receive`: what is written back, and how the loop goes on. -/
def handleFrame (maxMessageBytes : Nat) (asm : Assembly) (f : Frame) : Bytes × Next :=
  match f.opcode with
  | .close =>
    match f.payload with
    | hi :: lo :: _ => (encodeCloseCode ((hi.toUInt16 <<< 8) ||| lo.toUInt16), .done .closed)
    | _ => (encodeClose, .done .closed)
  | .ping => (encodePong f.payload, .again asm)
  | .pong => ([], .again asm)
  | .text | .binary =>
    if asm.fragmenting then (encodeCloseCode 1002, .done .closed)
    else if f.fin then ([], .done (.message f.payload))
    else ([], .again ⟨f.payload, true⟩)
  | .continuation =>
    if !asm.fragmenting then (encodeCloseCode 1002, .done .closed)
    else if maxMessageBytes < (asm.message.length + f.payload.length) % 2 ^ 64 then
      (encodeCloseCode 1009, .done .closed)
    else
      let message := asm.message ++ f.payload
      if f.fin then ([], .done (.message message))
      else ([], .again { asm with message := message })
  -- A code without an enumerator matches no case.
  | .unnamed _ => ([], .again asm)

section
variable {maxMessageBytes : Nat} {asm : Assembly} {f : Frame}

theorem handleFrame_of_ping (h : f.opcode = .ping) :
    handleFrame maxMessageBytes asm f = (encodePong f.payload, .again asm) := by
  rw [handleFrame, h]

theorem handleFrame_of_pong (h : f.opcode = .pong) :
    handleFrame maxMessageBytes asm f = ([], .again asm) := by
  rw [handleFrame, h]

/-- A data frame outside a message is a message, or begins one. -/
theorem handleFrame_of_data (h : f.opcode = .text ∨ f.opcode = .binary)
    (hasm : asm.fragmenting = false) : handleFrame maxMessageBytes asm f =
      ([], if f.fin then .done (.message f.payload) else .again ⟨f.payload, true⟩) := by
  rw [handleFrame]
  cases h with
  | inl h =>
    rw [h, hasm]
    cases f.fin <;> rfl
  | inr h =>
    rw [h, hasm]
    cases f.fin <;> rfl

/-- A continuation within the cap goes on with the message, or ends it. -/
theorem handleFrame_of_continuation (h : f.opcode = .continuation)
    (hasm : asm.fragmenting = true)
    (hfit : (asm.message.length + f.payload.length) % 2 ^ 64 ≤ maxMessageBytes) :
    handleFrame maxMessageBytes asm f =
      ([], if f.fin then .done (.message (asm.message ++ f.payload))
        else .again ⟨asm.message ++ f.payload, true⟩) := by
  rw [handleFrame, h, hasm]
  dsimp only
  rw [Bool.not_true, if_neg Bool.false_ne_true, if_neg (not_lt.mpr hfit)]
  cases f.fin with
  | true => rfl
  | false => rw [if_neg Bool.false_ne_true, if_neg Bool.false_ne_true, ← hasm]

end

/-- The frame that ends the inner loop is one that the buffer holds, or is refused. -/
theorem parseFrame_of_frameIn {maxMessageBytes : Nat} {buf : Bytes} {f : Frame}
    (h : frameIn maxMessageBytes buf = some (.frame f)) :
    parseFrame buf maxMessageBytes = some f ∧ (f.ok ∨ f.tooBig) := by
  rw [frameIn] at h
  split at h
  · cases h
  · rename_i g hg
    split at h
    · cases h
    · rename_i hcond
      cases h
      refine ⟨hg, ?_⟩
      by_contra hnone
      simp only [not_or, Bool.not_eq_true] at hnone
      rw [hnone.1, hnone.2] at hcond
      exact hcond rfl

/-- The inner loop goes on only while the parser waits. -/
theorem parseFrame_of_frameIn_none {maxMessageBytes : Nat} {buf : Bytes}
    (h : frameIn maxMessageBytes buf = none) :
    ∃ f, parseFrame buf maxMessageBytes = some f ∧ f.ok = false ∧ f.tooBig = false := by
  rw [frameIn] at h
  split at h
  · cases h
  · rename_i f hf
    split at h
    · rename_i hcond
      rw [Bool.and_eq_true, Bool.not_eq_true', Bool.not_eq_true'] at hcond
      exact ⟨f, hf, hcond⟩
    · cases h

/-- The inner loop loses and adds no byte of the stream, and ends with a frame only when the
buffer holds one. -/
theorem awaitFrame_spec {maxMessageBytes : Nat} {buf buf' : Bytes} {inbox inbox' : List Bytes}
    {r : Awaited} (h : awaitFrame maxMessageBytes buf inbox = (r, buf', inbox')) :
    buf' ++ inbox'.flatten = buf ++ inbox.flatten ∧
      ∀ f, r = .frame f → parseFrame buf' maxMessageBytes = some f ∧ (f.ok ∨ f.tooBig) := by
  induction inbox generalizing buf with
  | nil =>
    rw [awaitFrame] at h
    cases h
    refine ⟨rfl, fun f hr => parseFrame_of_frameIn ?_⟩
    cases hin : frameIn maxMessageBytes buf' with
    | none =>
      rw [hin] at hr
      cases hr
    | some r' =>
      rw [hin] at hr
      exact congrArg some hr
  | cons chunk inbox ih =>
    rw [awaitFrame] at h
    cases hin : frameIn maxMessageBytes buf with
    | some r' =>
      rw [hin] at h
      cases h
      refine ⟨rfl, fun f hr => parseFrame_of_frameIn ?_⟩
      rw [hin, hr]
    | none =>
      rw [hin] at h
      dsimp only at h
      split at h
      · rename_i hchunk
        cases h
        subst chunk
        exact ⟨rfl, fun f hr => by cases hr⟩
      · obtain ⟨hstream, hr⟩ := ih h
        rw [List.append_assoc] at hstream
        exact ⟨hstream, hr⟩

/-- The outer loop of `receive`. -/
def receiveLoop (c : Connection) (asm : Assembly) : Received × Connection :=
  match _h : awaitFrame c.maxMessageBytes c.buf c.inbox with
  | (.closed, buf, inbox) => (.closed, { c with buf := buf, inbox := inbox })
  | (.lengthError, buf, inbox) => (.lengthError, { c with buf := buf, inbox := inbox })
  | (.frame f, buf, inbox) =>
    if _htooBig : f.tooBig then
      (.closed, { c with buf := buf, inbox := inbox }.sendControl (encodeCloseCode 1009))
    else if c.requireMasked && !f.masked then
      (.closed, { c with buf := buf, inbox := inbox }.sendControl (encodeCloseCode 1002))
    else
      let (reply, next) := handleFrame c.maxMessageBytes asm f
      let c' := { c with buf := buf.drop f.consumed, inbox := inbox }.sendControl reply
      match next with
      | .done r => (r, c')
      | .again asm => receiveLoop c' asm
termination_by c.buf.length + c.inbox.flatten.length
decreasing_by
  obtain ⟨hstream, hf⟩ := awaitFrame_spec ‹_›
  obtain ⟨hparse, hok⟩ := hf f rfl
  obtain ⟨-, hpos, hle⟩ := parseFrame_spec hparse (hok.resolve_right _htooBig)
  have hlen := congrArg List.length hstream
  rw [List.length_append, List.length_append] at hlen
  show (buf.drop f.consumed).length + inbox.flatten.length < _
  rw [List.length_drop]
  omega

/-- `receive`. -/
def receive (c : Connection) : Received × Connection := receiveLoop c {}

/-- What `n` calls of `receive` return, one after the other. -/
def receives : Nat → Connection → List Received × Connection
  | 0, c => ([], c)
  | n + 1, c =>
    let (r, c) := receive c
    let (rs, c) := receives n c
    (r :: rs, c)

end CppLaravel.WebSocket
