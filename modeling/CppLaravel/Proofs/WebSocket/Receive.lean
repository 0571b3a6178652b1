import CppLaravel.Lib.Chunks
import CppLaravel.Proofs.WebSocket.Wire
import CppLaravel.WebSocket.Connection

/-!
# `CppLaravel.Proofs.WebSocket.Receive`: what a peer sends is what is received

A `Message` is a message as a peer may send it: split into any fragments, with control
frames before the first and between any two. Every frame has its own form of the length
field and its own masking key.

`receives_messages` proves that successive calls of `receive` return exactly the messages
sent, however the bytes are cut into chunks, and that the connection writes back exactly one
Pong for each Ping.

The proof follows the stream. `At` says which bytes a connection has still to take, whether
they are in its buffer or not, and what it has written back. `receiveLoop_frame` takes one
frame off the stream; the lemmas after it are inductions over the control frames, over the
fragments and over the messages.
-/

set_option autoImplicit false

namespace CppLaravel.WebSocket

open CppLaravel.Lib

/-! ### What the peer sends -/

/-- A Ping, or else a Pong. -/
structure Control where
  isPing : Bool
  payload : Bytes
  short : payload.length ≤ 125
  form : LengthForm
  fits : form.Fits payload.length
  key : MaskKey

/-- A fragment of a message. -/
structure Fragment where
  payload : Bytes
  form : LengthForm
  fits : form.Fits payload.length
  key : MaskKey

/-- A message: its fragments, each with the control frames sent before it. -/
structure Message where
  before : List Control
  binary : Bool
  head : Fragment
  tail : List (List Control × Fragment)

/-- The control frame. -/
def Control.frame (c : Control) : WireFrame where
  fin := true
  opcode := if c.isPing then .ping else .pong
  named := by
    intro code
    cases c.isPing <;> exact Opcode.noConfusion
  payload := c.payload
  form := c.form
  fits := c.fits
  key := some c.key

/-- The answer to a Ping: a Pong with the same payload, not masked. -/
def Control.pong (c : Control) : WireFrame where
  fin := true
  opcode := .pong
  named := fun _ => Opcode.noConfusion
  payload := c.payload
  form := .short
  fits := Nat.lt_succ_of_le c.short
  key := none

/-- The fragment as the first frame of a message. -/
def Fragment.leading (f : Fragment) (binary fin : Bool) : WireFrame where
  fin := fin
  opcode := if binary then .binary else .text
  named := by
    intro code
    cases binary <;> exact Opcode.noConfusion
  payload := f.payload
  form := f.form
  fits := f.fits
  key := some f.key

/-- The fragment as a later frame of a message. -/
def Fragment.continuation (f : Fragment) (fin : Bool) : WireFrame where
  fin := fin
  opcode := .continuation
  named := fun _ => Opcode.noConfusion
  payload := f.payload
  form := f.form
  fits := f.fits
  key := some f.key

/-- The frames after the first fragment; the last fragment has the FIN bit. -/
def tailFrames : List (List Control × Fragment) → List WireFrame
  | [] => []
  | (controls, f) :: tail =>
    controls.map Control.frame ++ f.continuation tail.isEmpty :: tailFrames tail

namespace Message

/-- The frames of the message, in order. -/
def frames (m : Message) : List WireFrame :=
  m.before.map Control.frame ++ m.head.leading m.binary m.tail.isEmpty :: tailFrames m.tail

/-- The text of the message. -/
def text (m : Message) : Bytes := m.head.payload ++ m.tail.flatMap fun t => t.2.payload

/-- The control frames sent along with the message, in order. -/
def controls (m : Message) : List Control := m.before ++ m.tail.flatMap fun t => t.1

end Message

/-- The bytes of some frames. -/
def encode (frames : List WireFrame) : Bytes := frames.flatMap WireFrame.bytes

/-- The answers to the Pings among some control frames. -/
def pongs (controls : List Control) : Bytes :=
  (controls.filter Control.isPing).flatMap fun c => c.pong.bytes

/-- The bytes of some messages, and of the control frames after the last. -/
def streamOf (messages : List Message) (after : List Control) : Bytes :=
  encode (messages.flatMap Message.frames ++ after.map Control.frame)

/-- All control frames sent. -/
def controlsOf (messages : List Message) (after : List Control) : List Control :=
  messages.flatMap Message.controls ++ after

@[simp] theorem encode_nil : encode [] = [] := rfl

@[simp] theorem encode_cons (f : WireFrame) (fs : List WireFrame) :
    encode (f :: fs) = f.bytes ++ encode fs := rfl

@[simp] theorem encode_append (fs gs : List WireFrame) :
    encode (fs ++ gs) = encode fs ++ encode gs := by
  rw [encode, List.flatMap_append]
  rfl

@[simp] theorem pongs_nil : pongs [] = [] := rfl

theorem pongs_cons (c : Control) (cs : List Control) :
    pongs (c :: cs) = (if c.isPing then c.pong.bytes else []) ++ pongs cs := by
  rw [pongs, pongs]
  cases hping : c.isPing with
  | true => rw [List.filter_cons_of_pos hping]; rfl
  | false => rw [List.filter_cons_of_neg (by rw [hping]; exact Bool.false_ne_true)]; rfl

@[simp] theorem pongs_append (cs ds : List Control) : pongs (cs ++ ds) = pongs cs ++ pongs ds := by
  rw [pongs, List.filter_append, List.flatMap_append]
  rfl

/-- What the connection answers to a Ping is the Pong. -/
theorem encodePong_eq (c : Control) : encodePong c.payload = c.pong.bytes := by
  have hmod : c.payload.length % 128 = c.payload.length :=
    Nat.mod_eq_of_lt (Nat.lt_of_le_of_lt c.short (by omega))
  have hfirst : c.pong.first = 0x8A := by
    show (0x80 ||| 0xA : UInt8) = 0x8A
    decide
  have hsecond : c.pong.second = UInt8.ofNat c.payload.length := UInt8.zero_or
  rw [encodePong, hmod, WireFrame.bytes, hfirst, hsecond]
  rfl

/-! ### One frame -/

/-- The connection has still to take the bytes `s`, and has written back `sent`. -/
structure At (cap : Nat) (masked : Bool) (s sent : Bytes) (c : Connection) : Prop where
  cap : c.maxMessageBytes = cap
  masked : c.requireMasked = masked
  stream : c.buf ++ c.inbox.flatten = s
  chunks : ∀ chunk ∈ c.inbox, chunk ≠ []
  sent : c.sent = sent

/-- The inner loop takes the frame that the stream begins with. -/
theorem awaitFrame_of_stream (f : WireFrame) {cap : Nat} (hcap : f.payload.length ≤ cap)
    (hmax : cap ≤ 2 ^ 63) {buf s : Bytes} {inbox : List Bytes}
    (hstream : buf ++ inbox.flatten = f.bytes ++ s) (hchunks : ∀ chunk ∈ inbox, chunk ≠ []) :
    ∃ rest inbox', awaitFrame cap buf inbox = (.frame f.parsed, f.bytes ++ rest, inbox') ∧
      rest ++ inbox'.flatten = s ∧ ∀ chunk ∈ inbox', chunk ≠ [] := by
  have hframe : ∀ rest, frameIn cap (f.bytes ++ rest) = some (.frame f.parsed) := by
    intro rest
    rw [frameIn, parseFrame_bytes_append f hcap (le_trans hcap hmax)]
    rfl
  -- On the chunks still to come; with none left the buffer has the whole stream.
  induction inbox generalizing buf with
  | nil =>
    have hbuf : buf = f.bytes ++ s := by
      rw [← hstream, List.flatten_nil, List.append_nil]
    subst hbuf
    refine ⟨s, [], ?_, List.append_nil s, hchunks⟩
    rw [awaitFrame, hframe]
    rfl
  | cons chunk inbox ih =>
    by_cases hlen : buf.length < f.bytes.length
    · -- The frame has not arrived: another chunk is received.
      have hprefix : buf <+: f.bytes :=
        List.prefix_of_prefix_length_le ⟨_, hstream⟩ (List.prefix_append _ _) (le_of_lt hlen)
      obtain ⟨g, hg, hok, hbig⟩ := parseFrame_of_prefix f hcap (le_trans hcap hmax) hprefix hlen
      have hwait : frameIn cap buf = none := by
        rw [frameIn, hg]
        dsimp only
        rw [hok, hbig]
        rfl
      have hstream' : (buf ++ chunk) ++ inbox.flatten = f.bytes ++ s := by
        rw [← hstream, List.flatten_cons, List.append_assoc]
      obtain ⟨rest, inbox', hawait, hrest⟩ :=
        ih hstream' fun c hc => hchunks c (List.mem_cons_of_mem _ hc)
      refine ⟨rest, inbox', ?_, hrest⟩
      rw [awaitFrame, hwait, ← hawait]
      exact if_neg (hchunks chunk List.mem_cons_self)
    · -- It has, maybe with bytes of the next frames behind it, which stay in the buffer.
      have hprefix : f.bytes <+: buf :=
        List.prefix_of_prefix_length_le (List.prefix_append _ _) ⟨_, hstream⟩ (not_lt.mp hlen)
      obtain ⟨rest, rfl⟩ := hprefix
      refine ⟨rest, chunk :: inbox, ?_, ?_, hchunks⟩
      · rw [awaitFrame, hframe]
      · rw [List.append_assoc] at hstream
        exact List.append_cancel_left hstream

variable {cap : Nat} {masked : Bool} {s sent : Bytes} {c : Connection}

/-- One round of the outer loop takes one frame off the stream. -/
theorem receiveLoop_frame (f : WireFrame) (hkey : f.key.isSome) (hcap : f.payload.length ≤ cap)
    (hmax : cap ≤ 2 ^ 63) (hat : At cap masked (f.bytes ++ s) sent c) (asm : Assembly) :
    ∃ c', At cap masked s (sent ++ (handleFrame cap asm f.parsed).1) c' ∧
      (∀ r, (handleFrame cap asm f.parsed).2 = .done r → receiveLoop c asm = (r, c')) ∧
      ∀ asm', (handleFrame cap asm f.parsed).2 = .again asm' →
        receiveLoop c asm = receiveLoop c' asm' := by
  obtain ⟨rest, inbox', hawait, hrest, hchunks⟩ :=
    awaitFrame_of_stream f hcap hmax hat.stream hat.chunks
  have hdrop : (f.bytes ++ rest).drop f.parsed.consumed = rest := List.drop_left
  -- The frame is masked, so the connection need not insist on it.
  have hmasked : (c.requireMasked && !f.parsed.masked) = false := by
    rw [show f.parsed.masked = true from hkey]
    exact Bool.and_false _
  refine ⟨{ c with buf := rest, inbox := inbox' }.sendControl (handleFrame cap asm f.parsed).1,
    ⟨hat.cap, hat.masked, hrest, hchunks, ?_⟩, fun r hr => ?_, fun asm' hasm' => ?_⟩
  · show c.sent ++ _ = _
    rw [hat.sent]
  · rw [receiveLoop, hat.cap, hawait]
    dsimp only
    rw [dif_neg (by exact Bool.false_ne_true), hmasked, if_neg Bool.false_ne_true, hdrop]
    simp only [hr]
  · rw [receiveLoop, hat.cap, hawait]
    dsimp only
    rw [dif_neg (by exact Bool.false_ne_true), hmasked, if_neg Bool.false_ne_true, hdrop]
    simp only [hasm']

/-! ### Control frames -/

/-- A control frame is answered and changes nothing else. -/
theorem receiveLoop_control (h125 : 125 ≤ cap) (hmax : cap ≤ 2 ^ 63) (ctl : Control)
    (hat : At cap masked (ctl.frame.bytes ++ s) sent c) (asm : Assembly) :
    ∃ c', At cap masked s (sent ++ pongs [ctl]) c' ∧ receiveLoop c asm = receiveLoop c' asm := by
  have hle : ctl.frame.payload.length ≤ cap := le_trans ctl.short h125
  obtain ⟨c', hat', -, hagain⟩ := receiveLoop_frame ctl.frame rfl hle hmax hat asm
  have hhandle : handleFrame cap asm ctl.frame.parsed = (pongs [ctl], .again asm) := by
    have hopcode : ctl.frame.parsed.opcode = if ctl.isPing then .ping else .pong := rfl
    rw [pongs_cons, pongs_nil, List.append_nil]
    cases hping : ctl.isPing with
    | true =>
      rw [hping, if_pos rfl] at hopcode
      rw [handleFrame_of_ping hopcode, if_pos rfl, ← encodePong_eq]
      rfl
    | false =>
      rw [hping, if_neg Bool.false_ne_true] at hopcode
      rw [handleFrame_of_pong hopcode, if_neg Bool.false_ne_true]
  rw [hhandle] at hat' hagain
  exact ⟨c', hat', hagain asm rfl⟩

/-- Control frames one after the other are all answered, in order. -/
theorem receiveLoop_controls (h125 : 125 ≤ cap) (hmax : cap ≤ 2 ^ 63) (ctls : List Control)
    (hat : At cap masked (encode (ctls.map Control.frame) ++ s) sent c) (asm : Assembly) :
    ∃ c', At cap masked s (sent ++ pongs ctls) c' ∧ receiveLoop c asm = receiveLoop c' asm := by
  induction ctls generalizing sent c with
  | nil =>
    refine ⟨c, ?_, rfl⟩
    rw [pongs_nil, List.append_nil]
    exact hat
  | cons ctl ctls ih =>
    rw [List.map_cons, encode_cons, List.append_assoc] at hat
    obtain ⟨c₁, hat₁, hloop₁⟩ := receiveLoop_control h125 hmax ctl hat asm
    obtain ⟨c₂, hat₂, hloop₂⟩ := ih hat₁
    refine ⟨c₂, ?_, hloop₁.trans hloop₂⟩
    rw [List.append_assoc, ← pongs_append] at hat₂
    exact hat₂

/-! ### One message -/

/-- The rest of a message is received behind what has been received of it. -/
theorem receiveLoop_tail (h125 : 125 ≤ cap) (hmax : cap ≤ 2 ^ 63)
    (tail : List (List Control × Fragment)) (hne : tail ≠ []) (message : Bytes)
    (hfit : (message ++ tail.flatMap fun t => t.2.payload).length ≤ cap)
    (hat : At cap masked (encode (tailFrames tail) ++ s) sent c) :
    ∃ c', At cap masked s (sent ++ pongs (tail.flatMap fun t => t.1)) c' ∧
      receiveLoop c ⟨message, true⟩ =
        (.message (message ++ tail.flatMap fun t => t.2.payload), c') := by
  -- On the fragments still to come; `message` grows by each.
  induction tail generalizing message sent c with
  | nil => exact absurd rfl hne
  | cons t tail ih =>
    obtain ⟨ctls, f⟩ := t
    rw [tailFrames, encode_append, encode_cons, List.append_assoc, List.append_assoc] at hat
    have htext : message ++ ((ctls, f) :: tail).flatMap (fun t => t.2.payload) =
        message ++ f.payload ++ tail.flatMap fun t => t.2.payload := by
      rw [List.flatMap_cons, List.append_assoc]
    have hctls : pongs (((ctls, f) :: tail).flatMap fun t => t.1) =
        pongs ctls ++ pongs (tail.flatMap fun t => t.1) := by
      rw [List.flatMap_cons, pongs_append]
    rw [htext] at hfit ⊢
    rw [hctls, ← List.append_assoc]
    have hlen := hfit
    rw [List.length_append, List.length_append] at hlen
    obtain ⟨c₁, hat₁, hloop₁⟩ := receiveLoop_controls h125 hmax ctls hat ⟨message, true⟩
    have hle : (f.continuation tail.isEmpty).payload.length ≤ cap := by
      show f.payload.length ≤ cap
      omega
    obtain ⟨c₂, hat₂, hdone, hagain⟩ := receiveLoop_frame _ rfl hle hmax hat₁ ⟨message, true⟩
    -- The fragments together do not exceed the cap, so their sum does not wrap around.
    have hsum : (message.length + f.payload.length) % 2 ^ 64 ≤ cap := by
      rw [Nat.mod_eq_of_lt (by omega)]
      omega
    have hhandle : handleFrame cap ⟨message, true⟩ (f.continuation tail.isEmpty).parsed =
        ([], if tail.isEmpty then .done (.message (message ++ f.payload))
          else .again ⟨message ++ f.payload, true⟩) :=
      handleFrame_of_continuation rfl rfl hsum
    rw [hhandle] at hat₂ hdone hagain
    rw [List.append_nil] at hat₂
    cases tail with
    | nil =>
      -- The last fragment has the FIN bit.
      rw [tailFrames, encode_nil, List.nil_append] at hat₂
      rw [List.flatMap_nil, List.flatMap_nil, pongs_nil, List.append_nil, List.append_nil]
      exact ⟨c₂, hat₂, hloop₁.trans (hdone _ rfl)⟩
    | cons t tail =>
      obtain ⟨c₃, hat₃, hloop₃⟩ := ih (List.cons_ne_nil _ _) (message ++ f.payload) hfit hat₂
      exact ⟨c₃, hat₃, hloop₁.trans ((hagain _ rfl).trans hloop₃)⟩

/-- One call of `receive` returns the message that the stream begins with. -/
theorem receive_message (h125 : 125 ≤ cap) (hmax : cap ≤ 2 ^ 63) (m : Message)
    (hfit : m.text.length ≤ cap) (hat : At cap masked (encode m.frames ++ s) sent c) :
    ∃ c', At cap masked s (sent ++ pongs m.controls) c' ∧ receive c = (.message m.text, c') := by
  rw [Message.frames, encode_append, encode_cons, List.append_assoc, List.append_assoc] at hat
  have hlen := hfit
  rw [Message.text, List.length_append] at hlen
  obtain ⟨c₁, hat₁, hloop₁⟩ := receiveLoop_controls h125 hmax m.before hat {}
  have hle : (m.head.leading m.binary m.tail.isEmpty).payload.length ≤ cap := by
    show m.head.payload.length ≤ cap
    omega
  obtain ⟨c₂, hat₂, hdone, hagain⟩ := receiveLoop_frame _ rfl hle hmax hat₁ {}
  have hhandle : handleFrame cap {} (m.head.leading m.binary m.tail.isEmpty).parsed =
      ([], if m.tail.isEmpty then .done (.message m.head.payload)
        else .again ⟨m.head.payload, true⟩) := by
    refine handleFrame_of_data ?_ rfl
    show (if m.binary then Opcode.binary else .text) = .text ∨ _ = Opcode.binary
    cases m.binary with
    | true => exact .inr rfl
    | false => exact .inl rfl
  rw [hhandle] at hat₂ hdone hagain
  rw [List.append_nil] at hat₂
  rw [Message.controls, pongs_append, ← List.append_assoc, Message.text, receive, hloop₁]
  cases htail : m.tail with
  | nil =>
    -- A message in one frame.
    rw [htail, tailFrames, encode_nil, List.nil_append] at hat₂
    rw [htail] at hdone
    refine ⟨c₂, ?_, ?_⟩
    · rw [List.flatMap_nil, pongs_nil, List.append_nil]
      exact hat₂
    · rw [List.flatMap_nil, List.append_nil]
      exact hdone _ rfl
  | cons t tail =>
    rw [htail] at hat₂ hagain
    rw [Message.text, htail] at hfit
    rw [hagain _ rfl]
    exact receiveLoop_tail h125 hmax (t :: tail) (List.cons_ne_nil _ _) m.head.payload hfit hat₂

/-! ### All messages -/

/-- On an empty stream `receive` finds that the peer has closed. -/
theorem receive_closed (hat : At cap masked [] sent c) :
    ∃ c', receive c = (.closed, c') ∧ c'.sent = sent := by
  obtain ⟨hbuf, hinbox⟩ := List.append_eq_nil_iff.mp hat.stream
  -- Chunks are not empty, so none is left.
  have hinbox : c.inbox = [] := by
    cases hin : c.inbox with
    | nil => rfl
    | cons chunk inbox =>
      rw [hin, List.flatten_cons, List.append_eq_nil_iff] at hinbox
      exact absurd hinbox.1 (hat.chunks chunk (by rw [hin]; exact List.mem_cons_self))
  have hawait : awaitFrame c.maxMessageBytes c.buf c.inbox = (.closed, [], []) := by
    rw [hbuf, hinbox]
    rfl
  refine ⟨{ c with buf := [], inbox := [] }, ?_, hat.sent⟩
  rw [receive, receiveLoop, hawait]

/-- Successive calls return the messages, until the peer has closed. -/
theorem receives_of_at (h125 : 125 ≤ cap) (hmax : cap ≤ 2 ^ 63) (messages : List Message)
    (after : List Control) (hfit : ∀ m ∈ messages, m.text.length ≤ cap)
    (hat : At cap masked (streamOf messages after) sent c) :
    (receives (messages.length + 1) c).1 =
        messages.map (fun m => .message m.text) ++ [.closed] ∧
      (receives (messages.length + 1) c).2.sent = sent ++ pongs (controlsOf messages after) := by
  induction messages generalizing sent c with
  | nil =>
    have hat : At cap masked (encode (after.map Control.frame) ++ []) sent c := by
      rw [List.append_nil]
      exact hat
    obtain ⟨c₁, hat₁, hloop₁⟩ := receiveLoop_controls h125 hmax after hat {}
    obtain ⟨c₂, hclosed, hsent⟩ := receive_closed hat₁
    have hreceive : receive c = (.closed, c₂) := hloop₁.trans hclosed
    -- The last call answers the remaining Pings before it finds the end.
    show (receives 1 c).1 = [.closed] ∧ (receives 1 c).2.sent = sent ++ pongs after
    rw [receives, hreceive]
    exact ⟨rfl, hsent⟩
  | cons m messages ih =>
    rw [streamOf, List.flatMap_cons, List.append_assoc, encode_append] at hat
    obtain ⟨c₁, hat₁, hreceive⟩ := receive_message h125 hmax m (hfit m List.mem_cons_self) hat
    obtain ⟨hreturned, hsent⟩ := ih (fun m' hm' => hfit m' (List.mem_cons_of_mem _ hm')) hat₁
    rw [List.length_cons, receives, hreceive]
    constructor
    · show Received.message m.text :: (receives (messages.length + 1) c₁).1 = _
      rw [hreturned]
      rfl
    · show (receives (messages.length + 1) c₁).2.sent = _
      rw [hsent, List.append_assoc, ← pongs_append, controlsOf, controlsOf, List.flatMap_cons,
        List.append_assoc]

/-- **What is sent is received.** Successive calls of `receive` return exactly the messages
sent, in order, and then find that the peer has closed; what the connection has written back
is one Pong for each Ping, with its payload, in order. This holds for every way to split the
messages, every masking key, every control frame in between and every cut into chunks. -/
theorem receives_messages {cap : Nat} (h125 : 125 ≤ cap) (hmax : cap ≤ 2 ^ 63) (masked : Bool)
    (messages : List Message) (after : List Control)
    (hfit : ∀ m ∈ messages, m.text.length ≤ cap) {chunks : List Bytes}
    (hcut : Cut 4096 (streamOf messages after) chunks) :
    let c : Connection :=
      { maxMessageBytes := cap, requireMasked := masked, inbox := chunks }
    (receives (messages.length + 1) c).1 =
        messages.map (fun m => .message m.text) ++ [.closed] ∧
      (receives (messages.length + 1) c).2.sent = pongs (controlsOf messages after) := by
  have hat : At cap masked (streamOf messages after) []
      { maxMessageBytes := cap, requireMasked := masked, inbox := chunks } :=
    ⟨rfl, rfl, hcut.1, fun chunk hchunk => (hcut.2 chunk hchunk).1, rfl⟩
  exact receives_of_at h125 hmax messages after hfit hat

/-- A text message in two fragments, with different forms of the length field and a Ping in
between. -/
def splitHello : Message where
  before := []
  binary := false
  head := ⟨bytes "he", .short, by show 2 < 126; omega, ⟨1, 2, 3, 4⟩⟩
  tail := [([⟨true, bytes "!", by decide, .short, by show 1 < 126; omega, ⟨5, 6, 7, 8⟩⟩],
    ⟨bytes "llo", .medium, by show 3 < 256 ^ 2; omega, ⟨9, 10, 11, 12⟩⟩)]

/-- The message arrives byte by byte. -/
theorem receives_messages_applies :
    let c : Connection :=
      { maxMessageBytes := 125, inbox := (streamOf [splitHello] []).map List.singleton }
    (receives 2 c).1 = [.message (bytes "hello"), .closed] ∧
      (receives 2 c).2.sent = [0x8A, 1, 33] := by
  have h := receives_messages (le_refl 125) (by omega) true [splitHello] []
    (by decide) (cut_singletons _ (by omega))
  have hpongs : pongs (controlsOf [splitHello] []) = [0x8A, 1, 33] := by decide
  rw [hpongs] at h
  exact h

end CppLaravel.WebSocket
