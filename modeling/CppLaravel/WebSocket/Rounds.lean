import CppLaravel.Lib.Transition
import CppLaravel.WebSocket.Connection

/-!
# `CppLaravel.WebSocket.Rounds`: the loops of `receive`, round by round

`Connection.handle` is what the outer loop does with one frame, and `receiveLoop_induct` the
induction rule of that loop. `receiveAll` calls `receive` until it returns no message.

`step` is `receive` in small steps: a call begins, a chunk is received, or a frame is
handled. The state keeps the locals of the call that is going on, the frames taken off the
buffer, the control frames that the connection means to send, and what the calls returned.
`trace_of_receive` says that a call of `receive` is a run of `step`.
-/

set_option autoImplicit false

namespace CppLaravel.WebSocket

open CppLaravel.Lib

/-! ### One frame -/

/-- A control frame that the connection means to send. -/
structure Reply where
  opcode : Opcode
  payload : Bytes
deriving DecidableEq

/-- A Close frame with a status code. -/
def Reply.status (code : Nat) : Reply := ⟨.close, toBigEndian 2 code⟩

/-- The frame is refused before it is taken off the buffer. -/
def Connection.refuses (c : Connection) (f : Frame) : Bool :=
  f.tooBig || (c.requireMasked && !f.masked)

/-- The control frames that answer a frame: a refusal, the echo of a Close, or the Pong that
a Ping asks for. -/
def replies (c : Connection) (asm : Assembly) (f : Frame) : List Reply :=
  if f.tooBig then [.status 1009]
  else if c.refuses f then [.status 1002]
  else
    match f.opcode with
    | .close => [⟨.close, if 2 ≤ f.payload.length then f.payload.take 2 else []⟩]
    | .ping => [⟨.pong, f.payload⟩]
    | .text | .binary => if asm.fragmenting then [.status 1002] else []
    | .continuation =>
      if !asm.fragmenting then [.status 1002]
      else if c.maxMessageBytes < (asm.message.length + f.payload.length) % 2 ^ 64 then
        [.status 1009]
      else []
    | .pong | .unnamed _ => []

/-- A round of the outer loop of `receive`, from the frame on. -/
def Connection.handle (c : Connection) (asm : Assembly) (f : Frame) : Connection × Next :=
  if f.tooBig then (c.sendControl (encodeCloseCode 1009), .done .closed)
  else if c.requireMasked && !f.masked then
    (c.sendControl (encodeCloseCode 1002), .done .closed)
  else
    ({ c with buf := c.buf.drop f.consumed }.sendControl (handleFrame c.maxMessageBytes asm f).1,
      (handleFrame c.maxMessageBytes asm f).2)

/-- The bytes that a connection has not taken yet. -/
def Connection.remaining (c : Connection) : Nat := c.buf.length + c.inbox.flatten.length

/-- What a round can do: the frame is refused, or taken off the buffer and answered. -/
inductive Handled (c : Connection) (asm : Assembly) (f : Frame) : Connection → Next → Prop
  | tooBig : f.tooBig = true →
      Handled c asm f (c.sendControl (encodeCloseCode 1009)) (.done .closed)
  | unmasked : f.tooBig = false → c.refuses f = true →
      Handled c asm f (c.sendControl (encodeCloseCode 1002)) (.done .closed)
  | taken : f.tooBig = false → c.refuses f = false →
      Handled c asm f
        ({ c with buf := c.buf.drop f.consumed }.sendControl
          (handleFrame c.maxMessageBytes asm f).1)
        (handleFrame c.maxMessageBytes asm f).2

section
variable {c c' : Connection} {asm asm' : Assembly} {buf : Bytes} {inbox : List Bytes}
  {f : Frame} {r : Received} {next : Next}

theorem handled (h : c.handle asm f = (c', next)) : Handled c asm f c' next := by
  rw [Connection.handle] at h
  split at h
  · rename_i hbig
    cases h
    exact .tooBig hbig
  · rename_i hbig
    rw [Bool.not_eq_true] at hbig
    split at h
    · rename_i hmask
      cases h
      exact .unmasked hbig (by rw [Connection.refuses, hbig, Bool.false_or]; exact hmask)
    · rename_i hmask
      rw [Bool.not_eq_true] at hmask
      rw [← (Prod.mk.inj h).1, ← (Prod.mk.inj h).2]
      exact .taken hbig (by rw [Connection.refuses, hbig, Bool.false_or]; exact hmask)

/-- The handling of a frame throws nothing. -/
theorem handleFrame_ne_lengthError {cap : Nat} :
    (handleFrame cap asm f).2 ≠ .done .lengthError := by
  rw [handleFrame.eq_def]
  cases f.opcode with
  | close =>
    dsimp only
    split <;> nofun
  | ping => nofun
  | pong => nofun
  | unnamed => nofun
  | text | binary =>
    dsimp only
    split
    · nofun
    · split <;> nofun
  | continuation =>
    dsimp only
    split
    · nofun
    · split
      · nofun
      · split <;> nofun

/-! ### The outer loop -/

theorem receiveLoop_of_closed
    (h : awaitFrame c.maxMessageBytes c.buf c.inbox = (.closed, buf, inbox)) :
    receiveLoop c asm = (.closed, { c with buf := buf, inbox := inbox }) := by
  unfold receiveLoop
  split <;> simp_all

theorem receiveLoop_of_lengthError
    (h : awaitFrame c.maxMessageBytes c.buf c.inbox = (.lengthError, buf, inbox)) :
    receiveLoop c asm = (.lengthError, { c with buf := buf, inbox := inbox }) := by
  unfold receiveLoop
  split <;> simp_all

/-- The loop ends with a frame that ends the call. -/
theorem receiveLoop_of_done
    (h : awaitFrame c.maxMessageBytes c.buf c.inbox = (.frame f, buf, inbox))
    (hhandle : { c with buf := buf, inbox := inbox }.handle asm f = (c', .done r)) :
    receiveLoop c asm = (r, c') := by
  rw [receiveLoop, h]
  dsimp only
  rw [Connection.handle] at hhandle
  split at hhandle
  · rename_i hbig
    rw [dif_pos hbig]
    cases hhandle
    rfl
  · rename_i hbig
    rw [dif_neg hbig]
    split at hhandle
    · rename_i hmask
      rw [if_pos hmask]
      cases hhandle
      rfl
    · rename_i hmask
      obtain ⟨rfl, hnext⟩ := Prod.mk.inj hhandle
      have hnext : (handleFrame c.maxMessageBytes asm f).2 = .done r := hnext
      rw [if_neg hmask]
      simp only [hnext]

/-- The loop goes on after any other. -/
theorem receiveLoop_of_again
    (h : awaitFrame c.maxMessageBytes c.buf c.inbox = (.frame f, buf, inbox))
    (hhandle : { c with buf := buf, inbox := inbox }.handle asm f = (c', .again asm')) :
    receiveLoop c asm = receiveLoop c' asm' := by
  rw [receiveLoop, h]
  dsimp only
  rw [Connection.handle] at hhandle
  split at hhandle
  · cases hhandle
  · rename_i hbig
    rw [dif_neg hbig]
    split at hhandle
    · cases hhandle
    · rename_i hmask
      obtain ⟨rfl, hnext⟩ := Prod.mk.inj hhandle
      have hnext : (handleFrame c.maxMessageBytes asm f).2 = .again asm' := hnext
      rw [if_neg hmask]
      simp only [hnext]

end

/-- A round that does not end the call takes at least two bytes off the stream. -/
theorem remaining_handle_le {c c' : Connection} {asm : Assembly} {f : Frame} {next : Next}
    (hparse : parseFrame c.buf c.maxMessageBytes = some f) (hok : f.ok = true ∨ f.tooBig = true)
    (h : c.handle asm f = (c', next)) :
    c'.remaining < c.remaining ∨ next = .done .closed := by
  cases handled h with
  | tooBig _ => exact .inr rfl
  | unmasked _ _ => exact .inr rfl
  | taken hbig _ =>
    left
    obtain ⟨-, hpos, hle⟩ := parseFrame_spec hparse (hok.resolve_right (by rw [hbig]; nofun))
    show (c.buf.drop f.consumed).length + c.inbox.flatten.length < _
    rw [Connection.remaining, List.length_drop]
    omega

/-- The inner loop leaves the rest of the stream as it is. -/
theorem remaining_awaitFrame {c : Connection} {r : Awaited} {buf : Bytes} {inbox : List Bytes}
    (h : awaitFrame c.maxMessageBytes c.buf c.inbox = (r, buf, inbox)) :
    { c with buf := buf, inbox := inbox }.remaining = c.remaining := by
  have hlen := congrArg List.length (awaitFrame_spec h).1
  rw [List.length_append, List.length_append] at hlen
  exact hlen

/-- The induction rule of the outer loop. -/
theorem receiveLoop_induct {motive : Connection → Assembly → Received × Connection → Prop}
    (closed : ∀ c asm buf inbox,
      awaitFrame c.maxMessageBytes c.buf c.inbox = (.closed, buf, inbox) →
      motive c asm (.closed, { c with buf := buf, inbox := inbox }))
    (lengthError : ∀ c asm buf inbox,
      awaitFrame c.maxMessageBytes c.buf c.inbox = (.lengthError, buf, inbox) →
      motive c asm (.lengthError, { c with buf := buf, inbox := inbox }))
    (done : ∀ c asm buf inbox f c' r,
      awaitFrame c.maxMessageBytes c.buf c.inbox = (.frame f, buf, inbox) →
      { c with buf := buf, inbox := inbox }.handle asm f = (c', .done r) →
      (c'.remaining < c.remaining ∨ r = .closed) → motive c asm (r, c'))
    (again : ∀ c asm buf inbox f c' asm',
      awaitFrame c.maxMessageBytes c.buf c.inbox = (.frame f, buf, inbox) →
      { c with buf := buf, inbox := inbox }.handle asm f = (c', .again asm') →
      c'.remaining < c.remaining → motive c' asm' (receiveLoop c' asm') →
      motive c asm (receiveLoop c' asm'))
    (c : Connection) (asm : Assembly) : motive c asm (receiveLoop c asm) := by
  induction hn : c.remaining using Nat.strong_induction_on generalizing c asm with
  | _ n ih =>
    cases hawait : awaitFrame c.maxMessageBytes c.buf c.inbox with
    | mk r rest =>
      obtain ⟨buf, inbox⟩ := rest
      cases r with
      | closed =>
        rw [receiveLoop_of_closed hawait]
        exact closed c asm buf inbox hawait
      | lengthError =>
        rw [receiveLoop_of_lengthError hawait]
        exact lengthError c asm buf inbox hawait
      | frame f =>
        obtain ⟨hparse, hok⟩ := (awaitFrame_spec hawait).2 f rfl
        cases hhandle : { c with buf := buf, inbox := inbox }.handle asm f with
        | mk c' next =>
          have hle := remaining_handle_le hparse hok hhandle
          rw [remaining_awaitFrame hawait] at hle
          cases next with
          | done r =>
            rw [receiveLoop_of_done hawait hhandle]
            exact done c asm buf inbox f c' r hawait hhandle
              (hle.imp_right fun hr => by cases hr; rfl)
          | again asm' =>
            have hlt := hle.resolve_right (by nofun)
            rw [receiveLoop_of_again hawait hhandle]
            exact again c asm buf inbox f c' asm' hawait hhandle hlt
              (ih _ (hn ▸ hlt) c' asm' rfl)

/-! ### All messages -/

/-- A call of `receive` that returns a message takes bytes off the stream. -/
theorem remaining_receive_lt {c c' : Connection} {m : Bytes}
    (h : receive c = (.message m, c')) : c'.remaining < c.remaining := by
  have hloop := receiveLoop_induct
    (motive := fun c _ p => p.1 = .message m → p.2.remaining < c.remaining)
    (fun _ _ _ _ _ hr => by cases hr) (fun _ _ _ _ _ hr => by cases hr)
    (fun _ _ _ _ _ _ _ _ _ hlt hr => hlt.resolve_right fun hclosed => by
      rw [hclosed] at hr
      cases hr)
    (fun _ _ _ _ _ _ _ _ _ hlt ih hr => lt_trans (ih hr) hlt) c {}
  rw [receive] at h
  rw [h] at hloop
  exact hloop rfl

/-- `receive` is called until it returns no message: the messages, and what the last call
ends with. -/
def receiveAll (c : Connection) : List Bytes × Received × Connection :=
  match _h : receive c with
  | (.message m, c') =>
    let (ms, last) := receiveAll c'
    (m :: ms, last)
  | (.closed, c') => ([], .closed, c')
  | (.lengthError, c') => ([], .lengthError, c')
termination_by c.remaining
decreasing_by exact remaining_receive_lt ‹_›

theorem receiveAll_of_message {c c' : Connection} {m : Bytes}
    (h : receive c = (.message m, c')) :
    receiveAll c = (m :: (receiveAll c').1, (receiveAll c').2) := by
  rw [receiveAll, h]

theorem receiveAll_of_closed {c c' : Connection} (h : receive c = (.closed, c')) :
    receiveAll c = ([], .closed, c') := by
  unfold receiveAll
  split <;> simp_all

/-! ### Small steps -/

/-- A connection between two calls of `receive`, or inside one: with the locals of the call
(`call`), the frames taken off the buffer so far, the control frames meant to be sent, and
what the calls have returned. -/
structure Served where
  conn : Connection
  call : Option Assembly := none
  taken : List Frame := []
  replied : List Reply := []
  returned : List Received := []

/-- The same with another state of the connection. -/
def Served.on (s : Served) (c : Connection) : Served := { s with conn := c }

/-- A call begins, or goes on by one chunk received or one frame handled. -/
inductive Move
  | enter
  | round

/-- The call returns. -/
def Served.leave (s : Served) (c : Connection) (r : Received) : Served :=
  { s with conn := c, call := none, returned := s.returned ++ [r] }

/-- The frame is handled. -/
def Served.handle (s : Served) (asm : Assembly) (f : Frame) : Served :=
  let (c, next) := s.conn.handle asm f
  let s' := { s with
    taken := if s.conn.refuses f then s.taken else s.taken ++ [f]
    replied := s.replied ++ replies s.conn asm f }
  match next with
  | .done r => s'.leave c r
  | .again asm' => { s' with conn := c, call := some asm' }

/-- A round of the loops of `receive`. -/
def Served.round (s : Served) (asm : Assembly) : Served :=
  match frameIn s.conn.maxMessageBytes s.conn.buf with
  | some (.frame f) => s.handle asm f
  -- The buffer does not tell that the peer has closed.
  | some .closed => s.leave s.conn .closed
  | some .lengthError => s.leave s.conn .lengthError
  | none =>
    match s.conn.inbox with
    | [] => s.leave s.conn .closed
    | chunk :: inbox =>
      if chunk = [] then s.leave { s.conn with inbox := inbox } .closed
      else s.on { s.conn with buf := s.conn.buf ++ chunk, inbox := inbox }

/-- A move of the connection; there is none where a call begins inside a call, and where a
call goes on outside one. -/
def step (s : Served) : Move → Option Served
  | .enter => match s.call with
    | none => some { s with call := some {} }
    | some _ => none
  | .round => s.call.map s.round

theorem frameIn_ne_closed {cap : Nat} {buf : Bytes} : frameIn cap buf ≠ some .closed := by
  rw [frameIn]
  split
  · intro h
    cases h
  · split <;> intro h <;> cases h

section
variable {s : Served} {asm : Assembly} {r : Received}

theorem step_round (hcall : s.call = some asm) : Steps step s .round (s.round asm) := by
  show step s .round = _
  rw [step, hcall]
  rfl

/-- The inner loop is a run of rounds that receive chunks. It ends with a frame in the buffer,
or the call returns. -/
theorem trace_of_awaitFrame {r : Awaited} {buf : Bytes} {inbox : List Bytes}
    (hcall : s.call = some asm)
    (h : awaitFrame s.conn.maxMessageBytes s.conn.buf s.conn.inbox = (r, buf, inbox)) :
    (frameIn s.conn.maxMessageBytes buf = some r ∧
      ∃ as, Trace (Steps step) s as (s.on { s.conn with buf := buf, inbox := inbox })) ∨
    (r = .closed ∧
      ∃ as, Trace (Steps step) s as
        (s.leave { s.conn with buf := buf, inbox := inbox } .closed)) := by
  -- On the chunks still to come.
  induction hinbox : s.conn.inbox generalizing s with
  | nil =>
    rw [hinbox, awaitFrame] at h
    cases hin : frameIn s.conn.maxMessageBytes s.conn.buf with
    | some r' =>
      rw [hin] at h
      cases h
      rw [← hinbox]
      exact .inl ⟨hin, [], .nil s⟩
    | none =>
      rw [hin] at h
      cases h
      have hround := step_round hcall
      simp only [Served.round, hin, hinbox] at hround
      rw [← hinbox]
      exact .inr ⟨rfl, [.round], .cons hround (.nil _)⟩
  | cons chunk rest ih =>
    rw [hinbox, awaitFrame] at h
    cases hin : frameIn s.conn.maxMessageBytes s.conn.buf with
    | some r' =>
      rw [hin] at h
      cases h
      rw [← hinbox]
      exact .inl ⟨hin, [], .nil s⟩
    | none =>
      rw [hin] at h
      dsimp only at h
      have hround := step_round hcall
      simp only [Served.round, hin, hinbox] at hround
      split at h
      · rename_i hchunk
        cases h
        rw [if_pos hchunk] at hround
        exact .inr ⟨rfl, [.round], .cons hround (.nil _)⟩
      · rename_i hchunk
        rw [if_neg hchunk] at hround
        rcases ih (s := s.on { s.conn with buf := s.conn.buf ++ chunk, inbox := rest }) hcall h
          rfl with ⟨hin', as, htrace⟩ | ⟨hr, as, htrace⟩
        · exact .inl ⟨hin', .round :: as, .cons hround htrace⟩
        · exact .inr ⟨hr, .round :: as, .cons hround htrace⟩

/-- The state after a call that has returned `p`. -/
def Served.Left (s : Served) (p : Received × Connection) (s' : Served) : Prop :=
  s'.conn = p.2 ∧ s'.call = none ∧ s'.returned = s.returned ++ [p.1]

/-- The inner loop ends with a frame that the buffer holds: the rounds up to the handling of
the frame. -/
theorem trace_of_frame {buf : Bytes} {inbox : List Bytes} {f : Frame}
    (hcall : s.call = some asm)
    (h : awaitFrame s.conn.maxMessageBytes s.conn.buf s.conn.inbox = (.frame f, buf, inbox)) :
    ∃ as, Trace (Steps step) s as
      ((s.on { s.conn with buf := buf, inbox := inbox }).handle asm f) := by
  rcases trace_of_awaitFrame hcall h with ⟨hin, as, htrace⟩ | ⟨hr, -⟩
  · have hround := step_round (s := s.on { s.conn with buf := buf, inbox := inbox }) hcall
    have hin : frameIn (s.on { s.conn with buf := buf, inbox := inbox }).conn.maxMessageBytes
        (s.on { s.conn with buf := buf, inbox := inbox }).conn.buf = some (.frame f) := hin
    simp only [Served.round, hin] at hround
    exact ⟨as ++ [.round], htrace.append (.cons hround (.nil _))⟩
  · cases hr

/-- **A call of `receive` is a run of `step`.** -/
theorem trace_of_receive (hcall : s.call = none) :
    ∃ as s', Trace (Steps step) s as s' ∧ s.Left (receive s.conn) s' := by
  have hloop := receiveLoop_induct
    (motive := fun c asm p => ∀ s : Served, s.conn = c → s.call = some asm →
      ∃ as s', Trace (Steps step) s as s' ∧ s.Left p s')
    ?closed ?lengthError ?done ?again s.conn {}
  case closed =>
    rintro _ asm buf inbox hawait s rfl hcall
    rcases trace_of_awaitFrame hcall hawait with ⟨hin, -⟩ | ⟨-, as, htrace⟩
    · exact absurd hin frameIn_ne_closed
    · exact ⟨as, _, htrace, rfl, rfl, rfl⟩
  case lengthError =>
    rintro _ asm buf inbox hawait s rfl hcall
    rcases trace_of_awaitFrame hcall hawait with ⟨hin, as, htrace⟩ | ⟨hr, -⟩
    · have hround := step_round (s := s.on { s.conn with buf := buf, inbox := inbox }) hcall
      have hin : frameIn (s.on { s.conn with buf := buf, inbox := inbox }).conn.maxMessageBytes
        (s.on { s.conn with buf := buf, inbox := inbox }).conn.buf = some .lengthError := hin
      simp only [Served.round, hin] at hround
      exact ⟨as ++ [.round], _, htrace.append (.cons hround (.nil _)), rfl, rfl, rfl⟩
    · cases hr
  case done =>
    rintro _ asm buf inbox f c' r hawait hhandle - s rfl hcall
    obtain ⟨as, htrace⟩ := trace_of_frame hcall hawait
    have hhandle : (s.on { s.conn with buf := buf, inbox := inbox }).conn.handle asm f =
      (c', .done r) := hhandle
    simp only [Served.handle, hhandle] at htrace
    exact ⟨as, _, htrace, rfl, rfl, rfl⟩
  case again =>
    rintro _ asm buf inbox f c' asm' hawait hhandle - ih s rfl hcall
    obtain ⟨as, htrace⟩ := trace_of_frame hcall hawait
    have hhandle : (s.on { s.conn with buf := buf, inbox := inbox }).conn.handle asm f =
      (c', .again asm') := hhandle
    simp only [Served.handle, hhandle] at htrace
    obtain ⟨s₁, htrace₁, hconn₁, hcall₁, hreturned₁⟩ : ∃ s₁, Trace (Steps step) s as s₁ ∧
      s₁.conn = c' ∧ s₁.call = some asm' ∧ s₁.returned = s.returned := ⟨_, htrace, rfl, rfl, rfl⟩
    obtain ⟨as', s', htrace', hconn, hcall', hreturned⟩ := ih s₁ hconn₁ hcall₁
    rw [hreturned₁] at hreturned
    exact ⟨as ++ as', s', htrace₁.append htrace', hconn, hcall', hreturned⟩
  obtain ⟨as, s', htrace, hleft⟩ := hloop { s with call := some {} } rfl rfl
  have henter : step s .enter = some { s with call := some {} } := by rw [step, hcall]
  exact ⟨.enter :: as, s', .cons henter htrace, hleft⟩

end

end CppLaravel.WebSocket
