import CppLaravel.Proofs.WebSocket.Parse
import CppLaravel.WebSocket.Rounds

/-!
# `CppLaravel.Proofs.WebSocket.Bounds`: what a peer can make the connection hold

`bounded_always` bounds the buffer, the message in progress and the messages returned by the
cap of the connection, in every state of every run.

The invariant is `Bounded`. A chunk is received only while the parser waits, and the parser
waits on short buffers only (`length_lt_of_waiting`).
-/

set_option autoImplicit false

namespace CppLaravel.WebSocket

open CppLaravel.Lib

variable {cap : Nat} {s s' : Served} {asm : Assembly} {f : Frame}

/-- The connection holds no more than its cap allows. -/
structure Bounded (cap : Nat) (s : Served) : Prop where
  limit : s.conn.maxMessageBytes = cap
  chunks : ∀ chunk ∈ s.conn.inbox, chunk.length ≤ 4096
  buffer : s.conn.buf.length < cap + 14 + 4096
  message : ∀ asm, s.call = some asm → asm.message.length ≤ cap
  returned : ∀ m, Received.message m ∈ s.returned → m.length ≤ cap

/-- How a call goes on within the bound. -/
def Next.Bounded (cap : Nat) : Next → Prop
  | .again asm => asm.message.length ≤ cap
  | .done (.message m) => m.length ≤ cap
  | .done _ => True

/-- The message in progress grows within the bound: the sum of two lengths up to a cap below
`2 ^ 63` does not wrap around. -/
theorem handleFrame_bounded (hcap : cap < 2 ^ 63) (hasm : asm.message.length ≤ cap)
    (hf : f.payload.length ≤ cap) : (handleFrame cap asm f).2.Bounded cap := by
  rw [handleFrame.eq_def]
  cases f.opcode with
  | close =>
    dsimp only
    split <;> trivial
  | ping => exact hasm
  | pong => exact hasm
  | unnamed => exact hasm
  | text | binary =>
    dsimp only
    split
    · trivial
    · split <;> exact hf
  | continuation =>
    dsimp only
    split
    · trivial
    · split
      · trivial
      · rename_i hfit
        rw [Nat.mod_eq_of_lt (by omega)] at hfit
        have hlen : (asm.message ++ f.payload).length ≤ cap := by
          rw [List.length_append]
          omega
        split <;> exact hlen

/-- A call returns within the bound. -/
theorem bounded_leave (hs : ∀ m, Received.message m ∈ s.returned → m.length ≤ cap)
    {c : Connection} {r : Received}
    (hc : c.maxMessageBytes = cap) (hchunks : ∀ chunk ∈ c.inbox, chunk.length ≤ 4096)
    (hbuf : c.buf.length < cap + 14 + 4096) (hr : ∀ m, r = .message m → m.length ≤ cap) :
    Bounded cap (s.leave c r) where
  limit := hc
  chunks := hchunks
  buffer := hbuf
  message := fun _ h => by cases h
  returned := by
    intro m hm
    rcases List.mem_append.mp hm with hm | hm
    · exact hs m hm
    · exact hr m (List.mem_singleton.mp hm).symm

/-- A frame is handled within the bound. -/
theorem bounded_handle (hcap : cap < 2 ^ 63) (hs : Bounded cap s) (hcall : s.call = some asm)
    (hparse : parseFrame s.conn.buf cap = some f) (hok : f.ok = true ∨ f.tooBig = true) :
    Bounded cap (s.handle asm f) := by
  have hconn : ∀ c next, s.conn.handle asm f = (c, next) →
      c.maxMessageBytes = cap ∧ c.inbox = s.conn.inbox ∧ c.buf.length ≤ s.conn.buf.length ∧
        next.Bounded cap := by
    intro c next h
    cases handled h with
    | tooBig _ => exact ⟨hs.limit, rfl, le_refl _, trivial⟩
    | unmasked _ _ => exact ⟨hs.limit, rfl, le_refl _, trivial⟩
    | taken hbig _ =>
      -- The frame leaves the buffer, and its payload joins the message.
      have hok := hok.resolve_right (by rw [hbig]; nofun)
      refine ⟨hs.limit, rfl, ?_, ?_⟩
      · show (s.conn.buf.drop f.consumed).length ≤ _
        rw [List.length_drop]
        exact Nat.sub_le _ _
      · rw [hs.limit]
        exact handleFrame_bounded hcap (hs.message asm hcall) (length_payload_le hparse hok).1
  rw [Served.handle]
  cases hhandle : s.conn.handle asm f with
  | mk c next =>
    obtain ⟨hc, hinbox, hbuf, hnext⟩ := hconn c next hhandle
    have hchunks : ∀ chunk ∈ c.inbox, chunk.length ≤ 4096 := by
      rw [hinbox]
      exact hs.chunks
    have hbuf := lt_of_le_of_lt hbuf hs.buffer
    cases next with
    | again asm' =>
      exact ⟨hc, hchunks, hbuf, fun _ h => by cases h; exact hnext, hs.returned⟩
    | done r =>
      have hr : ∀ m, r = .message m → m.length ≤ cap := by
        rintro m rfl
        exact hnext
      exact bounded_leave (s := { s with
        taken := if s.conn.refuses f then s.taken else s.taken ++ [f]
        replied := s.replied ++ replies s.conn asm f }) hs.returned hc hchunks hbuf hr

/-- **No move leaves the bound.** -/
theorem bounded_step (hcap : cap < 2 ^ 63) {move : Move} (hs : Bounded cap s)
    (hstep : Steps step s move s') : Bounded cap s' := by
  have hstep : step s move = some s' := hstep
  cases move with
  | enter =>
    rw [step] at hstep
    split at hstep
    · cases hstep
      refine ⟨hs.limit, hs.chunks, hs.buffer, fun _ h => ?_, hs.returned⟩
      cases h
      exact Nat.zero_le _
    · cases hstep
  | round =>
    obtain ⟨asm, hcall, rfl⟩ := Option.map_eq_some_iff.mp hstep
    rw [Served.round]
    split
    · rename_i f hin
      obtain ⟨hparse, hok⟩ := parseFrame_of_frameIn hin
      rw [hs.limit] at hparse
      exact bounded_handle hcap hs hcall hparse hok
    · exact bounded_leave hs.returned hs.limit hs.chunks hs.buffer fun _ h => by cases h
    · exact bounded_leave hs.returned hs.limit hs.chunks hs.buffer fun _ h => by cases h
    · rename_i hin
      -- The parser waits, so the buffer is short enough for another chunk.
      obtain ⟨f, hparse, hok, hbig⟩ := parseFrame_of_frameIn_none hin
      have hshort := length_lt_of_waiting hparse hok hbig
      rw [hs.limit] at hshort
      split
      · exact bounded_leave hs.returned hs.limit hs.chunks hs.buffer fun _ h => by cases h
      · rename_i chunk inbox hinbox
        have hchunks : ∀ chunk' ∈ inbox, chunk'.length ≤ 4096 := fun chunk' hchunk' =>
          hs.chunks chunk' (by rw [hinbox]; exact List.mem_cons_of_mem _ hchunk')
        have hchunk : chunk.length ≤ 4096 :=
          hs.chunks chunk (by rw [hinbox]; exact List.mem_cons_self)
        split
        · exact bounded_leave hs.returned hs.limit hchunks hs.buffer fun _ h => by cases h
        · refine ⟨hs.limit, hchunks, ?_, hs.message, hs.returned⟩
          show (s.conn.buf ++ chunk).length < cap + 14 + 4096
          rw [List.length_append]
          omega

/-- **The peer cannot make the connection hold more than the cap allows.** In every state of
every run, whatever bytes the peer sends and however they are cut into chunks, the buffer
holds fewer than `cap + 14 + 4096` bytes, and neither the message in progress nor any message
returned is longer than `cap`. -/
theorem bounded_always (hcap : cap < 2 ^ 63) (masked : Bool) {inbox : List Bytes}
    (hchunks : ∀ chunk ∈ inbox, chunk.length ≤ 4096) {moves : List Move}
    (h : Trace (Steps step)
      { conn := { maxMessageBytes := cap, requireMasked := masked, inbox := inbox } } moves s) :
    s.conn.buf.length < cap + 14 + 4096 ∧
      (∀ asm, s.call = some asm → asm.message.length ≤ cap) ∧
      ∀ m, Received.message m ∈ s.returned → m.length ≤ cap := by
  have hs : Bounded cap s := by
    refine h.invariant (fun _ _ _ hs hstep => bounded_step hcap hs hstep) ?_
    exact ⟨rfl, hchunks, by show 0 < _; omega, nofun, nofun⟩
  exact ⟨hs.buffer, hs.message, hs.returned⟩

/-- A message of the length of the cap in one chunk. -/
theorem bounded_always_applies :
    let s : Served := {
      conn := { maxMessageBytes := 1, inbox := [[0x81, 0x81, 0, 0, 0, 0, 33]] } }
    ∃ s', run step s [.enter, .round, .round] = some s' ∧
      s'.returned = [.message [33]] ∧ s'.conn.buf.length < 1 + 14 + 4096 := by
  have hrun : run step { conn := { maxMessageBytes := 1, inbox := [[0x81, 0x81, 0, 0, 0, 0, 33]] } }
      [.enter, .round, .round] = some {
        conn := { maxMessageBytes := 1 }
        taken := [{ payload := [33], fin := true, masked := true, ok := true, consumed := 7 }]
        returned := [.message [33]] } := by rfl
  refine ⟨_, hrun, rfl, ?_⟩
  exact (bounded_always (by omega) true (by decide) (trace_iff_run.mpr hrun)).1

end CppLaravel.WebSocket
