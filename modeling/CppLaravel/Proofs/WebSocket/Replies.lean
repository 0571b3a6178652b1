import CppLaravel.Proofs.WebSocket.Parse
import CppLaravel.Proofs.WebSocket.Wire
import CppLaravel.WebSocket.Rounds

/-!
# `CppLaravel.Proofs.WebSocket.Replies`: what the connection writes back

`Splits` says that a parser without a cap splits some bytes into control frames, complete,
unmasked and with nothing left over. The bytes a connection writes back are the encodings of
the frames it means to send (`Sent`), but `encodePong` has seven bits for a length that may
be anything up to the cap of the connection.

`splits_replied_iff` proves that the parser gives back the frames meant exactly as long as no
Ping with more than 125 bytes has been answered. Where the frames meant are short, their
encodings are those of `WireFrame`s (`splits_of_short`). For the converse the bytes are
counted: the parser takes at least two bytes more for a long frame than the connection has
written for it (`length_le_of_splits`).
-/

set_option autoImplicit false

namespace CppLaravel.WebSocket

open CppLaravel.Lib

/-- `parse_frame`, without a cap, splits the bytes into the frames: every frame is complete,
the last of its message and not masked, and nothing is left over. -/
inductive Splits : Bytes → List Reply → Prop
  | nil : Splits [] []
  | cons {buf : Bytes} {f : Frame} {rs : List Reply} :
      parseFrame buf (2 ^ 64 - 1) = some f → f.ok = true → f.fin = true → f.masked = false →
      Splits (buf.drop f.consumed) rs → Splits buf (⟨f.opcode, f.payload⟩ :: rs)

/-! ### The encodings -/

/-- What the connection writes for a control frame. -/
def Reply.bytes (r : Reply) : Bytes :=
  (0x80 ||| r.opcode.code) :: UInt8.ofNat (r.payload.length % 128) :: r.payload

/-- A control frame that the connection may mean to send. -/
def Reply.Control (r : Reply) : Prop := r.opcode = .pong ∨ r.opcode = .close

theorem encodePong_eq_bytes (payload : Bytes) :
    encodePong payload = Reply.bytes ⟨.pong, payload⟩ := by
  have hfirst : 0x80 ||| Opcode.pong.code = 0x8A := by decide
  rw [Reply.bytes, hfirst]
  rfl

theorem encodeClose_eq_bytes : encodeClose = Reply.bytes ⟨.close, []⟩ := by decide

/-- A code from two bytes. -/
theorem toNat_code (hi lo : UInt8) :
    ((hi.toUInt16 <<< 8) ||| lo.toUInt16).toNat = hi.toNat * 2 ^ 8 + lo.toNat := by
  have hhi := hi.toNat_lt
  have hlo := lo.toNat_lt
  have h8 : (8 : UInt16).toNat % 16 = 8 := rfl
  rw [UInt16.toNat_or, UInt16.toNat_shiftLeft, UInt8.toNat_toUInt16, UInt8.toNat_toUInt16, h8,
    Nat.mod_eq_of_lt (by rw [Nat.shiftLeft_eq]; omega), ← Nat.shiftLeft_add_eq_or_of_lt hlo,
    Nat.shiftLeft_eq]

/-- A code is written as the two bytes it was read from. -/
theorem encodeCloseCode_eq_bytes (hi lo : UInt8) :
    encodeCloseCode ((hi.toUInt16 <<< 8) ||| lo.toUInt16) = Reply.bytes ⟨.close, [hi, lo]⟩ := by
  have hlo := lo.toNat_lt
  have hhi := hi.toNat_lt
  have hff : (0xFF : UInt16).toNat = 2 ^ 8 - 1 := rfl
  have h8 : (8 : UInt16).toNat % 16 = 8 := rfl
  have hhigh : (((hi.toUInt16 <<< 8) ||| lo.toUInt16) >>> 8 &&& 0xFF).toUInt8 = hi := by
    apply UInt8.toNat_inj.mp
    rw [UInt16.toNat_toUInt8, UInt16.toNat_and, UInt16.toNat_shiftRight, toNat_code, hff, h8,
      Nat.and_two_pow_sub_one_eq_mod, Nat.shiftRight_eq_div_pow]
    omega
  have hlow : (((hi.toUInt16 <<< 8) ||| lo.toUInt16) &&& 0xFF).toUInt8 = lo := by
    apply UInt8.toNat_inj.mp
    rw [UInt16.toNat_toUInt8, UInt16.toNat_and, toNat_code, hff, Nat.and_two_pow_sub_one_eq_mod]
    omega
  have hfirst : 0x80 ||| Opcode.close.code = 0x88 := by decide
  rw [encodeCloseCode, hhigh, hlow, Reply.bytes, hfirst]
  rfl

theorem encodeCloseCode_1002 : encodeCloseCode 1002 = (Reply.status 1002).bytes := by decide

theorem encodeCloseCode_1009 : encodeCloseCode 1009 = (Reply.status 1009).bytes := by decide

/-- The bytes of a list of control frames. -/
def bytesOf (rs : List Reply) : Bytes := rs.flatMap Reply.bytes

@[simp] theorem bytesOf_nil : bytesOf [] = [] := rfl

@[simp] theorem bytesOf_cons (r : Reply) (rs : List Reply) :
    bytesOf (r :: rs) = r.bytes ++ bytesOf rs := rfl

theorem bytesOf_append (rs rs' : List Reply) : bytesOf (rs ++ rs') = bytesOf rs ++ bytesOf rs' := by
  rw [bytesOf, List.flatMap_append]
  rfl

/-! ### The parser on the encodings -/

/-- A short control frame, as a frame on the wire. -/
def Reply.wire (r : Reply) (hcontrol : r.Control) (hshort : r.payload.length ≤ 125) :
    WireFrame where
  fin := true
  opcode := r.opcode
  named := by
    intro code hop
    rcases hcontrol with h | h <;> rw [h] at hop <;> cases hop
  payload := r.payload
  form := .short
  fits := Nat.lt_succ_of_le hshort
  key := none

theorem bytes_wire (r : Reply) (hcontrol : r.Control) (hshort : r.payload.length ≤ 125) :
    (r.wire hcontrol hshort).bytes = r.bytes := by
  have hmod : r.payload.length % 128 = r.payload.length := Nat.mod_eq_of_lt (by omega)
  have hsecond : (r.wire hcontrol hshort).second = UInt8.ofNat r.payload.length := UInt8.zero_or
  rw [Reply.bytes, hmod, WireFrame.bytes, hsecond]
  rfl

/-- Short control frames are split as they were meant. -/
theorem splits_of_short {rs : List Reply} (hcontrol : ∀ r ∈ rs, r.Control)
    (hshort : ∀ r ∈ rs, r.payload.length ≤ 125) : Splits (bytesOf rs) rs := by
  induction rs with
  | nil => exact .nil
  | cons r rs ih =>
    have hc := hcontrol r List.mem_cons_self
    have hs := hshort r List.mem_cons_self
    have hrest := ih (fun r' h => hcontrol r' (List.mem_cons_of_mem _ h))
      fun r' h => hshort r' (List.mem_cons_of_mem _ h)
    have hle : (r.wire hc hs).payload.length ≤ 125 := hs
    have hparse : parseFrame ((r.wire hc hs).bytes ++ bytesOf rs) (2 ^ 64 - 1) =
        some (r.wire hc hs).parsed :=
      parseFrame_bytes_append _ (by omega) (by omega) _
    have hdrop : ((r.wire hc hs).bytes ++ bytesOf rs).drop (r.wire hc hs).parsed.consumed =
      bytesOf rs := List.drop_left
    rw [bytesOf_cons, ← bytes_wire r hc hs]
    refine .cons hparse rfl rfl rfl ?_
    rw [hdrop]
    exact hrest

/-- The bytes that the parser takes at least for a control frame. -/
def Reply.cost (r : Reply) : Nat :=
  2 + r.payload.length + (if 126 ≤ r.payload.length then 2 else 0)

/-- What is split has at least the bytes that the parser takes. -/
theorem length_le_of_splits {buf : Bytes} {rs : List Reply} (h : Splits buf rs) :
    (rs.map Reply.cost).sum ≤ buf.length := by
  induction h with
  | nil => exact le_refl 0
  | cons hparse hok _ _ _ ih =>
    have hcost := (length_payload_le hparse hok).2
    have hle := (parseFrame_spec hparse hok).2.2
    rw [List.length_drop] at ih
    rw [List.map_cons, List.sum_cons, Reply.cost]
    dsimp only
    omega

/-- Control frames that are split as they were meant are short. -/
theorem short_of_splits {rs : List Reply} (h : Splits (bytesOf rs) rs) :
    ∀ r ∈ rs, r.payload.length ≤ 125 := by
  have hle := length_le_of_splits h
  clear h
  -- A sum of costs is no more than the bytes written only if no frame costs more.
  have hsum : ∀ rs : List Reply, (bytesOf rs).length ≤ (rs.map Reply.cost).sum := by
    intro rs
    induction rs with
    | nil => exact le_refl 0
    | cons r rs ih =>
      rw [bytesOf_cons, List.length_append, List.map_cons, List.sum_cons]
      have hr : r.bytes.length ≤ r.cost := by
        rw [Reply.bytes, Reply.cost, List.length_cons, List.length_cons]
        omega
      omega
  induction rs with
  | nil => nofun
  | cons r rs ih =>
    rw [bytesOf_cons, List.length_append, List.map_cons, List.sum_cons] at hle
    have hrest := hsum rs
    rw [Reply.cost, Reply.bytes, List.length_cons, List.length_cons] at hle
    rintro r' hr'
    rcases List.mem_cons.mp hr' with rfl | hr'
    · by_contra hlong
      rw [if_pos (by omega)] at hle
      omega
    · exact ih (by omega) r' hr'

/-! ### Runs -/

section
variable {c c' : Connection} {asm : Assembly} {f : Frame} {next : Next}

/-- A frame is answered with the frames that are meant to answer it. -/
theorem sent_handle (h : c.handle asm f = (c', next)) :
    c'.sent = c.sent ++ bytesOf (replies c asm f) := by
  cases handled h with
  | tooBig hbig =>
    rw [replies, if_pos hbig, bytesOf_cons, bytesOf_nil, List.append_nil, ← encodeCloseCode_1009]
    rfl
  | unmasked hbig hrefuses =>
    rw [replies, if_neg (ne_true_of_eq_false hbig), if_pos hrefuses, bytesOf_cons, bytesOf_nil,
      List.append_nil, ← encodeCloseCode_1002]
    rfl
  | taken hbig hrefuses =>
    rw [replies, if_neg (ne_true_of_eq_false hbig), if_neg (ne_true_of_eq_false hrefuses)]
    show c.sent ++ _ = _
    congr 1
    rw [handleFrame.eq_def]
    cases f.opcode with
    | close =>
      cases f.payload with
      | nil => exact encodeClose_eq_bytes.trans (List.append_nil _).symm
      | cons hi payload =>
        cases payload with
        | nil => exact encodeClose_eq_bytes.trans (List.append_nil _).symm
        | cons lo rest =>
          dsimp only
          rw [encodeCloseCode_eq_bytes, if_pos (by simp)]
          exact (List.append_nil _).symm
    | ping => exact (encodePong_eq_bytes f.payload).trans (List.append_nil _).symm
    | pong => rfl
    | unnamed => rfl
    | text | binary =>
      dsimp only
      split
      · rw [encodeCloseCode_1002, bytesOf_cons, bytesOf_nil, List.append_nil]
      · split <;> rfl
    | continuation =>
      dsimp only
      split
      · rw [encodeCloseCode_1002, bytesOf_cons, bytesOf_nil, List.append_nil]
      · split
        · rw [encodeCloseCode_1009, bytesOf_cons, bytesOf_nil, List.append_nil]
        · split <;> rfl

/-- A Ping is answered by a Pong with its payload, and everything else by at most a Close
with at most two bytes. -/
theorem replies_cases :
    (c.refuses f = false ∧ f.opcode = .ping ∧ replies c asm f = [⟨.pong, f.payload⟩]) ∨
    ((c.refuses f = false → f.opcode ≠ .ping) ∧
      ∀ r ∈ replies c asm f, r.opcode = .close ∧ r.payload.length ≤ 2) := by
  -- A Close with a status carries its two bytes.
  have hstatus : ∀ code, ∀ r ∈ [Reply.status code], r.opcode = .close ∧ r.payload.length ≤ 2 := by
    intro code r hr
    rw [List.mem_singleton.mp hr]
    exact ⟨rfl, (length_toBigEndian 2 code).le⟩
  cases hrefuses : c.refuses f with
  | true =>
    refine .inr ⟨Bool.noConfusion, ?_⟩
    rw [replies.eq_def, if_pos hrefuses]
    split
    · exact hstatus 1009
    · exact hstatus 1002
  | false =>
    have hbig : f.tooBig = false := by
      rw [Connection.refuses, Bool.or_eq_false_iff] at hrefuses
      exact hrefuses.1
    rw [replies.eq_def, if_neg (ne_true_of_eq_false hbig), if_neg (ne_true_of_eq_false hrefuses)]
    cases hop : f.opcode with
    | ping => exact .inl ⟨rfl, rfl, rfl⟩
    | close =>
      refine .inr ⟨fun _ => by decide, fun r hr => ?_⟩
      rw [List.mem_singleton.mp hr]
      refine ⟨rfl, ?_⟩
      dsimp only
      split
      · rw [List.length_take]
        exact Nat.min_le_left _ _
      · exact Nat.zero_le 2
    | pong => exact .inr ⟨fun _ => by decide, List.forall_mem_nil _⟩
    | unnamed => exact .inr ⟨fun _ => Opcode.noConfusion, List.forall_mem_nil _⟩
    | text | binary =>
      refine .inr ⟨fun _ => by decide, ?_⟩
      dsimp only
      split
      · exact hstatus 1002
      · exact List.forall_mem_nil _
    | continuation =>
      refine .inr ⟨fun _ => by decide, ?_⟩
      dsimp only
      split
      · exact hstatus 1002
      · split
        · exact hstatus 1009
        · exact List.forall_mem_nil _

/-- What answers a frame is a Pong or a Close. -/
theorem control_replies {r : Reply} (hr : r ∈ replies c asm f) : r.Control := by
  rcases replies_cases with ⟨-, -, hpong⟩ | ⟨-, hclose⟩
  · rw [hpong] at hr
    exact .inl (by rw [List.mem_singleton.mp hr])
  · exact .inr (hclose r hr).1

/-- What answers a frame is short, unless a long Ping is answered. -/
theorem short_replies : (∀ r ∈ replies c asm f, r.payload.length ≤ 125) ↔
    (c.refuses f = false → f.opcode = .ping → f.payload.length ≤ 125) := by
  rcases replies_cases with ⟨hrefuses, hping, hpong⟩ | ⟨hother, hclose⟩
  · rw [hpong, List.forall_mem_singleton]
    exact ⟨fun h _ _ => h, fun h => h hrefuses hping⟩
  · exact ⟨fun _ hrefuses hping => absurd hping (hother hrefuses),
      fun _ r hr => le_trans (hclose r hr).2 (by omega)⟩

end

/-- What a run keeps. -/
structure Sent (s : Served) : Prop where
  sent : s.conn.sent = bytesOf s.replied
  control : ∀ r ∈ s.replied, r.Control
  short : (∀ r ∈ s.replied, r.payload.length ≤ 125) ↔
    ∀ f ∈ s.taken, f.opcode = .ping → f.payload.length ≤ 125

theorem sent_handle_served {s : Served} {asm : Assembly} {f : Frame} (hs : Sent s) :
    Sent (s.handle asm f) := by
  have hsent : ∀ c next, s.conn.handle asm f = (c, next) →
      c.sent = bytesOf (s.replied ++ replies s.conn asm f) := by
    intro c next h
    rw [sent_handle h, hs.sent, bytesOf_append]
  have hcontrol : ∀ r ∈ s.replied ++ replies s.conn asm f, r.Control := by
    intro r hr
    rcases List.mem_append.mp hr with hr | hr
    · exact hs.control r hr
    · exact control_replies hr
  -- A refused frame is not taken, and is answered with a Close.
  have hshort : (∀ r ∈ s.replied ++ replies s.conn asm f, r.payload.length ≤ 125) ↔
      ∀ g ∈ (if s.conn.refuses f then s.taken else s.taken ++ [f]),
        g.opcode = .ping → g.payload.length ≤ 125 := by
    rw [List.forall_mem_append, hs.short, short_replies]
    cases hrefuses : s.conn.refuses f with
    | true =>
      rw [if_pos rfl]
      exact ⟨fun h => h.1, fun h => ⟨h, nofun⟩⟩
    | false =>
      rw [if_neg Bool.false_ne_true, List.forall_mem_append, List.forall_mem_singleton]
      exact and_congr_right fun _ => ⟨fun h => h rfl, fun h _ => h⟩
  rw [Served.handle]
  cases hhandle : s.conn.handle asm f with
  | mk c next =>
    cases next with
    | again asm' => exact ⟨hsent c _ hhandle, hcontrol, hshort⟩
    | done r => exact ⟨hsent c _ hhandle, hcontrol, hshort⟩

/-- **Every move keeps it.** -/
theorem sent_step {s s' : Served} {move : Move} (hs : Sent s) (hstep : Steps step s move s') :
    Sent s' := by
  have hstep : step s move = some s' := hstep
  cases move with
  | enter =>
    rw [step] at hstep
    split at hstep
    · cases hstep
      exact ⟨hs.sent, hs.control, hs.short⟩
    · cases hstep
  | round =>
    obtain ⟨asm, hcall, rfl⟩ := Option.map_eq_some_iff.mp hstep
    rw [Served.round]
    split
    · exact sent_handle_served hs
    · exact ⟨hs.sent, hs.control, hs.short⟩
    · exact ⟨hs.sent, hs.control, hs.short⟩
    · split
      · exact ⟨hs.sent, hs.control, hs.short⟩
      · split
        · exact ⟨hs.sent, hs.control, hs.short⟩
        · exact ⟨hs.sent, hs.control, hs.short⟩

/-- **The peer splits what it is sent as it was meant, unless a long Ping is answered.** In
every state of every run, whatever the peer sends and however it is cut into chunks, the
bytes written back are split into exactly the control frames meant, with nothing left over,
if and only if every Ping taken off the buffer so far has at most 125 bytes. -/
theorem splits_replied_iff (cap : Nat) (masked : Bool) (inbox : List Bytes) {moves : List Move}
    {s : Served} (h : Trace (Steps step)
      { conn := { maxMessageBytes := cap, requireMasked := masked, inbox := inbox } } moves s) :
    Splits s.conn.sent s.replied ↔
      ∀ f ∈ s.taken, f.opcode = .ping → f.payload.length ≤ 125 := by
  have hs : Sent s :=
    h.invariant (fun _ _ _ hs hstep => sent_step hs hstep) ⟨rfl, nofun, by simp⟩
  rw [hs.sent, ← hs.short]
  exact ⟨short_of_splits, splits_of_short hs.control⟩

/-- An empty Ping and one with one byte are answered. -/
theorem splits_replied_applies :
    let inbox : List Bytes := [[0x89, 0x80, 0, 0, 0, 0], [0x89, 0x81, 0, 0, 0, 0, 33]]
    ∃ s, run step { conn := { inbox := inbox } } [.enter, .round, .round, .round, .round] = some s ∧
      s.replied = [⟨.pong, []⟩, ⟨.pong, [33]⟩] ∧ Splits s.conn.sent s.replied := by
  intro inbox
  have hrun : (run step { conn := { inbox := inbox } } [.enter, .round, .round, .round, .round]).map
      (fun s => (s.replied, s.taken)) =
      some ([⟨.pong, []⟩, ⟨.pong, [33]⟩], [
        { opcode := .ping, fin := true, masked := true, ok := true, consumed := 6 },
        { opcode := .ping, payload := [33], fin := true, masked := true, ok := true,
          consumed := 7 }]) := by decide
  obtain ⟨s, hs, hsame⟩ := Option.map_eq_some_iff.mp hrun
  obtain ⟨hreplied, htaken⟩ := Prod.mk.inj hsame
  refine ⟨s, hs, hreplied, (splits_replied_iff _ _ _ (trace_iff_run.mpr hs)).mpr ?_⟩
  rw [htaken]
  decide

/-- A Ping with 128 bytes, masked with zeros. -/
def longPing : Bytes := [0x89, 0xFE, 0, 128, 0, 0, 0, 0] ++ List.replicate 128 120

/-- The length of a Pong with 128 bytes is written as 0: the peer reads an empty Pong, and the
payload as the beginning of the next frames. -/
theorem long_pong_is_cut :
    ¬ ∀ (inbox : List Bytes) (moves : List Move) (s : Served),
      Trace (Steps step) { conn := { inbox := inbox } } moves s →
        Splits s.conn.sent s.replied := by
  intro hall
  have hrun : ((run step { conn := { inbox := [longPing] } } [.enter, .round, .round]).any
      fun s => s.replied.any fun r => decide (125 < r.payload.length)) = true := by
    decide +kernel
  obtain ⟨s, hs, hlong⟩ := (Option.any_eq_true _ _).mp hrun
  obtain ⟨r, hr, hlen⟩ := List.any_eq_true.mp hlong
  have htrace := trace_iff_run.mpr hs
  have hsent : Sent s :=
    htrace.invariant (fun _ _ _ hs hstep => sent_step hs hstep) ⟨rfl, nofun, by simp⟩
  have hsplits := hall _ _ s htrace
  rw [hsent.sent] at hsplits
  exact absurd (short_of_splits hsplits r hr) (not_le.mpr (of_decide_eq_true hlen))

end CppLaravel.WebSocket
