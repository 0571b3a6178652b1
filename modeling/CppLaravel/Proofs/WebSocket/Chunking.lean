import CppLaravel.Lib.Chunks
import CppLaravel.Proofs.WebSocket.Parse
import CppLaravel.WebSocket.Rounds

/-!
# `CppLaravel.Proofs.WebSocket.Chunking`: the cut of the stream does not matter

`receiveAll_cut` proves that the messages a connection returns, and the bytes it writes back,
are the same for every way to cut the stream of the peer into chunks, whatever the stream is.

`Connection.drained` is the connection after all of its stream has arrived. Every loop of
`receive` does on the drained connection what it does on the connection itself
(`awaitFrame_drained`, `receiveLoop_drained`, `receiveAll_drained`), and two cuts of one
stream have the same drained connection.
-/

set_option autoImplicit false

namespace CppLaravel.WebSocket

open CppLaravel.Lib

/-- The connection once all of its stream has arrived in the buffer. -/
def Connection.drained (c : Connection) : Connection :=
  { c with buf := c.buf ++ c.inbox.flatten, inbox := [] }

/-- The hypotheses of this module: no chunk is empty, and the cap is below `2 ^ 63`. -/
structure Connection.Plain (c : Connection) : Prop where
  chunks : ∀ chunk ∈ c.inbox, chunk ≠ []
  cap : c.maxMessageBytes < 2 ^ 63

/-! ### The inner loop -/

theorem frameIn_ne_lengthError {cap : Nat} (hcap : cap < 2 ^ 63) {buf : Bytes} :
    frameIn cap buf ≠ some .lengthError := by
  rw [frameIn]
  split
  · rename_i hparse
    exact absurd hparse (parseFrame_ne_none hcap buf)
  · split <;> intro h <;> cases h

/-- What the inner loop ends with does not change when more bytes arrive. -/
theorem frameIn_append {cap : Nat} (hcap : cap < 2 ^ 63) {buf : Bytes} {r : Awaited}
    (h : frameIn cap buf = some r) (t : Bytes) :
    frameIn cap (buf ++ t) = some r ∧ ∃ f, r = .frame f := by
  cases r with
  | closed => exact absurd h frameIn_ne_closed
  | lengthError => exact absurd h (frameIn_ne_lengthError hcap)
  | frame f =>
    obtain ⟨hparse, hdecided⟩ := parseFrame_of_frameIn h
    refine ⟨?_, f, rfl⟩
    rw [frameIn, parseFrame_append hparse hdecided]
    refine if_neg fun hwait => ?_
    rw [Bool.and_eq_true, Bool.not_eq_true', Bool.not_eq_true'] at hwait
    rw [hwait.1, hwait.2] at hdecided
    rcases hdecided with hok | hbig
    · cases hok
    · cases hbig

/-- The inner loop leaves no empty chunk where there was none. -/
theorem chunks_awaitFrame {cap : Nat} {buf buf' : Bytes} {inbox inbox' : List Bytes} {r : Awaited}
    (hchunks : ∀ chunk ∈ inbox, chunk ≠ [])
    (h : awaitFrame cap buf inbox = (r, buf', inbox')) : ∀ chunk ∈ inbox', chunk ≠ [] := by
  induction inbox generalizing buf with
  | nil =>
    rw [awaitFrame] at h
    cases h
    exact hchunks
  | cons chunk inbox ih =>
    rw [awaitFrame] at h
    split at h
    · cases h
      exact hchunks
    · rw [if_neg (hchunks chunk List.mem_cons_self)] at h
      exact ih (fun c hc => hchunks c (List.mem_cons_of_mem _ hc)) h

/-- The inner loop ends with the same when all of the stream has arrived. -/
theorem awaitFrame_drained {cap : Nat} (hcap : cap < 2 ^ 63) {buf buf' : Bytes}
    {inbox inbox' : List Bytes} {r : Awaited} (hchunks : ∀ chunk ∈ inbox, chunk ≠ [])
    (h : awaitFrame cap buf inbox = (r, buf', inbox')) :
    awaitFrame cap (buf ++ inbox.flatten) [] = (r, buf' ++ inbox'.flatten, []) ∧
      (r = .closed ∨ ∃ f, r = .frame f) := by
  induction inbox generalizing buf with
  | nil =>
    rw [awaitFrame] at h
    cases h
    rw [List.flatten_nil, List.append_nil, awaitFrame]
    refine ⟨rfl, ?_⟩
    cases hin : frameIn cap buf' with
    | none => exact .inl rfl
    | some r => exact .inr (frameIn_append hcap hin []).2
  | cons chunk inbox ih =>
    rw [awaitFrame] at h
    split at h
    · rename_i r' hin
      cases h
      obtain ⟨hin', hframe⟩ := frameIn_append hcap hin (chunk :: inbox).flatten
      refine ⟨?_, .inr hframe⟩
      rw [awaitFrame, hin']
      rfl
    · rw [if_neg (hchunks chunk List.mem_cons_self)] at h
      rw [List.flatten_cons, ← List.append_assoc]
      exact ih (fun c hc => hchunks c (List.mem_cons_of_mem _ hc)) h

/-! ### The outer loop -/

/-- A frame that lies in the buffer is handled alike when more of the stream has arrived. -/
theorem handle_drained {c c' : Connection} {asm : Assembly} {f : Frame} {next : Next}
    (hle : f.tooBig = false → f.consumed ≤ c.buf.length) (h : c.handle asm f = (c', next)) :
    c.drained.handle asm f = (c'.drained, next) := by
  rw [Connection.handle] at h ⊢
  split at h
  · rename_i hbig
    cases h
    rw [if_pos hbig]
    rfl
  · rename_i hbig
    rw [if_neg hbig]
    split at h
    · rename_i hmask
      cases h
      exact if_pos hmask
    · rename_i hmask
      cases h
      -- The frame lies in the buffer, so what is dropped does not reach into the inbox.
      have hdrop : (c.buf ++ c.inbox.flatten).drop f.consumed =
          c.buf.drop f.consumed ++ c.inbox.flatten :=
        List.drop_append_of_le_length (hle ((Bool.not_eq_true _).mp hbig))
      refine (if_neg hmask).trans ?_
      show (({ c.drained with buf := (c.buf ++ c.inbox.flatten).drop f.consumed }).sendControl _, _)
        = _
      rw [hdrop]
      rfl

/-- Handling a frame leaves the chunks and the cap, and throws nothing. -/
theorem plain_handle {c c' : Connection} {asm : Assembly} {f : Frame} {next : Next}
    (hplain : c.Plain) (h : c.handle asm f = (c', next)) :
    c'.Plain ∧ next ≠ .done .lengthError := by
  cases handled h with
  | tooBig _ => exact ⟨⟨hplain.chunks, hplain.cap⟩, nofun⟩
  | unmasked _ _ => exact ⟨⟨hplain.chunks, hplain.cap⟩, nofun⟩
  | taken _ _ => exact ⟨⟨hplain.chunks, hplain.cap⟩, handleFrame_ne_lengthError⟩

/-- One round on the drained connection. -/
theorem round_drained {c c' : Connection} (hplain : c.Plain) {asm : Assembly} {f : Frame}
    {buf : Bytes} {inbox : List Bytes} {next : Next}
    (hawait : awaitFrame c.maxMessageBytes c.buf c.inbox = (.frame f, buf, inbox))
    (hhandle : { c with buf := buf, inbox := inbox }.handle asm f = (c', next)) :
    awaitFrame c.drained.maxMessageBytes c.drained.buf c.drained.inbox =
        (.frame f, buf ++ inbox.flatten, []) ∧
      { c.drained with buf := buf ++ inbox.flatten, inbox := [] }.handle asm f =
        (c'.drained, next) ∧ c'.Plain ∧ next ≠ .done .lengthError := by
  obtain ⟨hparse, hok⟩ := (awaitFrame_spec hawait).2 f rfl
  obtain ⟨hplain', hnext⟩ := plain_handle (c := { c with buf := buf, inbox := inbox })
    ⟨chunks_awaitFrame hplain.chunks hawait, hplain.cap⟩ hhandle
  refine ⟨(awaitFrame_drained hplain.cap hplain.chunks hawait).1,
    handle_drained (fun hbig => ?_) hhandle, hplain', hnext⟩
  exact (parseFrame_spec hparse (hok.resolve_right (by rw [hbig]; nofun))).2.2

/-- The outer loop ends with the same when all of the stream has arrived. -/
theorem receiveLoop_drained {c : Connection} (hplain : c.Plain) (asm : Assembly) :
    receiveLoop c.drained asm = ((receiveLoop c asm).1, (receiveLoop c asm).2.drained) ∧
      (receiveLoop c asm).2.Plain ∧ (receiveLoop c asm).1 ≠ .lengthError := by
  refine receiveLoop_induct
    (motive := fun c asm p => c.Plain →
      receiveLoop c.drained asm = (p.1, p.2.drained) ∧ p.2.Plain ∧ p.1 ≠ .lengthError)
    ?closed ?lengthError ?done ?again c asm hplain
  case closed =>
    intro c asm buf inbox hawait hplain
    obtain ⟨hdrained, -⟩ := awaitFrame_drained hplain.cap hplain.chunks hawait
    exact ⟨receiveLoop_of_closed (c := c.drained) hdrained,
      ⟨chunks_awaitFrame hplain.chunks hawait, hplain.cap⟩, nofun⟩
  case lengthError =>
    intro c asm buf inbox hawait hplain
    rcases (awaitFrame_drained hplain.cap hplain.chunks hawait).2 with hr | ⟨f, hr⟩
    · cases hr
    · cases hr
  case done =>
    intro c asm buf inbox f c' r hawait hhandle _ hplain
    obtain ⟨hawait', hhandle', hplain', hnext⟩ := round_drained hplain hawait hhandle
    exact ⟨receiveLoop_of_done hawait' hhandle', hplain', fun hr => hnext (congrArg _ hr)⟩
  case again =>
    intro c asm buf inbox f c' asm' hawait hhandle _ ih hplain
    obtain ⟨hawait', hhandle', hplain', -⟩ := round_drained hplain hawait hhandle
    rw [receiveLoop_of_again hawait' hhandle']
    exact ih hplain'

/-! ### All messages -/

/-- The calls of `receive` return the same when all of the stream has arrived. -/
theorem receiveAll_drained {c : Connection} (hplain : c.Plain) :
    receiveAll c.drained = ((receiveAll c).1, .closed, (receiveAll c).2.2.drained) ∧
      (receiveAll c).2.1 = .closed := by
  induction hn : c.remaining using Nat.strong_induction_on generalizing c with
  | _ n ih =>
    obtain ⟨hdrained, hplain', hlength⟩ := receiveLoop_drained hplain {}
    have hdrained : receive c.drained = ((receive c).1, (receive c).2.drained) := hdrained
    cases hreceive : receive c with
    | mk r c' =>
      rw [hreceive] at hdrained
      rw [← receive, hreceive] at hplain' hlength
      cases r with
      | message m =>
        obtain ⟨hrest, hclosed⟩ := ih _ (hn ▸ remaining_receive_lt hreceive) hplain' rfl
        rw [receiveAll_of_message hdrained, receiveAll_of_message hreceive, hrest]
        exact ⟨rfl, hclosed⟩
      | closed =>
        rw [receiveAll_of_closed hdrained, receiveAll_of_closed hreceive]
        exact ⟨rfl, rfl⟩
      | lengthError => exact absurd rfl hlength

/-- **The cut does not matter.** For every stream of bytes and any two ways to cut it into
chunks, the calls of `receive` up to the first that returns no message return the same
messages, that last call finds the connection closed, and the same bytes are written back. -/
theorem receiveAll_cut {cap : Nat} (hcap : cap < 2 ^ 63) (masked : Bool) {stream : Bytes}
    {chunks chunks' : List Bytes} (hcut : Cut 4096 stream chunks)
    (hcut' : Cut 4096 stream chunks') :
    let c : Connection := { maxMessageBytes := cap, requireMasked := masked, inbox := chunks }
    let c' : Connection := { maxMessageBytes := cap, requireMasked := masked, inbox := chunks' }
    (receiveAll c).1 = (receiveAll c').1 ∧ (receiveAll c).2.1 = .closed ∧
      (receiveAll c').2.1 = .closed ∧ (receiveAll c).2.2.sent = (receiveAll c').2.2.sent := by
  intro c c'
  obtain ⟨hdrained, hclosed⟩ := receiveAll_drained (c := c)
    ⟨fun chunk hchunk => (hcut.2 chunk hchunk).1, hcap⟩
  obtain ⟨hdrained', hclosed'⟩ := receiveAll_drained (c := c')
    ⟨fun chunk hchunk => (hcut'.2 chunk hchunk).1, hcap⟩
  have hsame : c.drained = c'.drained := by
    show Connection.mk chunks.flatten cap masked [] [] =
      Connection.mk chunks'.flatten cap masked [] []
    rw [hcut.1, hcut'.1]
  rw [hsame, hdrained'] at hdrained
  obtain ⟨hmessages, hlast⟩ := Prod.mk.inj hdrained
  exact ⟨hmessages.symm, hclosed, hclosed', (congrArg (fun p => p.2.sent) hlast).symm⟩

/-- A Ping in two chunks, and byte by byte. -/
theorem receiveAll_cut_applies :
    let stream : Bytes := [0x89, 0x81, 0, 0, 0, 0, 33]
    let c : Connection := { inbox := [stream.take 3, stream.drop 3] }
    let c' : Connection := { inbox := stream.map List.singleton }
    (receiveAll c).1 = (receiveAll c').1 ∧ (receiveAll c).2.1 = .closed ∧
      (receiveAll c').2.1 = .closed ∧ (receiveAll c).2.2.sent = (receiveAll c').2.2.sent :=
  receiveAll_cut (by decide) true (by constructor <;> decide) (cut_singletons _ (by omega))

end CppLaravel.WebSocket
