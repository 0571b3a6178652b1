import CppLaravel.WebSocket.Codec
import Mathlib.Data.List.Sort
import Mathlib.Logic.Function.Basic

/-!
# `CppLaravel.WebSocket.Hub`: sends and broadcasts of several threads
(`include/websocket_server.hpp`)

`send_text`, `send_binary` and `send_control` of a `ws::Connection` write a frame with the
connection's mutex held; `send_all` may take any number of calls of `::send` for it. A `ws::Hub`
holds the registered connections. `broadcast` copies them and then sends to one after the other,
with the hub unlocked. A step is one of these by one thread, between any steps of the others.

`calls` and `log` say what has happened. No step depends on them.
-/

set_option autoImplicit false

namespace CppLaravel.WebSocket.Hub

/-- A call that writes: a send on one connection, or a broadcast with its snapshot of the hub. -/
inductive Call (κ : Type)
  | send (c : κ)
  | broadcast (snapshot : List κ)

/-- The connections that a call sends to. -/
def Call.targets {κ : Type} : Call κ → List κ
  | .send c => [c]
  | .broadcast snapshot => snapshot

/-- A call that a thread is in: its number, its frame, the connections still to be sent to, and
what is left of the frame on the first of them while that one's mutex is held. -/
structure Task (κ : Type) where
  call : Nat
  frame : Bytes
  todo : List κ
  left : Option Bytes

/-- How one send of a call ended. -/
structure Sending where
  call : Nat
  frame : Bytes
  ok : Bool

/-- The connections `κ` and the threads `τ` of a server. -/
structure Server (κ τ : Type) where
  conns : List κ
  sendMutex : κ → Option τ
  wire : κ → Bytes
  task : τ → Option (Task κ)
  calls : List (Call κ)
  log : κ → List Sending

/-- A server to which nobody is connected. -/
def Server.init {κ τ : Type} : Server κ τ where
  conns := []
  sendMutex := fun _ => none
  wire := fun _ => []
  task := fun _ => none
  calls := []
  log := fun _ => []

/-- A step of a thread. -/
inductive Move (κ τ : Type)
  /-- `Hub::add`. -/
  | add (t : τ) (c : κ)
  /-- `Hub::remove`. -/
  | remove (t : τ) (c : κ)
  /-- A call of `send_text`, `send_binary` or `send_control`, up to the mutex. -/
  | send (t : τ) (c : κ) (out : Bytes)
  /-- A call of `broadcast` or `broadcast_binary`, up to the first mutex. -/
  | broadcast (t : τ) (out : Bytes)
  /-- The mutex of the connection is taken. -/
  | lock (t : τ)
  /-- `::send` takes `n` bytes. -/
  | write (t : τ) (n : Nat)
  /-- `::send` fails; the mutex is given back. -/
  | fail (t : τ)
  /-- `send_all` is through; the mutex is given back. -/
  | unlock (t : τ)

/-- `send_text`. -/
def Move.sendText {κ τ : Type} (t : τ) (c : κ) (payload : Bytes) : Move κ τ :=
  .send t c (encodeText payload)

/-- `send_binary`. -/
def Move.sendBinary {κ τ : Type} (t : τ) (c : κ) (payload : Bytes) : Move κ τ :=
  .send t c (encodeBinary payload)

/-- `Hub::broadcast`. -/
def Move.broadcastText {κ τ : Type} (t : τ) (text : Bytes) : Move κ τ :=
  .broadcast t (encodeText text)

/-- `Hub::broadcast_binary`. -/
def Move.broadcastBinary {κ τ : Type} (t : τ) (payload : Bytes) : Move κ τ :=
  .broadcast t (encodeBinary payload)

/-- The task after the send on its first connection. -/
def Task.next {κ : Type} (k : Task κ) : Option (Task κ) :=
  match k.todo.tail with
  | [] => none
  | todo => some { k with todo, left := none }

namespace Server

variable {κ τ : Type} [LinearOrder κ] [DecidableEq τ]

/-- A thread enters a call. -/
def enter (s : Server κ τ) (t : τ) (call : Call κ) (out : Bytes) : Server κ τ :=
  { s with
    calls := s.calls ++ [call]
    -- A broadcast to nobody is over at once.
    task := Function.update s.task t <|
      if call.targets = [] then none else some ⟨s.calls.length, out, call.targets, none⟩ }

/-- A thread's send on the connection `c` is over. -/
def leave (s : Server κ τ) (t : τ) (k : Task κ) (c : κ) (ok : Bool) : Server κ τ :=
  { s with
    sendMutex := Function.update s.sendMutex c none
    task := Function.update s.task t k.next
    log := Function.update s.log c (s.log c ++ [⟨k.call, k.frame, ok⟩]) }

/-- What a step makes of a server; `none` if the thread cannot take it. -/
def step (s : Server κ τ) : Move κ τ → Option (Server κ τ)
  | .add t c =>
    if (s.task t).isNone then
      some { s with conns := if c ∈ s.conns then s.conns else s.conns.orderedInsert (· ≤ ·) c }
    else none
  | .remove t c =>
    if (s.task t).isNone then some { s with conns := s.conns.filter (· ≠ c) } else none
  | .send t c out => if (s.task t).isNone then some (s.enter t (.send c) out) else none
  | .broadcast t out =>
    if (s.task t).isNone then some (s.enter t (.broadcast s.conns) out) else none
  | .lock t =>
    match s.task t with
    | some ⟨call, frame, c :: todo, none⟩ =>
      if s.sendMutex c = none then
        some { s with
          sendMutex := Function.update s.sendMutex c (some t)
          task := Function.update s.task t (some ⟨call, frame, c :: todo, some frame⟩) }
      else none
    | _ => none
  | .write t n =>
    match s.task t with
    | some ⟨call, frame, c :: todo, some left⟩ =>
      if 0 < n ∧ n ≤ left.length then
        some { s with
          wire := Function.update s.wire c (s.wire c ++ left.take n)
          task := Function.update s.task t (some ⟨call, frame, c :: todo, some (left.drop n)⟩) }
      else none
    | _ => none
  | .fail t =>
    match s.task t with
    | some ⟨call, frame, c :: todo, some left⟩ =>
      if left = [] then none else some (s.leave t ⟨call, frame, c :: todo, some left⟩ c false)
    | _ => none
  | .unlock t =>
    match s.task t with
    | some ⟨call, frame, c :: todo, some left⟩ =>
      if left = [] then some (s.leave t ⟨call, frame, c :: todo, some left⟩ c true) else none
    | _ => none

end Server

end CppLaravel.WebSocket.Hub
