import Mathlib.Data.Fintype.Defs
import Mathlib.Logic.Function.Basic

/-!
# `CppLaravel.Http.Serve`: the threads of a server (`src/http_server.cpp`)

`serve` opens a listening socket, stores it and starts workers; each of them is in `accept_loop`.
Any number of other threads may call `stop`, more than once. The atomics `running_` and `server_fd_`
and the socket are shared; a step is one access to one of them, or one call of the system, by one
thread, between any steps of the others. `handle_client` is one step.

`clients`, `accepted`, `finished` and `closes` say what has happened. No step depends on them.
-/

set_option autoImplicit false

namespace CppLaravel.Http.Serve

/-- Where the call of `serve` is, from `listen` on. -/
inductive Main
  | listening
  | running
  | serving
  | joined
  | closing
  | returned
deriving DecidableEq

/-- Where a worker is: before it is started, and in `accept_loop`. -/
inductive Worker
  | idle
  | check
  | accept
  | failed
  | handle (client : Nat)
  | done
deriving DecidableEq

/-- Where a call of `stop` is. -/
inductive Stop
  | idle
  | begun
  | holding
  | shut
deriving DecidableEq

/-- A server with workers `τ`, and the threads `σ` that may stop it. -/
structure Server (τ σ : Type) where
  main : Main
  worker : τ → Worker
  stop : σ → Stop
  running : Bool
  /-- `server_fd_` is the listening socket, and not `-1`. -/
  serverFd : Bool
  /-- The listening socket was not shut down or closed. -/
  listens : Bool
  backlog : List Nat
  clients : Nat
  accepted : List Nat
  finished : List Nat
  closes : Nat

/-- A server after `listen`. -/
def Server.init {τ σ : Type} : Server τ σ where
  main := .listening
  worker := fun _ => .idle
  stop := fun _ => .idle
  running := false
  serverFd := false
  listens := true
  backlog := []
  clients := 0
  accepted := []
  finished := []
  closes := 0

/-- A step. -/
inductive Move (τ σ : Type)
  /-- A client connects. -/
  | connect
  /-- `running_ = true`. -/
  | start
  /-- `server_fd_ = server_fd`. -/
  | publish
  /-- A worker is started. -/
  | spawn (t : τ)
  /-- `while (running_)`. -/
  | check (t : τ)
  /-- `accept` returns a client. -/
  | accept (t : τ)
  /-- `accept` fails on a socket that listens. -/
  | interrupt (t : τ)
  /-- `accept` fails on a socket that does not listen. -/
  | fail (t : τ)
  /-- `if (!running_) break`. -/
  | recheck (t : τ)
  /-- `handle_client` returns. -/
  | finish (t : τ)
  /-- All workers have been joined. -/
  | join
  /-- `server_fd_.exchange(-1)` at the end of `serve`. -/
  | takeBack
  /-- `close` at the end of `serve`. -/
  | closeLast
  /-- `running_ = false`. -/
  | stop (k : σ)
  /-- `server_fd_.exchange(-1)` in `stop`. -/
  | exchange (k : σ)
  /-- `shutdown`. -/
  | shutdown (k : σ)
  /-- `close` in `stop`. -/
  | close (k : σ)
deriving DecidableEq

/-- The client of a worker. -/
def Worker.client : Worker → Option Nat
  | .handle c => some c
  | _ => none

variable {τ σ : Type} [DecidableEq τ] [DecidableEq σ]

/-- The worker goes on to another place. -/
def Server.goes (s : Server τ σ) (t : τ) (w : Worker) : Server τ σ :=
  { s with worker := Function.update s.worker t w }

/-- The call of `stop` goes on to another place. -/
def Server.stops (s : Server τ σ) (k : σ) (p : Stop) : Server τ σ :=
  { s with stop := Function.update s.stop k p }

omit [DecidableEq τ] [DecidableEq σ] in
/-- The step can be taken. -/
def Move.Ready (s : Server τ σ) : Move τ σ → Prop
  | .connect => s.listens
  | .start => s.main = .listening
  | .publish => s.main = .running
  | .spawn t => s.main = .serving ∧ s.worker t = .idle
  | .check t => s.worker t = .check
  | .accept t => s.worker t = .accept ∧ s.listens ∧ s.backlog ≠ []
  | .interrupt t => s.worker t = .accept ∧ s.listens
  | .fail t => s.worker t = .accept ∧ ¬ s.listens
  | .recheck t => s.worker t = .failed
  | .finish t => (s.worker t).client ≠ none
  | .join => s.main = .serving ∧ ∀ t, s.worker t = .done
  | .takeBack => s.main = .joined
  | .closeLast => s.main = .closing
  | .stop k => s.stop k = .idle
  | .exchange k => s.stop k = .begun
  | .shutdown k => s.stop k = .holding
  | .close k => s.stop k = .shut

/-- What a step makes of a server. -/
def Move.after (s : Server τ σ) : Move τ σ → Server τ σ
  | .connect => { s with backlog := s.backlog ++ [s.clients], clients := s.clients + 1 }
  | .start => { s with main := .running, running := true }
  | .publish => { s with main := .serving, serverFd := true }
  | .spawn t => s.goes t .check
  | .check t => s.goes t (if s.running then .accept else .done)
  | .accept t =>
    let client := s.backlog.headD 0
    { s.goes t (.handle client) with
      backlog := s.backlog.tail
      accepted := s.accepted ++ [client] }
  | .interrupt t => s.goes t .failed
  | .fail t => s.goes t .failed
  | .recheck t => s.goes t (if s.running then .check else .done)
  | .finish t => { s.goes t .check with finished := s.finished ++ (s.worker t).client.toList }
  | .join => { s with main := .joined }
  | .takeBack =>
    { s with main := if s.serverFd then .closing else .returned, serverFd := false }
  | .closeLast => { s with main := .returned, listens := false, closes := s.closes + 1 }
  | .stop k => { s.stops k .begun with running := false }
  | .exchange k =>
    { s.stops k (if s.serverFd then .holding else .idle) with serverFd := false }
  | .shutdown k => { s.stops k .shut with listens := false }
  | .close k => { s.stops k .idle with listens := false, closes := s.closes + 1 }

instance [Fintype τ] (s : Server τ σ) : DecidablePred (Move.Ready s)
  | .connect => inferInstanceAs (Decidable (_ = _))
  | .start | .publish | .takeBack | .closeLast => inferInstanceAs (Decidable (_ = _))
  | .check _ | .recheck _ => inferInstanceAs (Decidable (_ = _))
  | .spawn _ | .interrupt _ => inferInstanceAs (Decidable (_ = _ ∧ _ = _))
  | .accept _ => inferInstanceAs (Decidable (_ = _ ∧ _ = _ ∧ _ ≠ _))
  | .fail _ => inferInstanceAs (Decidable (_ = _ ∧ ¬ _ = _))
  | .finish _ => inferInstanceAs (Decidable (_ ≠ _))
  | .join => inferInstanceAs (Decidable (_ = _ ∧ ∀ _, _ = _))
  | .stop _ | .exchange _ | .shutdown _ | .close _ => inferInstanceAs (Decidable (_ = _))

/-- A step, if it can be taken. -/
def Server.step [Fintype τ] (s : Server τ σ) (m : Move τ σ) : Option (Server τ σ) :=
  if m.Ready s then some (m.after s) else none

end CppLaravel.Http.Serve
