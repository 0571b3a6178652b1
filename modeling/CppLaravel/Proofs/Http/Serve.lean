import CppLaravel.Http.Serve
import CppLaravel.Lib.Transition
import Mathlib.Algebra.BigOperators.Group.Finset.Piecewise
import Mathlib.Algebra.Order.BigOperators.Group.Finset

/-!
# `CppLaravel.Proofs.Http.Serve`: serving and stopping

`closed_once`: of all calls of `stop` and the end of `serve`, one closes the listening socket.
`clients_of_run`: clients are accepted in their order and handled once, by one worker each.
`serve_ends`: once a server that runs was told to stop, it takes a bounded number of steps and
`serve` returns.
-/

set_option autoImplicit false

namespace CppLaravel.Http.Serve

open CppLaravel.Lib

/-- What is summed over all threads, after one of them has gone on. -/
theorem sum_update {ι α : Type} [Fintype ι] [DecidableEq ι] (f : ι → α) (i : ι) (a : α)
    (w : α → Nat) : ∑ j, w (Function.update f i a j) + w (f i) = ∑ j, w (f j) + w a := by
  have hrest : ∑ j ∈ {i}ᶜ, w (Function.update f i a j) = ∑ j ∈ {i}ᶜ, w (f j) := by
    refine Finset.sum_congr rfl fun j hj => ?_
    rw [Function.update_of_ne]
    simpa using hj
  rw [Fintype.sum_eq_add_sum_compl i, Fintype.sum_eq_add_sum_compl i fun j => w (f j), hrest,
    Function.update_self]
  omega

variable {τ σ : Type} [Fintype τ] [DecidableEq τ] [DecidableEq σ]

section
variable {s s' : Server τ σ} {m : Move τ σ}

theorem step_eq_some_iff : s.step m = some s' ↔ m.Ready s ∧ m.after s = s' := by
  rw [Server.step, Option.ite_none_right_eq_some, Option.some_inj]

/-! ### The listening socket -/

/-- A call of `stop` that has the socket. -/
def Stop.holds : Stop → Nat
  | .holding | .shut => 1
  | _ => 0

@[simp] theorem Stop.holds_idle : Stop.holds .idle = 0 := rfl
@[simp] theorem Stop.holds_begun : Stop.holds .begun = 0 := rfl
@[simp] theorem Stop.holds_holding : Stop.holds .holding = 1 := rfl
@[simp] theorem Stop.holds_shut : Stop.holds .shut = 1 := rfl

/-- The end of `serve` has the socket. -/
def Main.holds : Main → Nat
  | .closing => 1
  | _ => 0

/-- The socket was stored. -/
def Main.stored : Main → Nat
  | .listening | .running => 0
  | _ => 1

/-- From the time when it is stored the socket has one owner, until it is closed. -/
def Owned [Fintype σ] (s : Server τ σ) : Prop :=
  s.closes + ∑ k, (s.stop k).holds + s.serverFd.toNat + s.main.holds = s.main.stored

omit [Fintype τ] in
theorem Owned.step [Fintype σ] (h : Owned s) (hready : m.Ready s) : Owned (m.after s) := by
  unfold Owned at h ⊢
  cases m with
  | connect => exact h
  | start =>
    have hmain : s.main = .listening := hready
    rw [hmain] at h
    exact h
  | publish =>
    have hmain : s.main = .running := hready
    rw [hmain] at h
    simp only [Move.after, Main.holds, Main.stored, Bool.toNat_true] at h ⊢
    omega
  | spawn t => exact h
  | check t => exact h
  | accept t => exact h
  | interrupt t => exact h
  | fail t => exact h
  | recheck t => exact h
  | finish t => exact h
  | join =>
    rw [hready.1] at h
    exact h
  | takeBack =>
    have hmain : s.main = .joined := hready
    rw [hmain] at h
    simp only [Move.after]
    cases hfd : s.serverFd with
    | true => simpa [hfd, Main.holds, Main.stored] using h
    | false => simpa [hfd, Main.holds, Main.stored] using h
  | closeLast =>
    have hmain : s.main = .closing := hready
    rw [hmain] at h
    simp only [Move.after, Main.holds, Main.stored] at h ⊢
    omega
  | stop k =>
    have hsum := sum_update s.stop k .begun Stop.holds
    rw [show s.stop k = .idle from hready] at hsum
    simp only [Stop.holds_begun, Stop.holds_idle, add_zero] at hsum
    simpa only [Move.after, Server.stops, hsum] using h
  | exchange k =>
    have hsum := sum_update s.stop k (if s.serverFd then .holding else .idle) Stop.holds
    rw [show s.stop k = .begun from hready] at hsum
    simp only [Move.after, Server.stops]
    cases hfd : s.serverFd with
    | true =>
      simp only [hfd, if_true, Bool.toNat_true, Bool.toNat_false, Stop.holds_begun,
        Stop.holds_holding] at h hsum ⊢
      omega
    | false =>
      simp only [hfd, Bool.false_eq_true, if_false, Bool.toNat_false, Stop.holds_begun,
        Stop.holds_idle] at h hsum ⊢
      omega
  | shutdown k =>
    have hsum := sum_update s.stop k .shut Stop.holds
    rw [show s.stop k = .holding from hready] at hsum
    simp only [Stop.holds_holding, Stop.holds_shut, add_left_inj] at hsum
    simpa only [Move.after, Server.stops, hsum] using h
  | close k =>
    have hsum := sum_update s.stop k .idle Stop.holds
    rw [show s.stop k = .shut from hready] at hsum
    simp only [Stop.holds_shut, Stop.holds_idle] at hsum
    simp only [Move.after, Server.stops]
    omega

/-! ### Clients -/

/-- The worker is at a client. -/
def Worker.serves (c : Nat) (w : Worker) : Nat := if w.client = some c then 1 else 0

/-- Clients are accepted in their order, and each that was accepted is handled or was. -/
structure Clients (s : Server τ σ) : Prop where
  order : s.accepted ++ s.backlog = List.range s.clients
  served : ∀ c, s.accepted.count c = s.finished.count c + ∑ t, (s.worker t).serves c

omit [DecidableEq σ] in
theorem sum_goes {t : τ} {w : Worker} (h : w.client = (s.worker t).client) (c : Nat) :
    ∑ t', ((s.goes t w).worker t').serves c = ∑ t', (s.worker t').serves c := by
  have hsum := sum_update s.worker t w (Worker.serves c)
  have hw : w.serves c = (s.worker t).serves c := by rw [Worker.serves, Worker.serves, h]
  rw [hw, add_left_inj] at hsum
  exact hsum

omit [DecidableEq σ] in
/-- A worker that has no client before and after. -/
theorem Clients.goes (h : Clients s) {t : τ} {w : Worker} (hw : w.client = (s.worker t).client) :
    Clients (s.goes t w) where
  order := h.order
  served c := by
    rw [sum_goes hw]
    exact h.served c

theorem Clients.step (h : Clients s) (hready : m.Ready s) : Clients (m.after s) := by
  cases m with
  | connect =>
    refine ⟨?_, h.served⟩
    rw [Move.after, ← List.append_assoc, h.order, ← List.range_succ]
  | start => exact ⟨h.order, h.served⟩
  | publish => exact ⟨h.order, h.served⟩
  | spawn t => exact h.goes (by rw [hready.2]; rfl)
  | check t =>
    refine h.goes ?_
    rw [show s.worker t = .check from hready]
    split <;> rfl
  | interrupt t => exact h.goes (by rw [hready.1]; rfl)
  | fail t => exact h.goes (by rw [hready.1]; rfl)
  | recheck t =>
    refine h.goes ?_
    rw [show s.worker t = .failed from hready]
    split <;> rfl
  | accept t =>
    obtain ⟨hworker, -, hbacklog⟩ := hready
    obtain ⟨client, rest, hrest⟩ := List.exists_cons_of_ne_nil hbacklog
    have horder := h.order
    rw [hrest] at horder
    simp only [Move.after, hrest, List.headD_cons, List.tail_cons]
    refine ⟨(List.append_assoc ..).trans horder, fun c => ?_⟩
    have hsum := sum_update s.worker t (.handle client) (Worker.serves c)
    have hserves : Worker.accept.serves c = 0 := rfl
    have hhandle : (Worker.handle client).serves c = [client].count c := by
      simp [Worker.serves, Worker.client, List.count_singleton]
    rw [hworker, hserves, hhandle] at hsum
    rw [List.count_append, h.served c, Server.goes]
    dsimp only
    omega
  | finish t =>
    obtain ⟨client, hclient⟩ := Option.ne_none_iff_exists'.mp hready
    refine ⟨h.order, fun c => ?_⟩
    have hsum := sum_update s.worker t .check (Worker.serves c)
    have hcheck : Worker.check.serves c = 0 := rfl
    have hserves : (s.worker t).serves c = [client].count c := by
      simp [Worker.serves, hclient, List.count_singleton]
    rw [hcheck, hserves] at hsum
    simp only [Move.after, Server.goes, hclient, Option.toList_some, List.count_append, h.served c]
    omega
  | join => exact ⟨h.order, h.served⟩
  | takeBack => exact ⟨h.order, h.served⟩
  | closeLast => exact ⟨h.order, h.served⟩
  | stop k => exact ⟨h.order, h.served⟩
  | exchange k => exact ⟨h.order, h.served⟩
  | shutdown k => exact ⟨h.order, h.served⟩
  | close k => exact ⟨h.order, h.served⟩

/-! ### Places -/

/-- No worker is started before the socket is stored, and none is left when they are joined. -/
structure Placed (s : Server τ σ) : Prop where
  early : s.main = .listening ∨ s.main = .running → ∀ t, s.worker t = .idle
  late : s.main = .joined ∨ s.main = .closing ∨ s.main = .returned → ∀ t, s.worker t = .done
  /-- A socket that was shut down does not listen. -/
  deaf : (∃ k, s.stop k = .shut) ∨ 0 < s.closes → s.listens = false
  /-- Before a worker waits for ever, a call of `stop` takes the socket. -/
  woken : s.running = false → s.main ≠ .listening → s.serverFd = true →
    (∃ t, s.worker t = .accept) → ∃ k, s.stop k = .begun

omit [Fintype τ] [DecidableEq τ] [DecidableEq σ] in
theorem Placed.serving (h : Placed s) {t : τ} (hidle : s.worker t ≠ .idle)
    (hdone : s.worker t ≠ .done) : s.main = .serving := by
  cases hmain : s.main with
  | serving => rfl
  | listening => exact absurd (h.early (.inl hmain) t) hidle
  | running => exact absurd (h.early (.inr hmain) t) hidle
  | joined => exact absurd (h.late (.inl hmain) t) hdone
  | closing => exact absurd (h.late (.inr (.inl hmain)) t) hdone
  | returned => exact absurd (h.late (.inr (.inr hmain)) t) hdone

omit [Fintype τ] [DecidableEq σ] in
theorem Placed.goes (h : Placed s) (hserving : s.main = .serving) {t : τ} {w : Worker}
    (hw : w = .accept → s.running = true) : Placed (s.goes t w) where
  early hearly := by
    change s.main = _ ∨ s.main = _ at hearly
    rw [hserving] at hearly
    rcases hearly with h | h <;> cases h
  late hlate := by
    change s.main = _ ∨ s.main = _ ∨ s.main = _ at hlate
    rw [hserving] at hlate
    rcases hlate with h | h | h <;> cases h
  deaf := h.deaf
  woken hrunning hmain hfd haccept := by
    obtain ⟨t', ht'⟩ := haccept
    by_cases ht : t' = t
    · rw [ht] at ht'
      have hself : (s.goes t w).worker t = w := Function.update_self ..
      have hw' : w = .accept := hself.symm.trans ht'
      exact absurd ((hw hw').symm.trans hrunning) (by decide)
    · have hother : (s.goes t w).worker t' = s.worker t' := Function.update_of_ne ht ..
      exact h.woken hrunning hmain hfd ⟨t', hother.symm.trans ht'⟩

omit [Fintype τ] [DecidableEq τ] in
theorem exists_shut_of_stops {k : σ} {p : Stop} (hp : p ≠ .shut)
    (h : ∃ k', (s.stops k p).stop k' = .shut) : ∃ k', s.stop k' = .shut := by
  obtain ⟨k', hk'⟩ := h
  by_cases hk : k' = k
  · rw [hk] at hk'
    have hself : (s.stops k p).stop k = p := Function.update_self ..
    exact absurd (hself.symm.trans hk') hp
  · have hother : (s.stops k p).stop k' = s.stop k' := Function.update_of_ne hk ..
    exact ⟨k', hother.symm.trans hk'⟩

omit [Fintype τ] [DecidableEq τ] in
theorem exists_begun_stops {k : σ} (p : Stop) (hk : s.stop k ≠ .begun)
    (h : ∃ k', s.stop k' = .begun) : ∃ k', (s.stops k p).stop k' = .begun := by
  obtain ⟨k', hk'⟩ := h
  have hne : k' ≠ k := fun heq => hk (heq ▸ hk')
  have hother : (s.stops k p).stop k' = s.stop k' := Function.update_of_ne hne ..
  exact ⟨k', hother.trans hk'⟩

omit [Fintype τ] in
theorem Placed.step (h : Placed s) (hready : m.Ready s) : Placed (m.after s) := by
  cases m with
  | connect => exact ⟨h.early, h.late, h.deaf, h.woken⟩
  | start =>
    have hmain : s.main = .listening := hready
    refine ⟨fun _ => h.early (.inl hmain), fun hlate => ?_, h.deaf,
      fun hrunning => by cases hrunning⟩
    rcases hlate with hlate | hlate | hlate <;> cases hlate
  | publish =>
    have hmain : s.main = .running := hready
    refine ⟨fun hearly => ?_, fun hlate => ?_, h.deaf, ?_⟩
    · rcases hearly with hearly | hearly <;> cases hearly
    · rcases hlate with hlate | hlate | hlate <;> cases hlate
    · rintro - - - ⟨t, ht⟩
      cases (h.early (.inr hmain) t).symm.trans ht
  | spawn t => exact h.goes hready.1 (by simp)
  | check t =>
    have hcheck : s.worker t = .check := hready
    refine h.goes (h.serving (t := t) (by simp [hcheck]) (by simp [hcheck])) fun haccept => ?_
    split at haccept
    · assumption
    · cases haccept
  | accept t =>
    have haccept : s.worker t = .accept := hready.1
    have hgoes := h.goes (t := t) (w := .handle (s.backlog.headD 0))
      (h.serving (t := t) (by simp [haccept]) (by simp [haccept])) (by simp)
    exact ⟨hgoes.early, hgoes.late, hgoes.deaf, hgoes.woken⟩
  | interrupt t =>
    have haccept : s.worker t = .accept := hready.1
    exact h.goes (h.serving (t := t) (by simp [haccept]) (by simp [haccept])) (by simp)
  | fail t =>
    have haccept : s.worker t = .accept := hready.1
    exact h.goes (h.serving (t := t) (by simp [haccept]) (by simp [haccept])) (by simp)
  | recheck t =>
    have hfailed : s.worker t = .failed := hready
    refine h.goes (h.serving (t := t) (by simp [hfailed]) (by simp [hfailed])) fun haccept => ?_
    split at haccept <;> cases haccept
  | finish t =>
    have hclient : (s.worker t).client ≠ none := hready
    have hidle : s.worker t ≠ .idle := fun heq => hclient (by rw [heq]; rfl)
    have hdone : s.worker t ≠ .done := fun heq => hclient (by rw [heq]; rfl)
    have hgoes := h.goes (t := t) (w := .check) (h.serving hidle hdone) (by simp)
    exact ⟨hgoes.early, hgoes.late, hgoes.deaf, hgoes.woken⟩
  | join =>
    have hmain : s.main ≠ .listening := by simp [hready.1]
    refine ⟨fun hearly => ?_, fun _ => hready.2, h.deaf, fun hrunning _ => h.woken hrunning hmain⟩
    rcases hearly with hearly | hearly <;> cases hearly
  | takeBack =>
    have hmain : s.main = .joined := hready
    refine ⟨fun hearly => ?_, fun _ => h.late (.inl hmain), h.deaf, fun _ _ hfd => by cases hfd⟩
    simp only [Move.after] at hearly
    split at hearly <;> rcases hearly with hearly | hearly <;> cases hearly
  | closeLast =>
    have hmain : s.main = .closing := hready
    have hnot : s.main ≠ .listening := by simp [hmain]
    refine ⟨fun hearly => ?_, fun _ => h.late (.inr (.inl hmain)), fun _ => rfl,
      fun hrunning _ => h.woken hrunning hnot⟩
    rcases hearly with hearly | hearly <;> cases hearly
  | stop k =>
    refine ⟨h.early, h.late, fun hdeaf => h.deaf ?_, fun _ _ _ _ => ⟨k, Function.update_self ..⟩⟩
    exact hdeaf.imp_left (exists_shut_of_stops (by simp))
  | exchange k =>
    refine ⟨h.early, h.late, fun hdeaf => h.deaf ?_, fun _ _ hfd => by cases hfd⟩
    exact hdeaf.imp_left (exists_shut_of_stops (by split <;> simp))
  | shutdown k =>
    have hholding : s.stop k = .holding := hready
    exact ⟨h.early, h.late, fun _ => rfl, fun hrunning hmain hfd haccept =>
      exists_begun_stops .shut (by simp [hholding]) (h.woken hrunning hmain hfd haccept)⟩
  | close k =>
    have hshut : s.stop k = .shut := hready
    exact ⟨h.early, h.late, fun _ => rfl, fun hrunning hmain hfd haccept =>
      exists_begun_stops .idle (by simp [hshut]) (h.woken hrunning hmain hfd haccept)⟩

/-! ### Runs -/

/-- A run of the server. -/
abbrev Run (s : Server τ σ) (ms : List (Move τ σ)) (s' : Server τ σ) : Prop :=
  Trace (Steps Server.step) s ms s'

variable {ms : List (Move τ σ)}

theorem owned_of_run [Fintype σ] (h : Run Server.init ms s) : Owned s := by
  refine Trace.invariant (fun s m s' hs h => ?_) h
    (by simp [Owned, Server.init, Main.holds, Main.stored])
  obtain ⟨hready, rfl⟩ := step_eq_some_iff.mp h
  exact Owned.step hs hready

theorem clients_inv (h : Run Server.init ms s) : Clients s := by
  refine Trace.invariant (fun s m s' hs h => ?_) h ⟨rfl, fun c => ?_⟩
  · obtain ⟨hready, rfl⟩ := step_eq_some_iff.mp h
    exact Clients.step hs hready
  · simp [Server.init, Worker.serves, Worker.client]

theorem placed_of_run (h : Run Server.init ms s) : Placed s := by
  refine Trace.invariant (fun s m s' hs h => ?_) h ⟨fun _ _ => rfl, fun hlate => ?_,
    fun hdeaf => ?_, fun _ hmain => absurd rfl hmain⟩
  · obtain ⟨hready, rfl⟩ := step_eq_some_iff.mp h
    exact Placed.step hs hready
  · rcases hlate with hlate | hlate | hlate <;> cases hlate
  · rcases hdeaf with ⟨k, hk⟩ | hpos
    · cases hk
    · cases hpos

/-- At its end `serve` has taken the socket back. -/
theorem taken_back_of_run (h : Run Server.init ms s) :
    s.main = .closing ∨ s.main = .returned → s.serverFd = false := by
  refine Trace.invariant (P := fun s => s.main = .closing ∨ s.main = .returned → s.serverFd = false)
    (fun s m s' hs h => ?_) h fun _ => rfl
  obtain ⟨hready, rfl⟩ := step_eq_some_iff.mp h
  cases m with
  | start => exact fun hlate => by rcases hlate with hlate | hlate <;> cases hlate
  | publish => exact fun hlate => by rcases hlate with hlate | hlate <;> cases hlate
  | join => exact fun hlate => by rcases hlate with hlate | hlate <;> cases hlate
  | takeBack => exact fun _ => rfl
  | closeLast => exact fun _ => hs (.inl hready)
  | exchange k => exact fun _ => rfl
  | _ => exact hs

omit [Fintype τ] [DecidableEq τ] in
theorem holds_le_sum [Fintype σ] {k k' : σ} (hne : k ≠ k') :
    (s.stop k).holds + (s.stop k').holds ≤ ∑ k, (s.stop k).holds := by
  rw [← Finset.sum_pair (f := fun k => (s.stop k).holds) hne]
  exact Finset.sum_le_sum_of_subset (Finset.subset_univ _)

theorem Main.stored_le_one (p : Main) : p.stored ≤ 1 := by
  cases p <;> decide

/-- **The listening socket is closed once.** However the calls of `stop` and the end of `serve`
meet, two of them never have the socket, it is never closed a second time, and when `serve` has
returned and no call of `stop` has it any more, it is closed. -/
theorem closed_once [Fintype σ] (h : Run Server.init ms s) :
    s.closes ≤ 1 ∧
      (∀ k k', (s.stop k).holds = 1 → (s.stop k').holds = 1 → k = k') ∧
      (s.main = .returned → (∀ k, (s.stop k).holds = 0) → s.closes = 1 ∧ s.listens = false) := by
  have howned := owned_of_run h
  have hone := s.main.stored_le_one
  rw [Owned] at howned
  refine ⟨by omega, fun k k' hk hk' => ?_, fun hmain hstops => ?_⟩
  · by_contra hne
    have hsum := holds_le_sum (s := s) hne
    omega
  · have hsum : ∑ k, (s.stop k).holds = 0 := Finset.sum_eq_zero fun k _ => hstops k
    rw [hsum, hmain, taken_back_of_run h (.inr hmain)] at howned
    have hcloses : s.closes = 1 := howned
    exact ⟨hcloses, (placed_of_run h).deaf (.inr (by omega))⟩

/-- Two workers, a client, and a call of `stop` while the client is handled. -/
def stopped : List (Move Bool Unit) :=
  [.connect, .start, .publish, .spawn false, .check false, .accept false, .spawn true, .check true,
    .stop (), .finish false, .exchange (), .check false, .shutdown (), .fail true, .recheck true,
    .join, .close (), .takeBack]

def returned : Server Bool Unit := (run Server.step Server.init stopped).get rfl

theorem run_stopped : Run Server.init stopped returned :=
  trace_iff_run.mpr (Option.some_get (by rfl)).symm

theorem closed_once_stopped : returned.main = .returned ∧ returned.closes = 1 :=
  ⟨rfl, ((closed_once run_stopped).2.2 rfl fun _ => rfl).1⟩

/-- **Every client is handled once.** Clients are accepted in the order in which they connect; two
workers never have the same one, and none is handled again; and when `serve` has returned every
client that was accepted has been handled to its end. -/
theorem clients_of_run (h : Run Server.init ms s) :
    s.accepted ++ s.backlog = List.range s.clients ∧ s.finished.Nodup ∧
      (∀ t t' c, s.worker t = .handle c → s.worker t' = .handle c → t = t') ∧
      (∀ t c, s.worker t = .handle c → c ∈ s.accepted ∧ c ∉ s.finished) ∧
      (s.main = .returned → s.finished.Perm s.accepted) := by
  have hclients := clients_inv h
  have hnodup : s.accepted.Nodup := by
    have hall : (s.accepted ++ s.backlog).Nodup := hclients.order ▸ List.nodup_range
    exact hall.of_append_left
  have hcount := fun c => List.nodup_iff_count_le_one.mp hnodup c
  have hserves : ∀ {t c}, s.worker t = .handle c → (s.worker t).serves c = 1 := by
    intro t c ht
    rw [ht]
    exact if_pos rfl
  have hle : ∀ t c, (s.worker t).serves c ≤ ∑ t, (s.worker t).serves c := fun t c =>
    Finset.single_le_sum (f := fun t => (s.worker t).serves c) (fun _ _ => Nat.zero_le _)
      (Finset.mem_univ t)
  refine ⟨hclients.order, List.nodup_iff_count_le_one.mpr fun c => ?_, fun t t' c ht ht' => ?_,
    fun t c ht => ?_, fun hmain => ?_⟩
  · have hserved := hclients.served c
    have hone := hcount c
    omega
  · by_contra hne
    have hpair : (s.worker t).serves c + (s.worker t').serves c ≤ ∑ t, (s.worker t).serves c := by
      rw [← Finset.sum_pair (f := fun t => (s.worker t).serves c) hne]
      exact Finset.sum_le_sum_of_subset (Finset.subset_univ _)
    have hserved := hclients.served c
    have hone := hcount c
    rw [hserves ht, hserves ht'] at hpair
    omega
  · have hserved := hclients.served c
    have hone := hcount c
    have hat := hle t c
    rw [hserves ht] at hat
    exact ⟨List.count_pos_iff.mp (by omega), fun hmem => by
      have hpos := List.count_pos_iff.mpr hmem
      omega⟩
  · refine List.perm_iff_count.mpr fun c => ?_
    have hdone := (placed_of_run h).late (.inr (.inr hmain))
    have hzero : ∑ t, (s.worker t).serves c = 0 :=
      Finset.sum_eq_zero fun t _ => by rw [hdone t]; rfl
    rw [hclients.served c, hzero, add_zero]

theorem clients_of_run_stopped : returned.accepted = [0] ∧ returned.finished.Perm [0] :=
  ⟨rfl, (clients_of_run run_stopped).2.2.2.2 rfl⟩

/-! ### The end -/

/-- The server was told to stop, and not before it ran. -/
def Stopping (s : Server τ σ) : Prop := s.running = false ∧ s.main ≠ .listening

/-- A step that is not from outside. -/
def Move.Goes : Move τ σ → Prop
  | .connect | .stop _ => False
  | _ => True

/-- A step that is not left to chance. -/
def Move.Due : Move τ σ → Prop
  | .interrupt _ => False
  | m => m.Goes

/-- The steps that a worker can still take. -/
def Worker.work : Worker → Nat
  | .idle => 2
  | .check => 1
  | .accept => 3
  | .failed => 1
  | .handle _ => 2
  | .done => 0

def Stop.work : Stop → Nat
  | .idle => 0
  | .begun => 3
  | .holding => 2
  | .shut => 1

def Main.work : Main → Nat
  | .listening => 5
  | .running => 4
  | .serving => 3
  | .joined => 2
  | .closing => 1
  | .returned => 0

/-- The steps that are left. -/
def work [Fintype σ] (s : Server τ σ) : Nat :=
  s.main.work + ∑ t, (s.worker t).work + ∑ k, (s.stop k).work

omit [Fintype τ] in
theorem Stopping.step (h : Stopping s) (hready : m.Ready s) : Stopping (m.after s) := by
  cases m with
  | start => exact absurd hready h.2
  | publish => exact ⟨h.1, by simp [Move.after]⟩
  | join => exact ⟨h.1, by simp [Move.after]⟩
  | takeBack =>
    refine ⟨h.1, ?_⟩
    simp only [Move.after]
    split <;> simp
  | closeLast => exact ⟨h.1, by simp [Move.after]⟩
  | stop k => exact ⟨rfl, h.2⟩
  | _ => exact h

omit [DecidableEq σ] in
/-- A worker that goes on has less to do. -/
theorem work_goes_lt [Fintype σ] {t : τ} {w : Worker} (h : w.work < (s.worker t).work) :
    work (s.goes t w) < work s := by
  have hsum := sum_update s.worker t w Worker.work
  simp only [work, Server.goes]
  omega

omit [DecidableEq τ] in
theorem work_stops_lt [Fintype σ] {k : σ} {p : Stop} (h : p.work < (s.stop k).work) :
    work (s.stops k p) < work s := by
  have hsum := sum_update s.stop k p Stop.work
  simp only [work, Server.stops]
  omega

theorem work_step [Fintype σ] (hs : Stopping s) (hm : m.Goes) (hready : m.Ready s) :
    work (m.after s) < work s := by
  cases m with
  | connect => cases hm
  | stop k => cases hm
  | start => exact absurd hready hs.2
  | publish =>
    have hmain : s.main = .running := hready
    simp [work, Move.after, hmain, Main.work]
  | spawn t => exact work_goes_lt (by rw [hready.2]; decide)
  | check t =>
    refine work_goes_lt ?_
    rw [show s.worker t = .check from hready, hs.1]
    decide
  | accept t =>
    have hlt : (Worker.handle (s.backlog.headD 0)).work < (s.worker t).work := by
      rw [hready.1]
      exact Nat.lt_succ_self 2
    exact work_goes_lt (s := s) hlt
  | interrupt t => exact work_goes_lt (by rw [hready.1]; decide)
  | fail t => exact work_goes_lt (by rw [hready.1]; decide)
  | recheck t =>
    refine work_goes_lt ?_
    rw [show s.worker t = .failed from hready, hs.1]
    decide
  | finish t =>
    obtain ⟨c, hc⟩ : ∃ c, s.worker t = .handle c := by
      cases hworker : s.worker t with
      | handle c => exact ⟨c, rfl⟩
      | _ => exact absurd (congrArg Worker.client hworker) hready
    have hlt : Worker.check.work < (s.worker t).work := by
      rw [hc]
      exact Nat.lt_succ_self 1
    exact work_goes_lt (s := s) hlt
  | join => simp [work, Move.after, hready.1, Main.work]
  | takeBack =>
    have hmain : s.main = .joined := hready
    simp only [work, Move.after, hmain]
    split <;> simp [Main.work]
  | closeLast =>
    have hmain : s.main = .closing := hready
    simp [work, Move.after, hmain, Main.work]
  | exchange k =>
    refine work_stops_lt (s := s) (k := k) (p := if s.serverFd then .holding else .idle) ?_
    rw [show s.stop k = .begun from hready]
    split <;> decide
  | shutdown k =>
    exact work_stops_lt (s := s) (p := .shut) (by rw [show s.stop k = .holding from hready]; decide)
  | close k =>
    exact work_stops_lt (s := s) (p := .idle) (by rw [show s.stop k = .shut from hready]; decide)

omit [Fintype τ] [DecidableEq τ] [DecidableEq σ] in
/-- While a worker waits for a client, the call of `stop` that will wake it can go on. -/
theorem exists_due_of_listens [Fintype σ] (howned : Owned s) (hplaced : Placed s)
    (hs : Stopping s) (hserving : s.main = .serving) {t : τ} (hworker : s.worker t = .accept)
    (hlistens : s.listens = true) : ∃ m : Move τ σ, m.Due ∧ m.Ready s := by
  have hdeaf : ¬ ((∃ k, s.stop k = .shut) ∨ 0 < s.closes) := fun hdeaf =>
    absurd ((hplaced.deaf hdeaf).symm.trans hlistens) (by decide)
  rw [not_or] at hdeaf
  cases hfd : s.serverFd with
  | true =>
    obtain ⟨k, hk⟩ := hplaced.woken hs.1 hs.2 hfd ⟨t, hworker⟩
    exact ⟨.exchange k, trivial, hk⟩
  | false =>
    -- Nobody has closed the socket, so somebody has it.
    have hsum : ∑ k, (s.stop k).holds ≠ 0 := by
      rw [Owned, hfd, hserving] at howned
      simp only [Main.holds, Main.stored, Bool.toNat_false] at howned
      omega
    obtain ⟨k, -, hk⟩ := Finset.exists_ne_zero_of_sum_ne_zero hsum
    cases hstop : s.stop k with
    | holding => exact ⟨.shutdown k, trivial, hstop⟩
    | shut => exact absurd ⟨k, hstop⟩ hdeaf.1
    | idle => exact absurd (by rw [hstop]; rfl) hk
    | begun => exact absurd (by rw [hstop]; rfl) hk

omit [DecidableEq τ] [DecidableEq σ] in
/-- A server that was told to stop is not stuck. -/
theorem exists_due [Fintype σ] (howned : Owned s) (hplaced : Placed s) (hs : Stopping s)
    (hmain : s.main ≠ .returned) : ∃ m : Move τ σ, m.Due ∧ m.Ready s := by
  cases hplace : s.main with
  | listening => exact absurd hplace hs.2
  | running => exact ⟨.publish, trivial, hplace⟩
  | joined => exact ⟨.takeBack, trivial, hplace⟩
  | closing => exact ⟨.closeLast, trivial, hplace⟩
  | returned => exact absurd hplace hmain
  | serving =>
    by_cases hall : ∀ t, s.worker t = .done
    · exact ⟨.join, trivial, hplace, hall⟩
    obtain ⟨t, ht⟩ := not_forall.mp hall
    cases hworker : s.worker t with
    | idle => exact ⟨.spawn t, trivial, hplace, hworker⟩
    | check => exact ⟨.check t, trivial, hworker⟩
    | failed => exact ⟨.recheck t, trivial, hworker⟩
    | handle c => exact ⟨.finish t, trivial, by rw [Move.Ready, hworker]; simp [Worker.client]⟩
    | done => exact absurd hworker ht
    | accept =>
      cases hlistens : s.listens with
      | false => exact ⟨.fail t, trivial, hworker, by simp [hlistens]⟩
      | true => exact exists_due_of_listens howned hplaced hs hplace hworker hlistens

/-- **A server that was told to stop stops.** Once `running_` was set to false after `serve` had set
it, all threads together take a bounded number of steps, however many clients still connect; and
if none of them can take a step, `serve` has returned. -/
theorem serve_ends [Fintype σ] (h : Run Server.init ms s) (hs : Stopping s) {ms' : List (Move τ σ)}
    (h' : Run s ms' s') (hms' : ∀ k, .stop k ∉ ms') :
    (ms'.filter fun m => m ≠ .connect).length ≤ work s ∧
      ((∀ m : Move τ σ, m.Due → ¬ m.Ready s') → s'.main = .returned) := by
  have howned := owned_of_run h
  have hplaced := placed_of_run h
  clear h
  induction h' with
  | nil s =>
    refine ⟨Nat.zero_le _, fun hstuck => ?_⟩
    by_contra hmain
    obtain ⟨m, hdue, hready⟩ := exists_due howned hplaced hs hmain
    exact hstuck m hdue hready
  | @cons s s₁ s' m ms' hstep hrest ih =>
    obtain ⟨hready, rfl⟩ := step_eq_some_iff.mp hstep
    obtain ⟨hlength, hend⟩ := ih (hs.step hready)
      (fun k hk => hms' k (List.mem_cons_of_mem _ hk)) (howned.step hready) (hplaced.step hready)
    refine ⟨?_, hend⟩
    by_cases hconnect : m = .connect
    · -- A client that connects gives the threads nothing to do.
      subst hconnect
      exact hlength
    · have hgoes : m.Goes := by
        cases m with
        | connect => exact absurd rfl hconnect
        | stop k => exact absurd List.mem_cons_self (hms' k)
        | _ => trivial
      have hlt := work_step hs hgoes hready
      rw [List.filter_cons_of_pos (by simpa using hconnect), List.length_cons]
      omega

theorem serve_ends_stopped : ∃ s s' : Server Bool Unit, Run Server.init (stopped.take 9) s ∧
    Run s (stopped.drop 9) s' ∧ (stopped.drop 9).length ≤ work s := by
  have h : Run Server.init (stopped.take 9 ++ stopped.drop 9) returned := run_stopped
  obtain ⟨s, hbefore, hafter⟩ := h.split
  have hs : s = (run Server.step Server.init (stopped.take 9)).get rfl :=
    Option.some.inj ((trace_iff_run.mp hbefore).symm.trans (Option.some_get _).symm)
  have hstopping : Stopping s := by
    rw [hs]
    exact ⟨rfl, by decide⟩
  exact ⟨s, returned, hbefore, hafter,
    (serve_ends hbefore hstopping hafter (by decide)).1⟩

end

end CppLaravel.Http.Serve
