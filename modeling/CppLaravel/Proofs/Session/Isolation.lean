import CppLaravel.Proofs.Session.Cells
import CppLaravel.Session.Requests

/-!
# `CppLaravel.Proofs.Session.Isolation`: clients do not see each other's sessions

A request reads and writes the session of its own id, and of the ids that are minted for it
(`run_congr`, `run_frame`). So what a client reads is what it would read if it were alone, as
long as no id has two owners. The empty id has: every request without a session id gets it, and the
store keeps a session under it like under any other (`empty_id_shared`).

`reads_isolated`: where no handler puts anything into a session with the empty id, every client
reads as if it were alone, and a request without a session id reads an empty session.
-/

set_option autoImplicit false

namespace CppLaravel.Session

open CppLaravel.Http

namespace ArraySessionStore

/-- Two stores with the same sessions under some ids. -/
structure AgreeOn (A : Set Bytes) (s s' : ArraySessionStore) : Prop where
  ttl : s.ttl = s'.ttl
  cell : ∀ u ∈ A, s.data u = s'.data u ∧ s.lastSeen u = s'.lastSeen u

variable {A B : Set Bytes} {now : Int} {s s' t : ArraySessionStore}

theorem AgreeOn.refl (A : Set Bytes) (s : ArraySessionStore) : AgreeOn A s s :=
  ⟨rfl, fun _ _ => ⟨rfl, rfl⟩⟩

theorem AgreeOn.symm (h : AgreeOn A s s') : AgreeOn A s' s :=
  ⟨h.ttl.symm, fun u hu => ⟨(h.cell u hu).1.symm, (h.cell u hu).2.symm⟩⟩

theorem AgreeOn.trans (h : AgreeOn A s s') (h' : AgreeOn A s' t) : AgreeOn A s t :=
  ⟨h.ttl.trans h'.ttl, fun u hu =>
    ⟨(h.cell u hu).1.trans (h'.cell u hu).1, (h.cell u hu).2.trans (h'.cell u hu).2⟩⟩

theorem AgreeOn.union (h : AgreeOn A s s') (h' : AgreeOn B s s') : AgreeOn (A ∪ B) s s' :=
  ⟨h.ttl, fun u hu => hu.elim (h.cell u) (h'.cell u)⟩

/-- The same is written on both sides. -/
theorem AgreeOn.withCell (h : AgreeOn A s s') (u : Bytes) (session : Option StringMap)
    (stamp : Option Int) :
    AgreeOn A (s.withCell u session stamp) (s'.withCell u session stamp) := by
  refine ⟨h.ttl, fun w hw => ?_⟩
  by_cases hwu : w = u
  · simp [hwu]
  · simpa [hwu] using h.cell w hw

theorem agreeOn_keeps (now : Int) {u : Bytes} (hu : u ∈ A) : Keeps (AgreeOn A) now u where
  ttl h := h.ttl
  drop {s s'} h := by
    obtain ⟨hdata, hseen⟩ := h.cell u hu
    have hiff : s.Expired now u ↔ s'.Expired now u := by rw [Expired, Expired, h.ttl, hseen]
    rw [dropIfExpired_eq, dropIfExpired_eq]
    by_cases hexpired : s.Expired now u
    · rw [if_pos hexpired, if_pos (hiff.mp hexpired)]
      exact ⟨h.withCell _ _ _, by simp, by simp⟩
    · rw [if_neg hexpired, if_neg (mt hiff.mpr hexpired)]
      exact ⟨h, hdata, hseen⟩
  seen h _ := (h.cell u hu).2
  withCell session stamp h := h.withCell u session stamp

/-- A call leaves the sessions that it is not for. -/
theorem step_frame {op : Op} (hop : op ≠ .gc) (hids : ∀ u ∈ op.ids, u ∉ A) :
    AgreeOn A s (s.step now op).2 := by
  refine step_invariant (P := AgreeOn A s) hop (fun u hu t session stamp h => ?_) (.refl A s)
  refine ⟨h.ttl, fun w hw => ?_⟩
  have hwu : w ≠ u := by
    rintro rfl
    exact hids w hu hw
  simpa [hwu] using h.cell w hw

/-- There is no session under the empty id. -/
def Blank (s : ArraySessionStore) : Prop := AgreeOn {[]} s (new s.ttl)

/-- A session that is moved is gone from its old id. -/
theorem rename_gone (now : Int) {src dst : Bytes} (hne : src ≠ dst) {session : StringMap}
    (hdata : s.data src = some session) :
    (s.rename now src dst).2.data src = none ∧ (s.rename now src dst).2.lastSeen src = none := by
  simp only [rename]
  cases hdrop : (s.dropIfExpired now src).data src with
  | none =>
    by_cases hexpired : s.Expired now src
    · rw [dropIfExpired_eq, if_pos hexpired]
      simp
    · rw [dropIfExpired_of_not_expired hexpired, hdata] at hdrop
      cases hdrop
  | some moved =>
    simp only [rename_update]
    simp [hne]

end ArraySessionStore

/-! ### One call -/

theorem SessionCall.on_ne_gc (c : SessionCall) (sid : Bytes) : c.on sid ≠ .gc := by
  cases c <;> exact Op.noConfusion

theorem SessionCall.ids_on (c : SessionCall) (sid : Bytes) : (c.on sid).ids = [sid] := by
  cases c <;> rfl

/-- What a method answers for an empty session. -/
def SessionCall.empty : SessionCall → Reply
  | get _ => .value none
  | has _ => .truth false
  | _ => .nothing

namespace ArraySessionStore

/-- An empty session stays empty until something is put into it. -/
theorem step_new (ttl now : Int) (sid : Bytes) {c : SessionCall} (hc : ∀ key v, c ≠ .put key v) :
    (new ttl).step now (c.on sid) = (c.empty, new ttl) := by
  have hdrop : (new ttl).dropIfExpired now sid = new ttl :=
    dropIfExpired_of_not_expired fun ⟨_, _, ht, _⟩ => by simp [new] at ht
  cases c with
  | put key v => exact absurd rfl (hc key v)
  | get key =>
    simp only [SessionCall.on, step, get, hdrop]
    rfl
  | has key =>
    simp only [SessionCall.on, step, has, hdrop]
    rfl
  | forget key =>
    simp only [SessionCall.on, step, forget, hdrop]
    rfl
  | flush =>
    have hnone : ∀ (β : Type), Function.update (fun _ : Bytes => (none : Option β)) sid none =
        fun _ => none := fun β => Function.update_eq_self (f := fun _ => none) sid
    simp only [SessionCall.on, step, flush, new, hnone]
    rfl

/-- Without a session under the empty id there is none after a call that puts nothing. -/
theorem Blank.call {s : ArraySessionStore} (h : s.Blank) (now : Int) {c : SessionCall}
    (hc : ∀ key v, c ≠ .put key v) :
    (s.step now (c.on [])).1 = c.empty ∧ (s.step now (c.on [])).2.Blank := by
  have hids : ∀ u ∈ (c.on []).ids, Keeps (AgreeOn {[]}) now u := by
    intro u hu
    rw [c.ids_on] at hu
    exact agreeOn_keeps now (List.mem_singleton.mp hu)
  obtain ⟨hreply, hagree⟩ := step_congr (c.on_ne_gc []) hids h
  rw [step_new s.ttl now [] hc] at hreply hagree
  have httl : (s.step now (c.on [])).2.ttl = s.ttl := hagree.ttl
  refine ⟨hreply, ?_⟩
  rw [Blank, httl]
  exact hagree

/-- Other sessions do not matter for that. -/
theorem Blank.of_frame {s s' : ArraySessionStore} (h : s.Blank) (hframe : AgreeOn {[]} s s') :
    s'.Blank := by
  rw [Blank, ← hframe.ttl]
  exact hframe.symm.trans h

end ArraySessionStore

open ArraySessionStore (AgreeOn Blank)

/-! ### A login -/

/-- A login is a `put` and a `rename`. -/
theorem attemptLogin_eq (c : Call) (s : ArraySessionStore) (now now' : Int) (fresh : Bytes) :
    attemptLogin c s now now' fresh =
      match c.attempt with
      | none => (false, c.req, c.res, s)
      | some user =>
        let s₁ := (s.step now (.put c.presented authId (intToString user.id.toInt))).2
        let r := s₁.step now' (.rename c.presented fresh)
        let id := if r.1 = .truth true then fresh else c.presented
        (true, (c.stamp id).1, (c.stamp id).2, r.2) := by
  unfold attemptLogin
  cases c.attempt with
  | none => rfl
  | some user =>
    show (true, (c.stamp (if _ then _ else _)).1, _) = _
    simp only [ArraySessionStore.step, login, Prod.map_fst, Prod.map_snd, Reply.truth.injEq]
    rfl

section
variable {c : Call} {s s' : ArraySessionStore} {now now' : Int} {fresh : Bytes} {A : Set Bytes}

theorem sessionOf_stamp (c : Call) (id : Bytes) : sessionOf (c.stamp id).1 c.opts = id := by
  simp [sessionOf, Call.stamp]

/-- Afterwards the session of the request is the one before, or the fresh one. -/
theorem sessionOf_attemptLogin (s : ArraySessionStore) (now now' : Int)
    (hpresented : c.presented ∈ A) (hfresh : fresh ∈ A) :
    sessionOf (attemptLogin c s now now' fresh).2.1 c.opts ∈ A := by
  rw [attemptLogin_eq]
  cases c.attempt with
  | none => exact hpresented
  | some user =>
    dsimp only
    rw [sessionOf_stamp]
    split
    · exact hfresh
    · exact hpresented

/-- Stores that agree on the two sessions of a login. -/
theorem attemptLogin_congr (now now' : Int) (h : AgreeOn A s s') (hpresented : c.presented ∈ A)
    (hfresh : fresh ∈ A) :
    (attemptLogin c s now now' fresh).1 = (attemptLogin c s' now now' fresh).1 ∧
      (attemptLogin c s now now' fresh).2.1 = (attemptLogin c s' now now' fresh).2.1 ∧
      AgreeOn A (attemptLogin c s now now' fresh).2.2.2
        (attemptLogin c s' now now' fresh).2.2.2 := by
  rw [attemptLogin_eq, attemptLogin_eq]
  cases c.attempt with
  | none => exact ⟨rfl, rfl, h⟩
  | some user =>
    have hput : ∀ u ∈ (Op.put c.presented authId (intToString user.id.toInt)).ids,
        ArraySessionStore.Keeps (AgreeOn A) now u := by
      intro u hu
      obtain rfl := List.mem_singleton.mp hu
      exact ArraySessionStore.agreeOn_keeps now hpresented
    have hrename : ∀ u ∈ (Op.rename c.presented fresh).ids,
        ArraySessionStore.Keeps (AgreeOn A) now' u := by
      intro u hu
      refine ArraySessionStore.agreeOn_keeps now' ?_
      rcases List.mem_pair.mp hu with rfl | rfl
      · exact hpresented
      · exact hfresh
    obtain ⟨-, hs₁⟩ := ArraySessionStore.step_congr Op.noConfusion hput h
    obtain ⟨hreply, hs₂⟩ := ArraySessionStore.step_congr Op.noConfusion hrename hs₁
    simp only [hreply]
    exact ⟨trivial, trivial, hs₂⟩

/-- A login leaves the other sessions. -/
theorem attemptLogin_frame (hpresented : c.presented ∉ A) (hfresh : fresh ∉ A) :
    AgreeOn A s (attemptLogin c s now now' fresh).2.2.2 := by
  rw [attemptLogin_eq]
  cases c.attempt with
  | none => exact .refl A s
  | some user =>
    refine AgreeOn.trans (ArraySessionStore.step_frame Op.noConfusion ?_)
      (ArraySessionStore.step_frame Op.noConfusion ?_)
    · intro u hu
      obtain rfl := List.mem_singleton.mp hu
      exact hpresented
    · intro u hu
      rcases List.mem_pair.mp hu with rfl | rfl
      · exact hpresented
      · exact hfresh

/-- A login from the empty id takes its session along, unless that expires at once. -/
theorem attemptLogin_blank (now now' : Int) (h : s.Blank) (hpresented : c.presented = [])
    (hfresh : fresh ≠ []) :
    (attemptLogin c s now now' fresh).2.2.2.Blank ∧
      (attemptLogin c s now now' fresh).1 = c.attempt.isSome ∧
      (sessionOf (attemptLogin c s now now' fresh).2.1 c.opts = [] →
        c.attempt.isSome → s.ttl ≠ 0 ∧ now' - now > s.ttl) := by
  rw [attemptLogin_eq]
  cases c.attempt with
  | none => exact ⟨h, rfl, fun _ hsome => by cases hsome⟩
  | some user =>
    dsimp only
    rw [hpresented, sessionOf_stamp]
    generalize hput : (s.step now (.put [] authId (intToString user.id.toInt))).2 = s₁
    have httl : s₁.ttl = s.ttl := hput ▸ ArraySessionStore.ttl_step_of_ne_gc Op.noConfusion s now
    -- What is there after the `put`.
    have hvalue : ∃ v, s₁.value [] authId = some v := by
      subst hput
      exact ⟨_, (ArraySessionStore.value_put ..).trans (if_pos ⟨rfl, rfl⟩)⟩
    have hseen : s.ttl ≠ 0 → s₁.lastSeen [] = some now := by
      intro hne
      subst hput
      show (s.put now [] authId _).lastSeen [] = _
      simp only [ArraySessionStore.put, ArraySessionStore.touch_update]
      rw [ArraySessionStore.lastSeen_withCell, if_pos rfl, ArraySessionStore.stamp,
        ArraySessionStore.ttl_dropIfExpired, if_pos hne]
    obtain ⟨v, hv⟩ := hvalue
    obtain ⟨session, hsession, -⟩ := Option.bind_eq_some_iff.mp hv
    have hgone := ArraySessionStore.rename_gone now' (Ne.symm hfresh) hsession
    refine ⟨⟨rfl, ?_⟩, rfl, fun hempty _ => ?_⟩
    · rintro u rfl
      exact hgone
    · split at hempty
      · exact absurd hempty hfresh
      · rename_i hfailed
        by_contra hlive
        have hnot : ¬ s₁.Expired now' [] := by
          rintro ⟨hne, t, ht, hold⟩
          rw [httl] at hne hold
          rw [hseen hne] at ht
          cases ht
          exact hlive ⟨hne, hold⟩
        have hheld : (s₁.dropIfExpired now' []).value [] authId = some v := by
          rw [ArraySessionStore.dropIfExpired_of_not_expired hnot, hv]
        have hok : (s₁.rename now' [] fresh).1 = true :=
          ArraySessionStore.rename_fst_of_value hheld
        exact hfailed (congrArg Reply.truth hok)

end

/-! ### A handler -/

/-- The session ids that a handler may come to. -/
theorem Work.run_congr {A : Set Bytes} {v : Visit} (hmint : ∀ j, v.mint j ∈ A) (w : Work)
    (t m : Nat) {req : Request} (hid : sessionOf req v.opts ∈ A) {s s' : ArraySessionStore}
    (h : AgreeOn A s s') :
    (w.run v t m req s).1 = (w.run v t m req s').1 ∧
      AgreeOn A (w.run v t m req s).2 (w.run v t m req s').2 := by
  induction w generalizing t m req s s' with
  | done => exact ⟨rfl, h⟩
  | call c next ih =>
    have hids : ∀ u ∈ (c.on (sessionOf req v.opts)).ids,
        ArraySessionStore.Keeps (AgreeOn A) (v.clock t) u := by
      intro u hu
      rw [c.ids_on] at hu
      obtain rfl := List.mem_singleton.mp hu
      exact ArraySessionStore.agreeOn_keeps _ hid
    obtain ⟨hreply, hs⟩ := ArraySessionStore.step_congr (c.on_ne_gc _) hids h
    obtain ⟨hreplies, hs'⟩ := ih (s.step (v.clock t) (c.on (sessionOf req v.opts))).1 (t + 1) m
      hid hs
    simp only [Work.run, ← hreply]
    exact ⟨congrArg _ hreplies, hs'⟩
  | login users username password next ih =>
    obtain ⟨hok, hreq, hs⟩ := attemptLogin_congr (c := v.loginCall req users username password)
      (v.clock t) (v.clock (t + 1)) h hid (hmint m)
    simp only [Work.run, ← hok, ← hreq]
    exact ih _ (t + 2) (m + 1) (sessionOf_attemptLogin s _ _ hid (hmint m)) hs

/-- The sessions of others stay. -/
theorem Work.run_frame {A : Set Bytes} {v : Visit} (hmint : ∀ j, v.mint j ∉ A) (w : Work)
    (t m : Nat) {req : Request} (hid : sessionOf req v.opts ∉ A) (s : ArraySessionStore) :
    AgreeOn A s (w.run v t m req s).2 := by
  induction w generalizing t m req s with
  | done => exact .refl A s
  | call c next ih =>
    refine AgreeOn.trans (ArraySessionStore.step_frame (c.on_ne_gc _) ?_) (ih _ (t + 1) m hid _)
    intro u hu
    rw [c.ids_on] at hu
    obtain rfl := List.mem_singleton.mp hu
    exact hid
  | login users username password next ih =>
    let c := v.loginCall req users username password
    have hframe : AgreeOn A s (attemptLogin c s (v.clock t) (v.clock (t + 1)) (v.mint m)).2.2.2 :=
      attemptLogin_frame hid (hmint m)
    have hnext : sessionOf (attemptLogin c s (v.clock t) (v.clock (t + 1)) (v.mint m)).2.1 c.opts ∈
        {u | u ∉ A} := sessionOf_attemptLogin s _ _ hid (hmint m)
    exact hframe.trans (ih _ (t + 2) (m + 1) hnext _)

/-- Where the session id of its request is empty, the handler puts nothing into the session. Its
reads answer that there is nothing; a login gives the request an id, unless the session expires
between the two calls of the login. -/
def Work.Silent (v : Visit) (ttl : Int) : Work → Nat → Prop
  | done, _ => True
  | call c next, t => (∀ key value, c ≠ .put key value) ∧ (next c.empty).Silent v ttl (t + 1)
  | login users username password next, t =>
    match (v.loginCall v.req users username password).attempt with
    | none => (next false).Silent v ttl (t + 2)
    | some _ => ttl ≠ 0 ∧ v.clock (t + 1) - v.clock t > ttl → (next true).Silent v ttl (t + 2)

/-- Such a handler leaves no session under the empty id. -/
theorem Work.run_blank {v : Visit} (hmint : ∀ j, v.mint j ≠ []) (w : Work) (t m : Nat)
    {req : Request} {s : ArraySessionStore} (h : s.Blank)
    (hsilent : sessionOf req v.opts = [] → w.Silent v s.ttl t) :
    (w.run v t m req s).2.Blank := by
  -- From a session of its own the handler does not come back to the empty id.
  have hother : ∀ (w : Work) t m req (s : ArraySessionStore), s.Blank →
      sessionOf req v.opts ≠ [] → (w.run v t m req s).2.Blank := fun w t m req s hs hid =>
    hs.of_frame (Work.run_frame (A := {[]}) hmint w t m hid s)
  induction w generalizing t m req s with
  | done => exact h
  | call c next ih =>
    by_cases hid : sessionOf req v.opts = []
    · obtain ⟨hc, hnext⟩ := hsilent hid
      obtain ⟨hreply, hblank⟩ := h.call (v.clock t) hc
      simp only [Work.run, hid, hreply]
      refine ih _ (t + 1) m hblank fun _ => ?_
      rwa [ArraySessionStore.ttl_step_of_ne_gc (c.on_ne_gc [])]
    · exact hother _ t m req s h hid
  | login users username password next ih =>
    by_cases hid : sessionOf req v.opts = []
    · obtain ⟨hblank, hok, hstays⟩ := attemptLogin_blank
        (c := v.loginCall req users username password) (v.clock t) (v.clock (t + 1)) h hid (hmint m)
      have httl : s.ttl = (attemptLogin (v.loginCall req users username password) s (v.clock t)
          (v.clock (t + 1)) (v.mint m)).2.2.2.ttl :=
        (attemptLogin_frame (A := ∅) (Set.notMem_empty _) (Set.notMem_empty _)).ttl
      simp only [Work.run]
      refine ih _ (t + 2) (m + 1) hblank fun hempty => ?_
      rw [← httl, hok]
      have hsilent := hsilent hid
      have hsame : (v.loginCall v.req users username password).attempt =
        (v.loginCall req users username password).attempt := rfl
      rw [Work.Silent, hsame] at hsilent
      cases hattempt : (v.loginCall req users username password).attempt with
      | none =>
        simp only [hattempt] at hsilent
        exact hsilent
      | some user =>
        simp only [hattempt] at hsilent
        exact hsilent (hstays hempty (by rw [hattempt]; rfl))
    · exact hother _ t m req s h hid

/-! ### Requests of many clients -/

/-- Every session id that is not empty belongs to one client: the one that presents it, and for
which it was minted. No id is minted twice, nor after it was presented. -/
structure Separate {K : Type} (owner : Bytes → K) (visits : List (K × Visit)) : Prop where
  presented : ∀ x ∈ visits, x.2.id ≠ [] → owner x.2.id = x.1
  minted : ∀ x ∈ visits, ∀ j, x.2.mint j ≠ [] ∧ owner (x.2.mint j) = x.1
  fresh : visits.Pairwise fun x y => ∀ j, x.2.id ≠ y.2.mint j ∧ ∀ i, x.2.mint i ≠ y.2.mint j

/-- A request with the empty session id puts nothing into its session. -/
def Visit.Quiet (ttl : Int) (v : Visit) : Prop :=
  v.id = [] → (v.work v.started).Silent v ttl 0

/-- The request carries no session id, or an empty one. -/
def Visit.Anonymous (v : Visit) : Prop :=
  let cookies :=
    if v.registered then parseCookies ((v.req.headers.lookup (bytes "Cookie")).getD [])
    else v.req.cookies
  cookies.lookup v.opts.name = none ∨ cookies.lookup v.opts.name = some []

/-- Such a request gets a fresh id, or the empty one. -/
theorem Visit.Anonymous.id_eq {v : Visit} (h : v.Anonymous) : v.id = [] ∨ v.id = v.mint 0 := by
  by_cases hregistered : v.registered = true
  · simp only [Anonymous, hregistered, if_true] at h
    simp only [Visit.id, Visit.started, hregistered, if_true]
    rcases h with h | h
    · right
      simp [sessionOf, startSession, h]
    · left
      simp [sessionOf, startSession, h]
  · simp only [Anonymous, hregistered, if_false, Bool.false_eq_true] at h
    simp only [Visit.id, Visit.started, hregistered, if_false, Bool.false_eq_true]
    left
    rcases h with h | h <;> simp [sessionOf, h]

theorem Visit.run_frame {A : Set Bytes} {v : Visit} (hid : v.id ∉ A) (hmint : ∀ j, v.mint j ∉ A)
    (s : ArraySessionStore) : AgreeOn A s (v.run s).2 :=
  Work.run_frame hmint _ 0 1 hid s

theorem Visit.ttl_run (v : Visit) (s : ArraySessionStore) : (v.run s).2.ttl = s.ttl :=
  (run_frame (A := ∅) (Set.notMem_empty _) (fun _ => Set.notMem_empty _) s).ttl.symm

theorem Visit.Quiet.blank {v : Visit} {s : ArraySessionStore} (h : v.Quiet s.ttl)
    (hmint : ∀ j, v.mint j ≠ []) (hs : s.Blank) : (v.run s).2.Blank :=
  Work.run_blank hmint _ 0 1 hs h

section
variable {K : Type}

/-- Requests leave the sessions that are not theirs. -/
theorem serve_frame {A : Set Bytes} {visits : List (K × Visit)}
    (h : ∀ x ∈ visits, x.2.id ∉ A ∧ ∀ j, x.2.mint j ∉ A) (s : ArraySessionStore) :
    AgreeOn A s (serve visits s).2 := by
  induction visits generalizing s with
  | nil => exact .refl A s
  | cons x visits ih =>
    obtain ⟨hid, hmint⟩ := h x List.mem_cons_self
    exact (x.2.run_frame hid hmint s).trans (ih (fun y hy => h y (List.mem_cons_of_mem x hy)) _)

/-- Quiet requests leave no session under the empty id. -/
theorem serve_blank {visits : List (K × Visit)} {s : ArraySessionStore} (h : s.Blank)
    (hvisits : ∀ x ∈ visits, x.2.Quiet s.ttl ∧ ∀ j, x.2.mint j ≠ []) :
    (serve visits s).2.Blank := by
  induction visits generalizing s with
  | nil => exact h
  | cons x visits ih =>
    obtain ⟨hquiet, hmint⟩ := hvisits x List.mem_cons_self
    have hnext : ∀ y ∈ visits, y.2.Quiet (x.2.run s).2.ttl ∧ ∀ j, y.2.mint j ≠ [] := by
      intro y hy
      rw [x.2.ttl_run]
      exact hvisits y (List.mem_cons_of_mem x hy)
    exact ih (hquiet.blank hmint h) hnext

theorem serve_append (before visits : List (K × Visit)) (s : ArraySessionStore) :
    (serve (before ++ visits) s).1 =
      (serve before s).1 ++ (serve visits (serve before s).2).1 := by
  induction before generalizing s with
  | nil => rfl
  | cons x before ih =>
    simp only [List.cons_append, serve]
    rw [ih]

theorem length_serve (visits : List (K × Visit)) (s : ArraySessionStore) :
    (serve visits s).1.length = visits.length := by
  induction visits generalizing s with
  | nil => rfl
  | cons x visits ih => simp [serve, ih]

/-- What a client reads among others is what it reads alone. -/
theorem serve_filter [DecidableEq K] (owner : Bytes → K) (k : K) {visits : List (K × Visit)}
    {s s' : ArraySessionStore}
    (hvisits : ∀ x ∈ visits, x.2.Quiet s.ttl ∧ (x.2.id ≠ [] → owner x.2.id = x.1) ∧
      ∀ j, x.2.mint j ≠ [] ∧ owner (x.2.mint j) = x.1)
    (hblank : s.Blank) (hblank' : s'.Blank)
    (h : AgreeOn {u | u ≠ [] ∧ owner u = k} s s') :
    (serve visits s).1.filter (fun r => r.1 = k) =
      (serve (visits.filter fun x => x.1 = k) s').1 := by
  induction visits generalizing s s' with
  | nil => rfl
  | cons x visits ih =>
    obtain ⟨k', v⟩ := x
    obtain ⟨⟨hquiet, hpresented, hmint⟩, hrest⟩ := List.forall_mem_cons.mp hvisits
    have hstep : ∀ t : ArraySessionStore, t.Blank → t.ttl = s.ttl → (v.run t).2.Blank := by
      intro t ht httl
      exact Visit.Quiet.blank (httl.symm ▸ hquiet) (fun j => (hmint j).1) ht
    rw [← v.ttl_run s] at hrest
    by_cases hk : k' = k
    · subst hk
      -- Both sides run the request, on stores that agree on its sessions.
      have hagree : AgreeOn ({[]} ∪ {u | u ≠ [] ∧ owner u = k'}) s s' := by
        refine AgreeOn.union ?_ h
        have hnew := hblank'.symm
        rw [← h.ttl] at hnew
        exact hblank.trans hnew
      have hid : v.id ∈ ({[]} ∪ {u | u ≠ [] ∧ owner u = k'} : Set Bytes) := by
        by_cases hempty : v.id = []
        · exact .inl hempty
        · exact .inr ⟨hempty, hpresented hempty⟩
      obtain ⟨hreplies, hs⟩ := Work.run_congr (fun j => .inr (hmint j)) (v.work v.started) 0 1
        hid hagree
      have hnext : AgreeOn {u | u ≠ [] ∧ owner u = k'} (v.run s).2 (v.run s').2 :=
        ⟨hs.ttl, fun u hu => hs.cell u (.inr hu)⟩
      have htail := ih hrest (hstep s hblank rfl) (hstep s' hblank' h.ttl.symm) hnext
      simp only [serve, List.filter_cons, decide_true, if_true]
      rw [htail]
      exact congrArg (fun replies => (k', replies) :: _) hreplies
    · -- The request of another client leaves the sessions of this one.
      have hframe : AgreeOn {u | u ≠ [] ∧ owner u = k} s (v.run s).2 := by
        refine v.run_frame (fun hid => ?_) (fun j hj => ?_) s
        · exact hk ((hpresented hid.1).symm.trans hid.2)
        · exact hk ((hmint j).2.symm.trans hj.2)
      have htail := ih hrest (hstep s hblank rfl) hblank' (hframe.symm.trans h)
      simpa [serve, hk] using htail

theorem blank_new (ttl : Int) : (ArraySessionStore.new ttl).Blank := .refl _ _

/-- Where no request puts anything into a session with the empty id, what a client reads is what it
reads alone; and a request without a session id, or with an empty one, reads an empty session. -/
theorem reads_isolated [DecidableEq K] (owner : Bytes → K) (ttl : Int)
    {visits : List (K × Visit)} (hseparate : Separate owner visits)
    (hquiet : ∀ x ∈ visits, x.2.Quiet ttl) :
    (∀ k, (serve visits (.new ttl)).1.filter (fun r => r.1 = k) =
      (serve (visits.filter fun x => x.1 = k) (.new ttl)).1) ∧
    ∀ before k v after, visits = before ++ (k, v) :: after → v.Anonymous →
      (serve visits (.new ttl)).1[before.length]? = some (k, (v.run (.new ttl)).1) := by
  constructor
  · intro k
    refine serve_filter owner k (fun x hx => ?_) (blank_new ttl) (blank_new ttl) (.refl _ _)
    exact ⟨hquiet x hx, hseparate.presented x hx, hseparate.minted x hx⟩
  · rintro before k v after rfl hanonymous
    have hbefore : ∀ x ∈ before, x ∈ before ++ (k, v) :: after := fun x hx =>
      List.mem_append_left _ hx
    have hmint := hseparate.minted (k, v) (by simp)
    have hfresh : ∀ x ∈ before, ∀ j, x.2.id ≠ v.mint j ∧ ∀ i, x.2.mint i ≠ v.mint j := by
      intro x hx
      exact (List.pairwise_append.mp hseparate.fresh).2.2 x hx (k, v) List.mem_cons_self
    -- Nothing is stored yet under the ids that the request comes to.
    have hblank : (serve before (.new ttl)).2.Blank :=
      serve_blank (blank_new ttl) fun x hx =>
        ⟨hquiet x (hbefore x hx), fun j => (hseparate.minted x (hbefore x hx) j).1⟩
    have hframe : AgreeOn (Set.range v.mint) (.new ttl) (serve before (.new ttl)).2 := by
      refine serve_frame (fun x hx => ⟨?_, fun i => ?_⟩) _
      · rintro ⟨j, hj⟩
        exact (hfresh x hx j).1 hj.symm
      · rintro ⟨j, hj⟩
        exact (hfresh x hx j).2 i hj.symm
    have hagree : AgreeOn ({[]} ∪ Set.range v.mint) (.new ttl) (serve before (.new ttl)).2 := by
      refine AgreeOn.union ?_ hframe
      have hnew := hblank.symm
      rwa [← hframe.ttl] at hnew
    have hid : v.id ∈ ({[]} ∪ Set.range v.mint : Set Bytes) := by
      rcases hanonymous.id_eq with hempty | hminted
      · exact .inl hempty
      · exact .inr ⟨0, hminted.symm⟩
    obtain ⟨hreplies, -⟩ :=
      Work.run_congr (fun j => .inr ⟨j, rfl⟩) (v.work v.started) 0 1 hid hagree
    have hlength : (serve before (.new ttl)).1.length = before.length := length_serve before _
    rw [serve_append, List.getElem?_append_right (by omega), hlength, Nat.sub_self]
    exact congrArg (fun replies => some (k, replies)) hreplies.symm

end

/-! ### The empty id -/

/-- A request with an empty session cookie. -/
def emptyCookie (minted : Bytes) (work : Work) : Visit where
  req :=
    { method := bytes "POST", path := bytes "/", body := []
      headers := Finmap.singleton (bytes "Cookie") (bytes "lwsid=") }
  opts := {}
  registered := true
  work := fun _ => work
  clock := fun _ => 0
  mint := fun _ => minted

/-- **Two clients with an empty session cookie.** What one puts into its session, the other reads;
alone it reads nothing. -/
theorem empty_id_shared :
    let put := emptyCookie (bytes "a") (.call (.put (bytes "cart") (bytes "1")) fun _ => .done)
    let get := emptyCookie (bytes "b") (.call (.get (bytes "cart")) fun _ => .done)
    put.id = [] ∧ get.id = [] ∧
      (serve [(true, put), (false, get)] (.new 0)).1 =
        [(true, [.nothing]), (false, [.value (some (bytes "1"))])] ∧
      (serve [(false, get)] (.new 0)).1 = [(false, [.value none])] := by
  decide +kernel

/-- A client with an empty cookie logs in and fills its session; another with an empty cookie
reads. -/
theorem reads_isolated_applies :
    let users : UserProvider :=
      ⟨fun _ => some ⟨1, bytes "ada", bytes "secret"⟩, fun _ _ => true⟩
    let visits :=
      [(true, emptyCookie (bytes "a") (.login users (bytes "ada") (bytes "secret") fun _ =>
          .call (.put (bytes "cart") (bytes "1")) fun _ => .done)),
        (false, emptyCookie (bytes "b") (.call (.get authId) fun _ => .done))]
    (serve visits (.new 0)).1.filter (fun r => r.1 = false) =
      (serve (visits.filter fun x => x.1 = false) (.new 0)).1 := by
  intro users visits
  have ha : ∀ work, (emptyCookie (bytes "a") work).id = [] := by
    intro work
    show (emptyCookie (bytes "a") .done).id = []
    decide +kernel
  have hb : ∀ work, (emptyCookie (bytes "b") work).id = [] := by
    intro work
    show (emptyCookie (bytes "b") .done).id = []
    decide +kernel
  have hseparate : Separate (fun id => decide (id = bytes "a")) visits := by
    refine ⟨?_, ?_, ?_⟩
    · simp [visits, ha, hb]
    · simp only [visits, List.forall_mem_cons, List.not_mem_nil, false_implies, implies_true,
        and_true]
      exact ⟨fun _ => ⟨show bytes "a" ≠ [] by decide,
          show decide (bytes "a" = bytes "a") = true by decide⟩,
        fun _ => ⟨show bytes "b" ≠ [] by decide,
          show decide (bytes "b" = bytes "a") = false by decide⟩⟩
    · simp only [visits, List.pairwise_cons, List.forall_mem_cons, List.not_mem_nil, false_implies,
        implies_true, and_true, List.Pairwise.nil, ha]
      exact fun _ =>
        ⟨show [] ≠ bytes "b" by decide, fun _ => show bytes "a" ≠ bytes "b" by decide⟩
  have hquiet : ∀ x ∈ visits, x.2.Quiet 0 := by
    simp only [visits, List.forall_mem_cons, List.not_mem_nil, false_implies, implies_true,
      and_true]
    exact ⟨fun _ hexpired => absurd rfl hexpired.1,
      fun _ => ⟨fun _ _ => SessionCall.noConfusion, trivial⟩⟩
  exact (reads_isolated (fun id => decide (id = bytes "a")) 0 hseparate hquiet).1 false

end CppLaravel.Session
