import CppLaravel.Proofs.Session.Cells

/-!
# `CppLaravel.Proofs.Session.Purge`: bulk expiry is never seen

A store and the same store after calls of `gc` are `Similar`: session by session they have the same,
or the one without `gc` still has a session that has expired. Every operation drops such a session
before it looks at it, or overwrites it, so it answers alike on both (`step_similar`). Time only
makes more sessions expire.

`Stamped` is that every session has a stamp, when sessions can expire at all; then `gc` finds every
session that was idle for too long.
-/

set_option autoImplicit false

namespace CppLaravel.Session

namespace ArraySessionStore

/-- `gc` removes what has expired. -/
theorem data_gc (s : ArraySessionStore) (now : Int) (sid : Bytes) :
    (s.gc now).data sid = if s.Expired now sid then none else s.data sid := by
  rw [gc]
  split
  · rename_i httl
    rw [if_neg fun hexpired => hexpired.1 httl]
  · rfl

theorem lastSeen_gc (s : ArraySessionStore) (now : Int) (sid : Bytes) :
    (s.gc now).lastSeen sid = if s.Expired now sid then none else s.lastSeen sid := by
  rw [gc]
  split
  · rename_i httl
    rw [if_neg fun hexpired => hexpired.1 httl]
  · rfl

/-! ### Similar stores -/

/-- `s'` is `s` after calls of `gc`: it may lack sessions that have expired. -/
structure Similar (now : Int) (s s' : ArraySessionStore) : Prop where
  ttl : s.ttl = s'.ttl
  cell : ∀ sid, s.data sid = s'.data sid ∧ s.lastSeen sid = s'.lastSeen sid ∨
    s.Expired now sid ∧ s'.data sid = none ∧ s'.lastSeen sid = none

variable {now : Int} {s s' : ArraySessionStore}

theorem Similar.refl (now : Int) (s : ArraySessionStore) : Similar now s s :=
  ⟨rfl, fun _ => .inl ⟨rfl, rfl⟩⟩

theorem Expired.mono {now' : Int} {sid : Bytes} (h : s.Expired now sid) (hle : now ≤ now') :
    s.Expired now' sid := by
  obtain ⟨httl, t, ht, hold⟩ := h
  exact ⟨httl, t, ht, by omega⟩

theorem Similar.mono {now' : Int} (h : Similar now s s') (hle : now ≤ now') :
    Similar now' s s' :=
  ⟨h.ttl, fun sid => (h.cell sid).imp_right fun hcell => ⟨hcell.1.mono hle, hcell.2⟩⟩

/-- Where no session expires, `gc` does nothing. -/
theorem Similar.eq_of_ttl (h : Similar now s s') (httl : s.ttl = 0) : s = s' := by
  have hcell : ∀ sid, s.data sid = s'.data sid ∧ s.lastSeen sid = s'.lastSeen sid := by
    intro sid
    rcases h.cell sid with hsame | ⟨hexpired, _⟩
    · exact hsame
    · exact absurd httl hexpired.1
  obtain ⟨ttl, data, lastSeen⟩ := s
  obtain ⟨ttl', data', lastSeen'⟩ := s'
  obtain rfl : ttl = ttl' := h.ttl
  obtain rfl : data = data' := funext fun sid => (hcell sid).1
  obtain rfl : lastSeen = lastSeen' := funext fun sid => (hcell sid).2
  rfl

/-- The same is written under an id on both sides. -/
theorem Similar.withCell (h : Similar now s s') (sid : Bytes) (session : Option Http.StringMap)
    (stamp : Option Int) : Similar now (s.withCell sid session stamp)
      (s'.withCell sid session stamp) := by
  refine ⟨h.ttl, fun u => ?_⟩
  by_cases hu : u = sid
  · subst hu
    exact .inl ⟨by simp, by simp⟩
  · have hexpired : (s.withCell sid session stamp).Expired now u ↔ s.Expired now u := by
      simp [Expired, hu]
    simpa [hu, hexpired] using h.cell u

/-- After `drop_if_expired` both have the same session under the id. -/
theorem Similar.dropIfExpired (h : Similar now s s') (sid : Bytes) :
    Similar now (s.dropIfExpired now sid) (s'.dropIfExpired now sid) ∧
      (s.dropIfExpired now sid).data sid = (s'.dropIfExpired now sid).data sid ∧
      (s.dropIfExpired now sid).lastSeen sid = (s'.dropIfExpired now sid).lastSeen sid := by
  rw [dropIfExpired_eq, dropIfExpired_eq]
  rcases h.cell sid with ⟨hdata, hseen⟩ | ⟨hexpired, hdata, hseen⟩
  · have hiff : s.Expired now sid ↔ s'.Expired now sid := by
      rw [Expired, Expired, h.ttl, hseen]
    by_cases hexpired : s.Expired now sid
    · rw [if_pos hexpired, if_pos (hiff.mp hexpired)]
      exact ⟨h.withCell _ _ _, by simp, by simp⟩
    · rw [if_neg hexpired, if_neg (mt hiff.mpr hexpired)]
      exact ⟨h, hdata, hseen⟩
  · -- `gc` was there before.
    have hnot : ¬ s'.Expired now sid := by
      rintro ⟨_, t, ht, _⟩
      rw [hseen] at ht
      cases ht
    have hsame : s' = s'.withCell sid none none := by
      have hd : Function.update s'.data sid none = s'.data := by
        rw [← hdata, Function.update_eq_self]
      have hl : Function.update s'.lastSeen sid none = s'.lastSeen := by
        rw [← hseen, Function.update_eq_self]
      rw [ArraySessionStore.withCell, hd, hl]
    rw [if_pos hexpired, if_neg hnot]
    refine ⟨?_, ?_, ?_⟩
    · rw [hsame]
      exact h.withCell _ _ _
    · simp [hdata]
    · simp [hseen]

/-! ### The operations on similar stores -/

theorem similar_keeps (now : Int) (sid : Bytes) : Keeps (Similar now) now sid where
  ttl h := h.ttl
  drop h := h.dropIfExpired sid
  seen h httl := h.eq_of_ttl httl ▸ rfl
  withCell session stamp h := h.withCell sid session stamp

/-- A call of `gc` on one side. -/
theorem Similar.gc (h : Similar now s s') : Similar now s (s'.gc now) := by
  have httl : (s'.gc now).ttl = s'.ttl := by
    rw [ArraySessionStore.gc]
    split <;> rfl
  refine ⟨h.ttl.trans httl.symm, fun sid => ?_⟩
  rw [data_gc, lastSeen_gc]
  rcases h.cell sid with ⟨hdata, hseen⟩ | ⟨hexpired, hdata, hseen⟩
  · have hiff : s.Expired now sid ↔ s'.Expired now sid := by
      rw [Expired, Expired, h.ttl, hseen]
    by_cases hexpired : s'.Expired now sid
    · rw [if_pos hexpired, if_pos hexpired]
      exact .inr ⟨hiff.mpr hexpired, rfl, rfl⟩
    · rw [if_neg hexpired, if_neg hexpired]
      exact .inl ⟨hdata, hseen⟩
  · rw [hdata, hseen, ite_self, ite_self]
    exact .inr ⟨hexpired, rfl, rfl⟩

/-- An operation answers alike on similar stores, and leaves similar ones. -/
theorem step_similar (h : Similar now s s') {op : Op} (hop : op ≠ .gc) :
    (s.step now op).1 = (s'.step now op).1 ∧ Similar now (s.step now op).2 (s'.step now op).2 :=
  step_congr hop (fun u _ => similar_keeps now u) h

/-- The calls of `gc` left out. -/
theorem steps_similar {calls : List (Int × Op)} (htimes : (calls.map Prod.fst).Pairwise (· ≤ ·))
    (hnow : ∀ call ∈ calls, now ≤ call.1) (h : Similar now s s') :
    ((s'.steps calls).1.filter fun r => r.1 ≠ .gc) =
      (s.steps (calls.filter fun call => call.2 ≠ .gc)).1 := by
  induction calls generalizing now s s' with
  | nil => rfl
  | cons call calls ih =>
    obtain ⟨t, op⟩ := call
    obtain ⟨hfirst, _⟩ := List.forall_mem_cons.mp hnow
    obtain ⟨hlater, htimes'⟩ := List.pairwise_cons.mp htimes
    have hlater' : ∀ call ∈ calls, t ≤ call.1 := fun call hcall =>
      hlater _ (List.mem_map_of_mem hcall)
    have h' := h.mono hfirst
    by_cases hop : op = .gc
    · subst hop
      simpa [steps, step] using ih htimes' hlater' h'.gc
    · obtain ⟨hreply, hnext⟩ := step_similar h' hop
      have hrest := ih htimes' hlater' hnext
      simp only [steps, List.filter_cons, hop, ne_eq, not_false_eq_true, decide_true, if_true,
        hreply]
      rw [← hrest]

/-! ### Stamps -/

/-- Every session has a stamp. -/
def Stamped (s : ArraySessionStore) : Prop :=
  ∀ sid session, s.data sid = some session → ∃ t, s.lastSeen sid = some t

theorem stamped_withCell {s : ArraySessionStore} (h : s.Stamped) {sid : Bytes}
    {session : Option Http.StringMap} {stamp : Option Int}
    (hstamp : session.isSome → stamp.isSome) : (s.withCell sid session stamp).Stamped := by
  intro u session' hu
  by_cases hsid : u = sid
  · rw [data_withCell, if_pos hsid] at hu
    rw [lastSeen_withCell, if_pos hsid]
    exact Option.isSome_iff_exists.mp (hstamp (hu ▸ rfl))
  · rw [data_withCell, if_neg hsid] at hu
    rw [lastSeen_withCell, if_neg hsid]
    exact h u session' hu

theorem Stamped.gc {s : ArraySessionStore} (h : s.Stamped) (now : Int) : (s.gc now).Stamped := by
  intro sid session hsid
  rw [data_gc] at hsid
  rw [lastSeen_gc]
  by_cases hexpired : s.Expired now sid
  · rw [if_pos hexpired] at hsid
    cases hsid
  · rw [if_neg hexpired] at hsid
    rw [if_neg hexpired]
    exact h sid session hsid

theorem Stamped.dropIfExpired {s : ArraySessionStore} (h : s.Stamped) (now : Int) (sid : Bytes) :
    (s.dropIfExpired now sid).Stamped := by
  rw [dropIfExpired_eq]
  split
  · exact stamped_withCell h id
  · exact h

theorem Stamped.touch {s : ArraySessionStore} (h : s.Stamped) (httl : s.ttl ≠ 0) (now : Int)
    (sid : Bytes) : (s.touch now sid).Stamped := by
  rw [touch_eq]
  refine stamped_withCell h fun _ => ?_
  rw [stamp, if_pos httl]
  rfl

/-- Every call leaves a stamp where it leaves a session. -/
theorem Stamped.step {s : ArraySessionStore} (h : s.Stamped) (httl : s.ttl ≠ 0) (now : Int)
    (op : Op) : (s.step now op).2.Stamped := by
  have hdrop := h.dropIfExpired now
  have httl' : ∀ sid, (s.dropIfExpired now sid).ttl ≠ 0 := fun sid =>
    (ttl_dropIfExpired s now sid).symm ▸ httl
  cases op with
  | put sid key value =>
    show (s.put now sid key value).Stamped
    rw [ArraySessionStore.put]
    simp only [touch_update]
    refine stamped_withCell (hdrop sid) fun _ => ?_
    rw [stamp, if_pos (httl' sid)]
    rfl
  | get sid key =>
    show (s.get now sid key).2.Stamped
    simp only [ArraySessionStore.get]
    split
    · exact hdrop sid
    · split
      · exact hdrop sid
      · exact (hdrop sid).touch (httl' sid) now sid
  | has sid key =>
    show (s.has now sid key).2.Stamped
    simp only [ArraySessionStore.has]
    split
    · exact hdrop sid
    · split
      · exact hdrop sid
      · exact (hdrop sid).touch (httl' sid) now sid
  | forget sid key =>
    show (s.forget now sid key).Stamped
    simp only [ArraySessionStore.forget]
    split
    · exact hdrop sid
    · rename_i session hsid
      rw [update_eq]
      refine stamped_withCell (hdrop sid) fun _ => ?_
      -- The session was there before, and keeps its stamp.
      obtain ⟨t, ht⟩ := hdrop sid sid session hsid
      rw [ht]
      rfl
  | flush sid => exact stamped_withCell h id
  | rename src dst =>
    show (s.rename now src dst).2.Stamped
    simp only [ArraySessionStore.rename]
    split
    · exact hdrop src
    · rw [rename_update]
      -- The source is emptied, and the target is stamped at once.
      refine stamped_withCell (stamped_withCell (hdrop src) id) fun _ => ?_
      rw [stamp, ttl_withCell, if_pos (httl' src)]
      rfl
  | gc => exact h.gc now

theorem ttl_step (s : ArraySessionStore) (now : Int) (op : Op) : (s.step now op).2.ttl = s.ttl := by
  by_cases hop : op = .gc
  · subst hop
    show (s.gc now).ttl = _
    rw [gc]
    split <;> rfl
  · exact ttl_step_of_ne_gc hop s now

/-- Every store that is reached. -/
theorem stamped_steps {s : ArraySessionStore} (h : s.Stamped) (httl : s.ttl ≠ 0)
    (calls : List (Int × Op)) :
    (s.steps calls).2.Stamped ∧ (s.steps calls).2.ttl = s.ttl := by
  induction calls generalizing s with
  | nil => exact ⟨h, rfl⟩
  | cons call calls ih =>
    have hsame := ttl_step s call.1 call.2
    obtain ⟨hstamped, hrest⟩ := ih (h.step httl call.1 call.2) (hsame.symm ▸ httl)
    exact ⟨hstamped, hrest.trans hsame⟩

end ArraySessionStore

end CppLaravel.Session
