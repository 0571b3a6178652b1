import CppLaravel.Session.Operations

/-!
# `CppLaravel.Proofs.Session.Cells`: what the calls of the store read and write

A call looks at the session of its id and at the stamp of it, and writes these two; a `rename` does
so for two ids.

* `step_invariant`: a property that is kept when the session of such an id is replaced is kept by a
  call.
* `step_congr`: two stores that agree where a call looks answer alike, and what relates them is kept
  when both sessions are replaced by the same.
-/

set_option autoImplicit false

namespace CppLaravel.Session

/-- The ids of the sessions that a call is for. -/
def Op.ids : Op → List Bytes
  | put sid _ _ => [sid]
  | get sid _ => [sid]
  | has sid _ => [sid]
  | forget sid _ => [sid]
  | flush sid => [sid]
  | rename src dst => [src, dst]
  | gc => []

namespace ArraySessionStore

/-- The store with another session under an id, and another stamp. -/
def withCell (s : ArraySessionStore) (sid : Bytes) (session : Option Http.StringMap)
    (stamp : Option Int) : ArraySessionStore :=
  { s with
      data := Function.update s.data sid session
      lastSeen := Function.update s.lastSeen sid stamp }

/-- The stamp that `touch` leaves. -/
def stamp (s : ArraySessionStore) (now : Int) (sid : Bytes) : Option Int :=
  if s.ttl ≠ 0 then some now else s.lastSeen sid

@[simp] theorem data_withCell (s : ArraySessionStore) (sid : Bytes)
    (session : Option Http.StringMap) (stamp : Option Int) (u : Bytes) :
    (s.withCell sid session stamp).data u = if u = sid then session else s.data u :=
  Function.update_apply _ _ _ _

@[simp] theorem lastSeen_withCell (s : ArraySessionStore) (sid : Bytes)
    (session : Option Http.StringMap) (stamp : Option Int) (u : Bytes) :
    (s.withCell sid session stamp).lastSeen u = if u = sid then stamp else s.lastSeen u :=
  Function.update_apply _ _ _ _

@[simp] theorem ttl_withCell (s : ArraySessionStore) (sid : Bytes)
    (session : Option Http.StringMap) (stamp : Option Int) :
    (s.withCell sid session stamp).ttl = s.ttl := rfl

/-! ### The operations on one session -/

theorem touch_eq (s : ArraySessionStore) (now : Int) (sid : Bytes) :
    s.touch now sid = s.withCell sid (s.data sid) (s.stamp now sid) := by
  unfold touch withCell stamp
  split <;> simp

theorem update_eq (s : ArraySessionStore) (sid : Bytes) (session : Option Http.StringMap) :
    { s with data := Function.update s.data sid session } =
      s.withCell sid session (s.lastSeen sid) := by
  rw [withCell, Function.update_eq_self]

/-- A session is written and touched. -/
theorem touch_update (s : ArraySessionStore) (now : Int) (sid : Bytes)
    (session : Option Http.StringMap) :
    { s with data := Function.update s.data sid session }.touch now sid =
      s.withCell sid session (s.stamp now sid) := by
  unfold touch withCell stamp
  split <;> simp

/-- A session is moved: what was under the new id is overwritten. -/
theorem rename_update (s : ArraySessionStore) (now : Int) (src dst : Bytes)
    (session : Http.StringMap) :
    { s with
        data := Function.update (Function.update s.data dst (some session)) src none
        lastSeen := Function.update s.lastSeen src none }.touch now dst =
      (s.withCell src none none).withCell dst (if src = dst then none else some session)
        ((s.withCell src none none).stamp now dst) := by
  have hdata : Function.update (Function.update s.data dst (some session)) src none =
      Function.update (Function.update s.data src none) dst
        (if src = dst then none else some session) := by
    by_cases hsrc : src = dst
    · rw [if_pos hsrc, hsrc]
      simp
    · rw [if_neg hsrc]
      exact Function.update_comm (Ne.symm hsrc) _ _ _
  rw [touch_eq, hdata]
  unfold withCell stamp
  simp

theorem dropIfExpired_eq (s : ArraySessionStore) (now : Int) (sid : Bytes) :
    s.dropIfExpired now sid = if s.Expired now sid then s.withCell sid none none else s := by
  split
  · rename_i h
    obtain ⟨httl, t, ht, hold⟩ := h
    rw [dropIfExpired, if_neg httl, Option.mem_def.mp ht]
    exact if_pos hold
  · rename_i h
    exact dropIfExpired_of_not_expired h

theorem ttl_dropIfExpired (s : ArraySessionStore) (now : Int) (sid : Bytes) :
    (s.dropIfExpired now sid).ttl = s.ttl := by
  rw [dropIfExpired_eq]
  split <;> rfl

/-! ### One store -/

section
variable {P : ArraySessionStore → Prop} {now : Int} {sid : Bytes}

/-- What is kept when the session of an id is replaced is kept by a call for it. -/
theorem step_invariant {op : Op} (hop : op ≠ .gc)
    (hkeep : ∀ u ∈ op.ids, ∀ s session stamp, P s → P (s.withCell u session stamp))
    {s : ArraySessionStore} (h : P s) : P (s.step now op).2 := by
  -- Every call is made of these two: an expired session is dropped, a stamp is renewed.
  have hdrop : ∀ u ∈ op.ids, P (s.dropIfExpired now u) := by
    intro u hu
    rw [dropIfExpired_eq]
    split
    · exact hkeep u hu s none none h
    · exact h
  have htouch : ∀ u ∈ op.ids, ∀ s, P s → P (s.touch now u) := by
    intro u hu s hs
    rw [touch_eq]
    exact hkeep u hu s _ _ hs
  cases op with
  | put sid key value =>
    show P (s.put now sid key value)
    simp only [put, touch_update]
    exact hkeep sid (by simp [Op.ids]) _ _ _ (hdrop sid (by simp [Op.ids]))
  | get sid key =>
    have hsid : sid ∈ (Op.get sid key).ids := by simp [Op.ids]
    show P (s.get now sid key).2
    simp only [get]
    split
    · exact hdrop sid hsid
    · split
      · exact hdrop sid hsid
      · exact htouch sid hsid _ (hdrop sid hsid)
  | has sid key =>
    have hsid : sid ∈ (Op.has sid key).ids := by simp [Op.ids]
    show P (s.has now sid key).2
    simp only [has]
    split
    · exact hdrop sid hsid
    · split
      · exact hdrop sid hsid
      · exact htouch sid hsid _ (hdrop sid hsid)
  | forget sid key =>
    have hsid : sid ∈ (Op.forget sid key).ids := by simp [Op.ids]
    show P (s.forget now sid key)
    simp only [forget]
    split
    · exact hdrop sid hsid
    · rw [update_eq]
      exact hkeep sid hsid _ _ _ (hdrop sid hsid)
  | flush sid => exact hkeep sid (by simp [Op.ids]) s none none h
  | rename src dst =>
    show P (s.rename now src dst).2
    simp only [rename]
    split
    · exact hdrop src (by simp [Op.ids])
    · rw [rename_update]
      exact hkeep dst (by simp [Op.ids]) _ _ _
        (hkeep src (by simp [Op.ids]) _ _ _ (hdrop src (by simp [Op.ids])))
  | gc => exact absurd rfl hop

theorem ttl_step_of_ne_gc {op : Op} (hop : op ≠ .gc) (s : ArraySessionStore) (now : Int) :
    (s.step now op).2.ttl = s.ttl :=
  step_invariant (P := fun t => t.ttl = s.ttl) hop (fun _ _ _ _ _ h => h) rfl

end

/-! ### Two stores -/

/-- A relation between stores that agree on the session of an id once it is looked at, and that is
kept when both sessions are replaced. -/
structure Keeps (R : ArraySessionStore → ArraySessionStore → Prop) (now : Int) (sid : Bytes) :
    Prop where
  ttl : ∀ {s s'}, R s s' → s.ttl = s'.ttl
  drop : ∀ {s s'}, R s s' → R (s.dropIfExpired now sid) (s'.dropIfExpired now sid) ∧
    (s.dropIfExpired now sid).data sid = (s'.dropIfExpired now sid).data sid ∧
    (s.dropIfExpired now sid).lastSeen sid = (s'.dropIfExpired now sid).lastSeen sid
  seen : ∀ {s s'}, R s s' → s.ttl = 0 → s.lastSeen sid = s'.lastSeen sid
  withCell : ∀ {s s'} session stamp, R s s' →
    R (s.withCell sid session stamp) (s'.withCell sid session stamp)

section
variable {R : ArraySessionStore → ArraySessionStore → Prop} {now : Int} {sid : Bytes}
  {s s' : ArraySessionStore}

theorem Keeps.stamp (hR : Keeps R now sid) (h : R s s') :
    s.stamp now sid = s'.stamp now sid := by
  unfold ArraySessionStore.stamp
  rw [← hR.ttl h]
  split
  · rfl
  · exact hR.seen h (not_not.mp ‹_›)

theorem Keeps.touch (hR : Keeps R now sid) (h : R s s') (hdata : s.data sid = s'.data sid) :
    R (s.touch now sid) (s'.touch now sid) := by
  rw [touch_eq, touch_eq, hdata, hR.stamp h]
  exact hR.withCell _ _ h

theorem Keeps.get (hR : Keeps R now sid) (h : R s s') (key : Bytes) :
    (s.get now sid key).1 = (s'.get now sid key).1 ∧
      R (s.get now sid key).2 (s'.get now sid key).2 := by
  obtain ⟨hdrop, hdata, -⟩ := hR.drop h
  simp only [ArraySessionStore.get, hdata]
  cases (s'.dropIfExpired now sid).data sid with
  | none => exact ⟨rfl, hdrop⟩
  | some session =>
    cases hkey : session.lookup key with
    | none =>
      simp only [hkey]
      exact ⟨trivial, hdrop⟩
    | some v =>
      simp only [hkey]
      exact ⟨trivial, hR.touch hdrop hdata⟩

theorem Keeps.has (hR : Keeps R now sid) (h : R s s') (key : Bytes) :
    (s.has now sid key).1 = (s'.has now sid key).1 ∧
      R (s.has now sid key).2 (s'.has now sid key).2 := by
  obtain ⟨hdrop, hdata, -⟩ := hR.drop h
  simp only [ArraySessionStore.has, hdata]
  cases (s'.dropIfExpired now sid).data sid with
  | none => exact ⟨rfl, hdrop⟩
  | some session =>
    cases hkey : session.lookup key with
    | none =>
      simp only [hkey]
      exact ⟨trivial, hdrop⟩
    | some v =>
      simp only [hkey]
      exact ⟨trivial, hR.touch hdrop hdata⟩

theorem Keeps.put (hR : Keeps R now sid) (h : R s s') (key value : Bytes) :
    R (s.put now sid key value) (s'.put now sid key value) := by
  obtain ⟨hdrop, hdata, -⟩ := hR.drop h
  simp only [ArraySessionStore.put, touch_update, hdata, hR.stamp hdrop]
  exact hR.withCell _ _ hdrop

theorem Keeps.forget (hR : Keeps R now sid) (h : R s s') (key : Bytes) :
    R (s.forget now sid key) (s'.forget now sid key) := by
  obtain ⟨hdrop, hdata, hseen⟩ := hR.drop h
  simp only [ArraySessionStore.forget, hdata]
  cases (s'.dropIfExpired now sid).data sid with
  | none => exact hdrop
  | some session =>
    simp only [update_eq, hseen]
    exact hR.withCell _ _ hdrop

theorem Keeps.rename {dst : Bytes} (hR : Keeps R now sid) (hdst : Keeps R now dst) (h : R s s') :
    (s.rename now sid dst).1 = (s'.rename now sid dst).1 ∧
      R (s.rename now sid dst).2 (s'.rename now sid dst).2 := by
  obtain ⟨hdrop, hdata, -⟩ := hR.drop h
  simp only [ArraySessionStore.rename, hdata]
  cases (s'.dropIfExpired now sid).data sid with
  | none => exact ⟨rfl, hdrop⟩
  | some session =>
    have hgone := hR.withCell none none hdrop
    simp only [rename_update, hdst.stamp hgone]
    exact ⟨trivial, hdst.withCell _ _ hgone⟩

end

/-- A call answers alike on stores that agree where it looks. -/
theorem step_congr {R : ArraySessionStore → ArraySessionStore → Prop} {now : Int} {op : Op}
    (hop : op ≠ .gc) (hR : ∀ u ∈ op.ids, Keeps R now u) {s s' : ArraySessionStore} (h : R s s') :
    (s.step now op).1 = (s'.step now op).1 ∧ R (s.step now op).2 (s'.step now op).2 := by
  cases op with
  | put sid key value => exact ⟨rfl, (hR sid (by simp [Op.ids])).put h key value⟩
  | get sid key => exact ((hR sid (by simp [Op.ids])).get h key).imp_left (congrArg Reply.value)
  | has sid key => exact ((hR sid (by simp [Op.ids])).has h key).imp_left (congrArg Reply.truth)
  | forget sid key => exact ⟨rfl, (hR sid (by simp [Op.ids])).forget h key⟩
  | flush sid => exact ⟨rfl, (hR sid (by simp [Op.ids])).withCell none none h⟩
  | rename src dst =>
    exact ((hR src (by simp [Op.ids])).rename (hR dst (by simp [Op.ids])) h).imp_left
      (congrArg Reply.truth)
  | gc => exact absurd rfl hop

end ArraySessionStore

end CppLaravel.Session
