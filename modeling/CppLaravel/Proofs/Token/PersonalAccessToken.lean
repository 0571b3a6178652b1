import CppLaravel.Lib.Transition
import CppLaravel.Proofs.Database.MemoryIds
import CppLaravel.Token.PersonalAccessToken
import Mathlib.Data.Set.Function

/-!
# `CppLaravel.Proofs.Token.PersonalAccessToken`: who is authenticated

The rows of the table are the tokens that are live, in the order in which they were issued
(`Mirrors`), and every call keeps this. A token is live when it was issued and no call has revoked
its id since (`mem_live_iff`). Ids only grow, so a call that revokes an id means one token.

`authenticate_iff`: in every run, exactly the plaintext of a live token that has not expired is
authenticated, with the record of that token.
-/

set_option autoImplicit false

namespace CppLaravel.Pat

open CppLaravel.Database CppLaravel.Lib

/-! ### What was issued, and what is live -/

/-- The tokens that were issued, in order. -/
def tokens (events : List Event) : List Token :=
  events.filterMap fun e => match e with
    | .issued t => some t
    | _ => none

/-- The tokens that are live after one more call. -/
def liveAfter (l : List Token) : Event → List Token
  | .issued t => l ++ [t]
  | .revoked id _ => eraseKey Token.id id l
  | .authenticated .. => l

/-- The tokens that are live after some calls. -/
def live (events : List Event) : List Token := events.foldl liveAfter []

/-- The token was issued, and its id was not revoked since. -/
def Live (events : List Event) (t : Token) : Prop :=
  ∃ before after, events = before ++ .issued t :: after ∧ ∀ found, .revoked t.id found ∉ after

theorem live_append (events : List Event) (e : Event) :
    live (events ++ [e]) = liveAfter (live events) e := by
  simp [live]

theorem tokens_append (events events' : List Event) :
    tokens (events ++ events') = tokens events ++ tokens events' := List.filterMap_append

/-- A call that is not the issue of the token itself leaves it live unless it revokes it. -/
theorem live_append_iff {events : List Event} {e : Event} {t : Token} (he : e ≠ .issued t) :
    Live (events ++ [e]) t ↔ Live events t ∧ ∀ found, e ≠ .revoked t.id found := by
  constructor
  · rintro ⟨before, after, heq, hafter⟩
    -- The last call is not the one that issued the token.
    rcases List.eq_nil_or_concat' after with rfl | ⟨after, e', rfl⟩
    · exact absurd (List.append_inj' heq rfl).2 (by simpa using he)
    · have hsplit : events ++ [e] = (before ++ .issued t :: after) ++ [e'] := by
        simpa using heq
      obtain ⟨rfl, hlast⟩ := List.append_inj' hsplit rfl
      obtain rfl : e = e' := by simpa using hlast
      refine ⟨⟨before, after, rfl, fun found hmem => ?_⟩, fun found hrevoked => ?_⟩
      · exact hafter found (List.mem_append_left _ hmem)
      · exact hafter found (by simp [hrevoked])
  · rintro ⟨⟨before, after, rfl, hafter⟩, hlast⟩
    refine ⟨before, after ++ [e], by simp, fun found hmem => ?_⟩
    rcases List.mem_append.mp hmem with hmem | hmem
    · exact hafter found hmem
    · exact hlast found (List.mem_singleton.mp hmem).symm

/-- The live tokens are those that were issued and not revoked since. -/
theorem mem_live_iff {events : List Event} {t : Token} : t ∈ live events ↔ Live events t := by
  induction events using List.reverseRecOn with
  | nil => simp [live, Live]
  | append_singleton events e ih =>
    rw [live_append]
    by_cases he : e = .issued t
    · subst he
      simp only [liveAfter, List.mem_append, List.mem_singleton, or_true, true_iff]
      exact ⟨events, [], rfl, fun _ => List.not_mem_nil⟩
    · rw [live_append_iff he, ← ih]
      cases e with
      | issued t' =>
        have hne : t ≠ t' := fun h => he (h ▸ rfl)
        simp [liveAfter, hne]
      | revoked id found =>
        have hid : t.id ≠ id ↔ ∀ found', Event.revoked id found ≠ .revoked t.id found' := by
          simp [eq_comm]
        simp [liveAfter, eraseKey, hid]
      | authenticated presented now clock result => simp [liveAfter]

/-- Live tokens are issued tokens, in the same order. -/
theorem live_sublist (events : List Event) : (live events).Sublist (tokens events) := by
  induction events using List.reverseRecOn with
  | nil => exact .refl _
  | append_singleton events e ih =>
    rw [live_append, tokens_append]
    cases e with
    | issued t => exact ih.append (.refl _)
    | revoked id found =>
      show (eraseKey Token.id id (live events)).Sublist (tokens events ++ [])
      rw [List.append_nil]
      exact List.filter_sublist.trans ih
    | authenticated presented now clock result =>
      show (live events).Sublist (tokens events ++ [])
      rwa [List.append_nil]

/-! ### The table -/

variable {sha256Hex : Bytes → Bytes} {table : Bytes} {c c' : MemoryConnection}

/-- The row of a token. -/
def rowOf (sha256Hex : Bytes → Bytes) (t : Token) : Row :=
  (((((Row.empty.set (bytes "user_id") (.int t.userId)).set (bytes "name") (.string t.name)).set
    (bytes "token_hash") (.string (sha256Hex t.plaintext))).set
    (bytes "abilities") (.string (join t.abilities))).set
    (bytes "expires_at") (.int t.expiresAt)).set (bytes "id") (.int t.id)

/-- The record of a token. -/
def Token.record (t : Token) : Record :=
  ⟨t.id, t.userId, t.expiresAt, t.name, splitWs (join t.abilities)⟩

theorem rowId_rowOf (t : Token) : MemoryConnection.rowId (rowOf sha256Hex t) = some t.id := by
  simp [MemoryConnection.rowId, rowOf, Row.getInt, Row.get?_set, Value.asInt]

theorem getInt_expiresAt_rowOf (t : Token) :
    (rowOf sha256Hex t).getInt (bytes "expires_at") = some t.expiresAt := by
  have hid : bytes "expires_at" ≠ bytes "id" := by decide
  simp [rowOf, Row.getInt, Row.get?_set, Value.asInt, hid]

theorem get?_tokenHash_rowOf (t : Token) :
    (rowOf sha256Hex t).get? (bytes "token_hash") = some (.string (sha256Hex t.plaintext)) := by
  have hid : bytes "token_hash" ≠ bytes "id" := by decide
  have hexpires : bytes "token_hash" ≠ bytes "expires_at" := by decide
  have habilities : bytes "token_hash" ≠ bytes "abilities" := by decide
  simp [rowOf, Row.get?_set, hid, hexpires, habilities]

theorem toRecord_rowOf (t : Token) : toRecord (rowOf sha256Hex t) = some t.record := by
  have hid : (rowOf sha256Hex t).getInt (bytes "id") = some t.id := rowId_rowOf t
  have huser : (rowOf sha256Hex t).getInt (bytes "user_id") = some t.userId := by
    have hne : ∀ key ∈ [bytes "name", bytes "token_hash", bytes "abilities", bytes "expires_at",
        bytes "id"], bytes "user_id" ≠ key := by decide
    simp only [List.forall_mem_cons] at hne
    simp [rowOf, Row.getInt, Row.get?_set, Value.asInt, hne]
  have hname : (rowOf sha256Hex t).getString (bytes "name") = some t.name := by
    have hne : ∀ key ∈ [bytes "token_hash", bytes "abilities", bytes "expires_at", bytes "id"],
        bytes "name" ≠ key := by decide
    simp only [List.forall_mem_cons] at hne
    simp [rowOf, Row.getString, Row.get?_set, Value.asString, hne]
  have habilities :
      (rowOf sha256Hex t).getString (bytes "abilities") = some (join t.abilities) := by
    have hne : ∀ key ∈ [bytes "expires_at", bytes "id"], bytes "abilities" ≠ key := by decide
    simp only [List.forall_mem_cons] at hne
    simp [rowOf, Row.getString, Row.get?_set, Value.asString, hne]
  rw [toRecord, hid, huser, hname, habilities, getInt_expiresAt_rowOf]
  rfl

/-- The rows are the live tokens, and no token has an id above the counter. -/
structure Mirrors (sha256Hex : Bytes → Bytes) (table : Bytes) (c : MemoryConnection)
    (events : List Event) : Prop where
  rows : c.tables table = (live events).map (rowOf sha256Hex)
  le : ∀ t ∈ tokens events, t.id ≤ c.nextId table
  increasing : ((tokens events).map Token.id).Pairwise (· < ·)

/-- A call that issues nothing, on a table whose counter stays. -/
theorem Mirrors.of_tokens_eq {events : List Event} (h : Mirrors sha256Hex table c events)
    {e : Event} (he : tokens [e] = [])
    (hrows : c'.tables table = (liveAfter (live events) e).map (rowOf sha256Hex))
    (hnext : c'.nextId table = c.nextId table) : Mirrors sha256Hex table c' (events ++ [e]) := by
  have htokens : tokens (events ++ [e]) = tokens events := by
    rw [tokens_append, he, List.append_nil]
  constructor
  · rw [live_append]
    exact hrows
  · rw [htokens, hnext]
    exact h.le
  · rw [htokens]
    exact h.increasing

/-- A call keeps the table what it is. -/
theorem Mirrors.step {events : List Event} (h : Mirrors sha256Hex table c events) {e : Event}
    (hstep : Step sha256Hex table c e c') : Mirrors sha256Hex table c' (events ++ [e]) := by
  cases hstep with
  | @issue t _ hissue =>
    obtain ⟨hissued, rfl⟩ := Prod.mk.injEq .. ▸ hissue
    have hid : c.nextId table + 1 = t.id := congrArg Issued.id hissued
    have htokens : tokens (events ++ [.issued t]) = tokens events ++ [t] := tokens_append _ _
    constructor
    · rw [live_append]
      show (MemoryConnection.insert c table _).2.tables table = (live events ++ [t]).map _
      rw [MemoryConnection.tables_insert, h.rows, hid, List.map_append]
      rfl
    · intro t' ht'
      show t'.id ≤ (MemoryConnection.insert c table _).2.nextId table
      rw [MemoryConnection.nextId_insert]
      rw [htokens, List.mem_append, List.mem_singleton] at ht'
      rcases ht' with ht' | rfl
      · have := h.le t' ht'
        omega
      · omega
    · -- The new id is above all that were given before.
      rw [htokens, List.map_append, List.pairwise_append]
      refine ⟨h.increasing, List.pairwise_singleton _ _, fun id hid' id' hnew => ?_⟩
      obtain ⟨t', ht', rfl⟩ := List.mem_map.mp hid'
      obtain rfl := List.mem_singleton.mp hnew
      have := h.le t' ht'
      omega
  | @revoke id found _ hrevoke =>
    obtain rfl : (revoke c table id).2 = c' := congrArg Prod.snd hrevoke
    refine h.of_tokens_eq rfl ?_ rfl
    show Function.update c.tables table (eraseKey MemoryConnection.rowId (some id)
      (c.tables table)) table = _
    have hkey : ∀ t, MemoryConnection.rowId (rowOf sha256Hex t) = some t.id := rowId_rowOf
    rw [Function.update_self, h.rows, eraseKey_map hkey]
    simp [liveAfter, eraseKey]
  | authenticate => exact h.of_tokens_eq rfl h.rows rfl

/-- Every run keeps the table what it is. -/
theorem Mirrors.trace {past events : List Event} (h : Mirrors sha256Hex table c past)
    (htrace : Trace (Step sha256Hex table) c events c') :
    Mirrors sha256Hex table c' (past ++ events) := by
  induction htrace generalizing past with
  | nil c => simpa using h
  | @cons c _ _ e events hstep _ ih => simpa using ih (h.step hstep)

theorem mirrors_of_empty (hempty : c.tables table = []) : Mirrors sha256Hex table c [] where
  rows := hempty
  le t ht := by cases ht
  increasing := .nil

/-! ### Authentication -/

/-- The token that a hash finds. -/
theorem authenticate_eq {events : List Event} (h : Mirrors sha256Hex table c events)
    (presented : Bytes) (now clock : Int) :
    authenticate sha256Hex c table presented now clock =
      some ((getKey (fun t => sha256Hex t.plaintext) (sha256Hex presented) (live events)).bind
        fun t => if t.expiresAt ≠ 0 ∧ (if now = 0 then clock else now) > t.expiresAt then none
          else some t.record) := by
  have hselect : c.select table [(bytes "token_hash", .string (sha256Hex presented))] =
      ((live events).filter fun t => sha256Hex t.plaintext = sha256Hex presented).map
        (rowOf sha256Hex) := by
    rw [MemoryConnection.select, h.rows, List.filter_map]
    simp [Function.comp_def, get?_tokenHash_rowOf, Value.eq]
  have hhead : getKey (fun t => sha256Hex t.plaintext) (sha256Hex presented) (live events) =
      ((live events).filter fun t => sha256Hex t.plaintext = sha256Hex presented).head? :=
    List.head?_filter.symm
  rw [authenticate, hselect, hhead]
  cases (live events).filter fun t => sha256Hex t.plaintext = sha256Hex presented with
  | nil => rfl
  | cons t rest =>
    simp only [List.map_cons, getInt_expiresAt_rowOf, Option.getD_some, List.head?_cons,
      Option.bind_some, toRecord_rowOf, Option.map_some]
    exact (apply_ite some _ _ _).symm

/-- The plaintexts that were issued. -/
def plaintexts (events : List Event) : List Bytes := (tokens events).map Token.plaintext

/-- The strings that are hashed. -/
def hashed (events : List Event) : Set Bytes :=
  {p | p ∈ plaintexts events ∨ ∃ now clock result, .authenticated p now clock result ∈ events}

/-- The hash of a presented string finds the live token with that plaintext. -/
theorem getKey_live_iff {before after : List Event} {p : Bytes} {now clock : Int}
    {result : Option (Option Record)}
    (hfresh : (plaintexts (before ++ .authenticated p now clock result :: after)).Nodup)
    (hinjective : Set.InjOn sha256Hex
      (hashed (before ++ .authenticated p now clock result :: after))) {t : Token} :
    getKey (fun t => sha256Hex t.plaintext) (sha256Hex p) (live before) = some t ↔
      t ∈ live before ∧ t.plaintext = p := by
  -- Different live tokens have different hashes.
  have hmem : ∀ t ∈ live before, t.plaintext ∈ plaintexts before := fun t ht =>
    List.mem_map_of_mem ((live_sublist before).subset ht)
  have hhashed : ∀ t ∈ live before,
      t.plaintext ∈ hashed (before ++ .authenticated p now clock result :: after) := by
    intro t ht
    refine .inl ?_
    rw [plaintexts, tokens_append, List.map_append]
    exact List.mem_append_left _ (hmem t ht)
  have hpresented : p ∈ hashed (before ++ .authenticated p now clock result :: after) :=
    .inr ⟨now, clock, result, by simp⟩
  have hplain : ((live before).map Token.plaintext).Nodup := by
    refine List.Nodup.sublist ?_ hfresh
    rw [plaintexts, tokens_append, List.map_append]
    exact ((live_sublist before).map _).trans (List.sublist_append_left _ _)
  have hnodup : ((live before).map fun t => sha256Hex t.plaintext).Nodup := by
    refine List.Nodup.map_on (fun t ht t' ht' heq => ?_) (hplain.of_map _)
    exact List.inj_on_of_nodup_map hplain ht ht' (hinjective (hhashed t ht) (hhashed t' ht') heq)
  rw [getKey_eq_some_iff hnodup]
  constructor
  · rintro ⟨hlive, hhash⟩
    exact ⟨hlive, hinjective (hhashed t hlive) hpresented hhash⟩
  · rintro ⟨hlive, rfl⟩
    exact ⟨hlive, rfl⟩

/-- What a call of `authenticate` in a run answers. -/
theorem result_of_trace {before after : List Event} {p : Bytes} {now clock : Int}
    {result : Option (Option Record)} (hempty : c.tables table = [])
    (htrace : Trace (Step sha256Hex table) c
      (before ++ .authenticated p now clock result :: after) c') :
    result = some ((getKey (fun t => sha256Hex t.plaintext) (sha256Hex p) (live before)).bind
      fun t => if t.expiresAt ≠ 0 ∧ (if now = 0 then clock else now) > t.expiresAt then none
        else some t.record) := by
  obtain ⟨c₁, hbefore, hrest⟩ := htrace.split
  have hmirrors : Mirrors sha256Hex table c₁ before := (mirrors_of_empty hempty).trace hbefore
  rw [← authenticate_eq hmirrors]
  cases hrest with
  | cons hstep _ =>
    cases hstep with
    | authenticate h => exact h.symm

/-- **Exactly a token that is issued, not revoked and not expired is authenticated.** And ids only
grow, so that no two tokens ever have the same. -/
theorem authenticate_iff {events : List Event} (hempty : c.tables table = [])
    (htrace : Trace (Step sha256Hex table) c events c') (hfresh : (plaintexts events).Nodup)
    (hinjective : Set.InjOn sha256Hex (hashed events)) :
    ((tokens events).map Token.id).Pairwise (· < ·) ∧
      ∀ before p now clock result after,
        events = before ++ .authenticated p now clock result :: after → now ≠ 0 →
          result ≠ none ∧ ∀ record, result = some (some record) ↔
            ∃ t, Live before t ∧ t.plaintext = p ∧ (t.expiresAt = 0 ∨ now ≤ t.expiresAt) ∧
              record = t.record := by
  refine ⟨((mirrors_of_empty hempty).trace htrace).increasing, ?_⟩
  rintro before p now clock result after rfl hnow
  have hresult := result_of_trace hempty htrace
  rw [if_neg hnow] at hresult
  subst hresult
  refine ⟨Option.some_ne_none _, fun record => ?_⟩
  rw [Option.some.injEq, Option.bind_eq_some_iff]
  constructor
  · rintro ⟨t, hfound, hrecord⟩
    -- The record that is found belongs to a live token, since no two share a hash.
    obtain ⟨hlive, hplain⟩ := (getKey_live_iff hfresh hinjective).mp hfound
    split at hrecord
    · cases hrecord
    · rename_i hexpired
      refine ⟨t, mem_live_iff.mp hlive, hplain, ?_, (Option.some.inj hrecord).symm⟩
      by_contra hnot
      exact hexpired ⟨fun h => hnot (.inl h), by omega⟩
  · rintro ⟨t, hlive, hplain, hvalid, rfl⟩
    refine ⟨t, (getKey_live_iff hfresh hinjective).mpr ⟨mem_live_iff.mpr hlive, hplain⟩,
      if_neg ?_⟩
    rintro ⟨hne, hexpired⟩
    rcases hvalid with h | h
    · exact hne h
    · omega

/-- A token is issued, authenticated, and revoked. -/
theorem authenticate_iff_applies :
    let t : Token := ⟨1, 42, bytes "cli", [bytes "post"], 1000, bytes "abc"⟩
    some (some t.record) ≠ none ∧
      (some (some t.record) = some (some t.record) ↔ ∃ t', Live [.issued t] t' ∧
        t'.plaintext = bytes "abc" ∧ (t'.expiresAt = 0 ∨ 999 ≤ t'.expiresAt) ∧
          t.record = t'.record) := by
  intro t
  let c₁ := (issue (fun s => s) .empty (bytes "tokens") 42 (bytes "cli") [bytes "post"] 1000
    (bytes "abc")).2
  have hissue : Step (fun s => s) (bytes "tokens") .empty (.issued t) c₁ := .issue rfl
  have hauthenticate : Step (fun s => s) (bytes "tokens") c₁
      (.authenticated (bytes "abc") 999 0 (some (some t.record))) c₁ :=
    .authenticate (by decide)
  have hrevoke : Step (fun s => s) (bytes "tokens") c₁ (.revoked 1 true)
      (revoke c₁ (bytes "tokens") 1).2 := .revoke (Prod.ext (by decide) rfl)
  have hiff := (authenticate_iff rfl (.cons hissue (.cons hauthenticate (.cons hrevoke (.nil _))))
    (by decide) Function.injective_id.injOn).2 [.issued t] (bytes "abc") 999 0 _ [.revoked 1 true]
    rfl (by decide)
  exact ⟨hiff.1, hiff.2 t.record⟩

end CppLaravel.Pat
