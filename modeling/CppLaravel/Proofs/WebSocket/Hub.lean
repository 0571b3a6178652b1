import CppLaravel.Lib.Transition
import CppLaravel.WebSocket.Hub
import Mathlib.Algebra.Order.BigOperators.Group.Finset

/-!
# `CppLaravel.Proofs.WebSocket.Hub`: frames stay whole, and broadcasts arrive once

`wire_of_run`: in any run of any number of threads, what is on a connection's wire is whole frames,
in the order in which its mutex was taken, and the beginning of the frame now being sent.
`sendings_of_run`: a call has sent to each of its connections once, and to no other. `Stepped` says
what a step can do, and `Inv` is what all of them keep.
-/

set_option autoImplicit false

namespace CppLaravel.WebSocket.Hub

open CppLaravel.Lib

variable {κ τ : Type} [LinearOrder κ] [DecidableEq τ]

/-! ### Steps -/

/-- What a step can do. -/
inductive Stepped (s : Server κ τ) : Move κ τ → Server κ τ → Prop
  | add {t : τ} {c : κ} (htask : s.task t = none) : Stepped s (.add t c)
      { s with conns := if c ∈ s.conns then s.conns else s.conns.orderedInsert (· ≤ ·) c }
  | remove {t : τ} {c : κ} (htask : s.task t = none) : Stepped s (.remove t c)
      { s with conns := s.conns.filter (· ≠ c) }
  | send {t : τ} {c : κ} {out : Bytes} (htask : s.task t = none) :
      Stepped s (.send t c out) (s.enter t (.send c) out)
  | broadcast {t : τ} {out : Bytes} (htask : s.task t = none) :
      Stepped s (.broadcast t out) (s.enter t (.broadcast s.conns) out)
  | lock {t : τ} {c : κ} {k : Task κ} {todo : List κ} (htask : s.task t = some k)
      (htodo : k.todo = c :: todo) (hleft : k.left = none) (hmutex : s.sendMutex c = none) :
      Stepped s (.lock t)
        { s with
          sendMutex := Function.update s.sendMutex c (some t)
          task := Function.update s.task t (some { k with left := some k.frame }) }
  | write {t : τ} {n : Nat} {c : κ} {k : Task κ} {todo : List κ} {left : Bytes}
      (htask : s.task t = some k) (htodo : k.todo = c :: todo) (hleft : k.left = some left)
      (hn : 0 < n) (hle : n ≤ left.length) :
      Stepped s (.write t n)
        { s with
          wire := Function.update s.wire c (s.wire c ++ left.take n)
          task := Function.update s.task t (some { k with left := some (left.drop n) }) }
  | fail {t : τ} {c : κ} {k : Task κ} {todo : List κ} {left : Bytes}
      (htask : s.task t = some k) (htodo : k.todo = c :: todo) (hleft : k.left = some left)
      (hne : left ≠ []) : Stepped s (.fail t) (s.leave t k c false)
  | unlock {t : τ} {c : κ} {k : Task κ} {todo : List κ} (htask : s.task t = some k)
      (htodo : k.todo = c :: todo) (hleft : k.left = some []) :
      Stepped s (.unlock t) (s.leave t k c true)

variable {s s' : Server κ τ} {m : Move κ τ}

theorem stepped_of_step (h : s.step m = some s') : Stepped s m s' := by
  cases m with
  | add t c =>
    rw [Server.step] at h
    split at h
    · rename_i htask
      obtain rfl := Option.some.inj h
      exact .add (Option.isNone_iff_eq_none.mp htask)
    · cases h
  | remove t c =>
    rw [Server.step] at h
    split at h
    · rename_i htask
      obtain rfl := Option.some.inj h
      exact .remove (Option.isNone_iff_eq_none.mp htask)
    · cases h
  | send t c out =>
    rw [Server.step] at h
    split at h
    · rename_i htask
      obtain rfl := Option.some.inj h
      exact .send (Option.isNone_iff_eq_none.mp htask)
    · cases h
  | broadcast t out =>
    rw [Server.step] at h
    split at h
    · rename_i htask
      obtain rfl := Option.some.inj h
      exact .broadcast (Option.isNone_iff_eq_none.mp htask)
    · cases h
  | lock t =>
    rw [Server.step] at h
    split at h
    · rename_i call frame c todo htask
      split at h
      · rename_i hmutex
        obtain rfl := Option.some.inj h
        exact .lock htask rfl rfl hmutex
      · cases h
    · cases h
  | write t n =>
    rw [Server.step] at h
    split at h
    · rename_i call frame c todo left htask
      split at h
      · rename_i hn
        obtain rfl := Option.some.inj h
        exact .write htask rfl rfl hn.1 hn.2
      · cases h
    · cases h
  | fail t =>
    rw [Server.step] at h
    split at h
    · rename_i call frame c todo left htask
      split at h
      · cases h
      · rename_i hne
        obtain rfl := Option.some.inj h
        exact .fail htask rfl rfl hne
    · cases h
  | unlock t =>
    rw [Server.step] at h
    split at h
    · rename_i call frame c todo left htask
      split at h
      · rename_i hleft
        obtain rfl := Option.some.inj h
        subst hleft
        exact .unlock htask rfl rfl
      · cases h
    · cases h

/-! ### The invariant -/

/-- What is known of a thread's task: what is left is the end of its frame, and while something
is, it has the mutex; and no other thread has its call. -/
structure Tasked (s : Server κ τ) (t : τ) (k : Task κ) : Prop where
  todo : k.todo ≠ []
  left : ∀ l, k.left = some l → ∃ w, k.frame = w ++ l
  mutex : ∀ l, k.left = some l → ∀ c todo, k.todo = c :: todo → s.sendMutex c = some t
  call : k.call < s.calls.length
  alone : ∀ t' k', s.task t' = some k' → k'.call = k.call → t' = t

/-- What of its frame a thread has written to the connection whose mutex it has. -/
def written (k : Task κ) : Bytes :=
  match k.left with
  | some l => k.frame.take (k.frame.length - l.length)
  | none => []

omit [LinearOrder κ] in
theorem written_of_left {k : Task κ} {w l : Bytes} (hleft : k.left = some l)
    (h : k.frame = w ++ l) : written k = w := by
  simp [written, hleft, h]

/-- What has been written to a connection of the frame that is being sent. -/
def begun (s : Server κ τ) (c : κ) : Bytes :=
  (((s.sendMutex c).bind s.task).map written).getD []

/-- How many times a call has sent to a connection, or failed to. -/
def sendings (s : Server κ τ) (b : Nat) (c : κ) : Nat := (s.log c).countP (·.call = b)

/-- What every step keeps. -/
structure Inv (s : Server κ τ) : Prop where
  conns : s.conns.Nodup
  task : ∀ t k, s.task t = some k → Tasked s t k
  mutex : ∀ c t, s.sendMutex c = some t → ∃ k todo l, s.task t = some k ∧ k.todo = c :: todo ∧
    k.left = some l
  wire : ∀ c, (∀ x ∈ s.log c, x.ok) → s.wire c = (s.log c).flatMap (·.frame) ++ begun s c
  running : ∀ t k call, s.task t = some k → s.calls[k.call]? = some call →
    ∀ c, sendings s k.call c + k.todo.count c = call.targets.count c
  done : ∀ b call, s.calls[b]? = some call → (∀ t k, s.task t = some k → k.call ≠ b) →
    ∀ c, sendings s b c = call.targets.count c
  early : ∀ c, ∀ x ∈ s.log c, x.call < s.calls.length
  nodup : ∀ call ∈ s.calls, call.targets.Nodup

omit [DecidableEq τ] in
theorem inv_init : Inv (Server.init : Server κ τ) where
  conns := List.nodup_nil
  task := fun t k h => by cases h
  mutex := fun c t h => by cases h
  wire := fun c _ => rfl
  running := fun t k call h => by cases h
  done := fun b call h => by cases h
  early := fun c x h => by cases h
  nodup := fun call h => by cases h

omit [LinearOrder κ] [DecidableEq τ] in
theorem begun_congr {c : κ} (hmutex : s'.sendMutex c = s.sendMutex c)
    (htask : ∀ t, s.sendMutex c = some t → s'.task t = s.task t) : begun s' c = begun s c := by
  rw [begun, begun, hmutex]
  cases h : s.sendMutex c with
  | none => rfl
  | some t => rw [Option.bind_some, Option.bind_some, htask t h]

omit [LinearOrder κ] [DecidableEq τ] in
theorem begun_of_free {c : κ} (h : s.sendMutex c = none) : begun s c = [] := by
  rw [begun, h]
  rfl

omit [LinearOrder κ] [DecidableEq τ] in
theorem begun_of_held {c : κ} {t : τ} {k : Task κ} (h : s.sendMutex c = some t)
    (htask : s.task t = some k) : begun s c = written k := by
  rw [begun, h, Option.bind_some, htask]
  rfl

namespace Inv

variable {t : τ} {k : Task κ} {c : κ}

omit [DecidableEq τ] in
/-- The holder of another connection's mutex is another thread. -/
theorem holder_ne (hs : Inv s) (htask : s.task t = some k)
    (hk : ∀ todo l, k.todo = c :: todo → k.left ≠ some l) : s.sendMutex c ≠ some t := by
  intro h
  obtain ⟨k', todo, l, htask', htodo, hleft⟩ := hs.mutex c t h
  obtain rfl := Option.some.inj (htask.symm.trans htask')
  exact hk todo l htodo hleft

end Inv

/-- A thread has gone on with its task, on the connection `c`. -/
structure Advanced (s s' : Server κ τ) (t : τ) (k : Task κ) (c : κ) (next : Option (Task κ)) :
    Prop where
  conns : s'.conns = s.conns
  calls : s'.calls = s.calls
  task : ∀ t', s'.task t' = if t' = t then next else s.task t'
  /-- Only the mutex of `c` is taken or given back. -/
  before : ∀ t', s.sendMutex c = some t' → t' = t
  mutex : ∀ c', s'.sendMutex c' =
    if c' = c then (if (next.bind Task.left).isSome then some t else none) else s.sendMutex c'
  other : ∀ c', c' ≠ c → s'.wire c' = s.wire c' ∧ s'.log c' = s.log c'
  head : ∀ k', next = some k' → k'.left.isSome → ∃ todo, k'.todo = c :: todo
  goes : ∀ k', next = some k' → k'.call = k.call ∧ k'.todo ≠ [] ∧
    ∀ l, k'.left = some l → ∃ w, k'.frame = w ++ l
  wire : (∀ x ∈ s'.log c, x.ok) →
    s'.wire c = (s'.log c).flatMap (·.frame) ++ (next.map written).getD []
  early : ∀ x ∈ s'.log c, x ∈ s.log c ∨ x.call = k.call
  count : ∀ c', sendings s' k.call c' + (next.map (·.todo.count c')).getD 0 =
    sendings s k.call c' + k.todo.count c'
  counts : ∀ b c', b ≠ k.call → sendings s' b c' = sendings s b c'

namespace Inv

variable {t : τ} {k : Task κ} {c : κ} {next : Option (Task κ)}

/-- The task of a thread that goes on is as it has to be. -/
theorem tasked_advance (hs : Inv s) (htask : s.task t = some k) (h : Advanced s s' t k c next)
    {t' : τ} {k' : Task κ} (htask' : s'.task t' = some k') : Tasked s' t' k' := by
  have hk := hs.task t k htask
  rw [h.task] at htask'
  split at htask'
  · rename_i ht
    subst ht
    obtain ⟨hcall, htodo, hleft⟩ := h.goes k' htask'
    refine ⟨htodo, hleft, fun l hl c' todo hc' => ?_, ?_, fun t'' k'' htask'' hcall'' => ?_⟩
    · obtain ⟨todo', hhead⟩ := h.head k' htask' (by rw [hl]; rfl)
      obtain rfl := (List.cons.inj (hhead.symm.trans hc')).1
      rw [h.mutex, if_pos rfl, htask', Option.bind_some, hl]
      rfl
    · rw [hcall, h.calls]
      exact hk.call
    · rw [h.task] at htask''
      split at htask''
      · assumption
      · exact hk.alone t'' k'' htask'' (hcall''.trans hcall)
  · rename_i hne
    have hk' := hs.task t' k' htask'
    refine ⟨hk'.todo, hk'.left, fun l hl c' todo hc' => ?_, ?_, fun t'' k'' htask'' hcall'' => ?_⟩
    · have hmutex := hk'.mutex l hl c' todo hc'
      have hc : c' ≠ c := by
        rintro rfl
        exact hne (h.before t' hmutex)
      rw [h.mutex, if_neg hc]
      exact hmutex
    · rw [h.calls]
      exact hk'.call
    · rw [h.task] at htask''
      split at htask''
      · have hcall := (h.goes k'' htask'').1
        exact absurd (hk.alone t' k' htask' (hcall''.symm.trans hcall)) hne
      · exact hk'.alone t'' k'' htask'' hcall''

theorem begun_advance (h : Advanced s s' t k c next) :
    begun s' c = (next.map written).getD [] := by
  have hmutex := h.mutex c
  rw [if_pos rfl] at hmutex
  cases hnext : next with
  | none =>
    rw [hnext, Option.bind_none] at hmutex
    exact begun_of_free hmutex
  | some k' =>
    rw [hnext, Option.bind_some] at hmutex
    cases hleft : k'.left with
    | none =>
      rw [hleft] at hmutex
      rw [begun_of_free hmutex, Option.map_some, Option.getD_some, written, hleft]
    | some l =>
      rw [hleft] at hmutex
      refine begun_of_held hmutex ?_
      rw [h.task, if_pos rfl, hnext]

theorem advance (hs : Inv s) (c : κ) (next : Option (Task κ)) (htask : s.task t = some k)
    (h : Advanced s s' t k c next) (hfree : ∀ c', c' ≠ c → s.sendMutex c' ≠ some t) : Inv s' := by
  have hk := hs.task t k htask
  refine ⟨h.conns ▸ hs.conns, fun t' k' htask' => hs.tasked_advance htask h htask',
    fun c' t' hmutex => ?_, fun c' hok => ?_, fun t' k' call htask' hcall c' => ?_,
    fun b call hcall hb c' => ?_, fun c' x hx => ?_, h.calls ▸ hs.nodup⟩
  · rw [h.mutex] at hmutex
    split at hmutex
    · rename_i hc
      subst hc
      split at hmutex
      · rename_i hsome
        obtain rfl := Option.some.inj hmutex
        obtain ⟨l, hl⟩ := Option.isSome_iff_exists.mp hsome
        obtain ⟨k', hnext, hleft⟩ := Option.bind_eq_some_iff.mp hl
        obtain ⟨todo, htodo⟩ := h.head k' hnext (by rw [hleft]; rfl)
        exact ⟨k', todo, l, by rw [h.task, if_pos rfl, hnext], htodo, hleft⟩
      · cases hmutex
    · rename_i hc
      obtain ⟨k', todo, l, htask', hrest⟩ := hs.mutex c' t' hmutex
      refine ⟨k', todo, l, ?_, hrest⟩
      rw [h.task, if_neg, htask']
      rintro rfl
      exact hfree c' hc hmutex
  · by_cases hc : c' = c
    · subst hc
      rw [h.wire hok, begun_advance h]
    · obtain ⟨hwire, hlog⟩ := h.other c' hc
      rw [hlog] at hok ⊢
      have hbegun : begun s' c' = begun s c' := by
        refine begun_congr ((h.mutex c').trans (if_neg hc)) fun t' ht' => ?_
        rw [h.task, if_neg]
        rintro rfl
        exact hfree c' hc ht'
      rw [hwire, hbegun, hs.wire c' hok]
  · rw [h.calls] at hcall
    rw [h.task] at htask'
    split at htask'
    · have hsame := (h.goes k' htask').1
      have hcount := h.count c'
      rw [htask', Option.map_some, Option.getD_some] at hcount
      rw [hsame] at hcall ⊢
      rw [hcount]
      exact hs.running t k call htask hcall c'
    · rename_i hne
      have hother : k'.call ≠ k.call := fun heq => hne (hk.alone t' k' htask' heq)
      rw [h.counts k'.call c' hother]
      exact hs.running t' k' call htask' hcall c'
  · rw [h.calls] at hcall
    by_cases hbk : b = k.call
    · subst hbk
      have hnext : next = none := by
        cases hnext : next with
        | none => rfl
        | some k' =>
          exact absurd (h.goes k' hnext).1 (hb t k' (by rw [h.task, if_pos rfl, hnext]))
      have hcount := h.count c'
      rw [hnext] at hcount
      exact hcount.trans (hs.running t k call htask hcall c')
    · rw [h.counts b c' hbk]
      refine hs.done b call hcall (fun t' k' htask' => ?_) c'
      by_cases ht : t' = t
      · subst ht
        obtain rfl := Option.some.inj (htask.symm.trans htask')
        exact fun heq => hbk heq.symm
      · exact hb t' k' (by rw [h.task, if_neg ht, htask'])
  · rw [h.calls]
    by_cases hc : c' = c
    · subst hc
      rcases h.early x hx with hx | hx
      · exact hs.early c' x hx
      · rw [hx]
        exact hk.call
    · rw [(h.other c' hc).2] at hx
      exact hs.early c' x hx

theorem lock {todo : List κ} (hs : Inv s) (htask : s.task t = some k)
    (htodo : k.todo = c :: todo) (hleft : k.left = none) (hmutex : s.sendMutex c = none) :
    Inv { s with
      sendMutex := Function.update s.sendMutex c (some t)
      task := Function.update s.task t (some { k with left := some k.frame }) } := by
  refine hs.advance c (some { k with left := some k.frame }) htask ⟨rfl, rfl,
    fun t' => Function.update_apply .., fun t' h => ?_, fun c' => Function.update_apply ..,
    fun c' _ => ⟨rfl, rfl⟩, fun k' h _ => ?_, fun k' h => ?_, fun hok => ?_, fun x hx => .inl hx,
    fun c' => rfl, fun b c' _ => rfl⟩ fun c' _ => ?_
  · rw [hmutex] at h
    cases h
  · obtain rfl := Option.some.inj h
    exact ⟨todo, htodo⟩
  · obtain rfl := Option.some.inj h
    refine ⟨rfl, (hs.task t k htask).todo, fun l hl => ⟨[], ?_⟩⟩
    exact Option.some.inj hl
  · have hwire := hs.wire c hok
    rw [begun_of_free hmutex] at hwire
    simpa [written] using hwire
  · exact hs.holder_ne htask fun _ l _ h => by rw [hleft] at h; cases h

theorem write {todo : List κ} {left : Bytes} {n : Nat} (hs : Inv s) (htask : s.task t = some k)
    (htodo : k.todo = c :: todo) (hleft : k.left = some left) :
    Inv { s with
      wire := Function.update s.wire c (s.wire c ++ left.take n)
      task := Function.update s.task t (some { k with left := some (left.drop n) }) } := by
  have hk := hs.task t k htask
  have hmutex := hk.mutex left hleft c todo htodo
  obtain ⟨w, hw⟩ := hk.left left hleft
  refine hs.advance c (some { k with left := some (left.drop n) }) htask ⟨rfl, rfl,
    fun t' => Function.update_apply .., fun t' h => ?_, fun c' => ?_,
    fun c' hc => ⟨Function.update_of_ne hc _ _, rfl⟩, fun k' h _ => ?_, fun k' h => ?_,
    fun hok => ?_, fun x hx => .inl hx, fun c' => rfl, fun b c' _ => rfl⟩ fun c' hc => ?_
  · exact Option.some.inj (h.symm.trans hmutex)
  · by_cases hc : c' = c
    · rw [if_pos hc, hc]
      exact hmutex
    · rw [if_neg hc]
  · obtain rfl := Option.some.inj h
    exact ⟨todo, htodo⟩
  · obtain rfl := Option.some.inj h
    refine ⟨rfl, hk.todo, fun l hl => ⟨w ++ left.take n, ?_⟩⟩
    rw [← Option.some.inj hl, List.append_assoc, List.take_append_drop]
    exact hw
  · have hwire := hs.wire c hok
    rw [begun_of_held hmutex htask] at hwire
    have hbefore : written k = w := written_of_left hleft hw
    have hafter : written { k with left := some (left.drop n) } = w ++ left.take n := by
      refine written_of_left rfl ?_
      rw [List.append_assoc, List.take_append_drop]
      exact hw
    change Function.update s.wire c _ c = _
    rw [Function.update_self, hwire, hbefore, Option.map_some, Option.getD_some, hafter,
      List.append_assoc]
  · refine hs.holder_ne htask fun todo' l htodo' _ => hc ?_
    exact (List.cons.inj (htodo'.symm.trans htodo)).1

theorem leave {todo : List κ} {left : Bytes} {ok : Bool} (hs : Inv s) (htask : s.task t = some k)
    (htodo : k.todo = c :: todo) (hleft : k.left = some left) (hok : ok → left = []) :
    Inv (s.leave t k c ok) := by
  have hk := hs.task t k htask
  have hmutex := hk.mutex left hleft c todo htodo
  have hnext : k.next = if todo = [] then none else some { k with todo, left := none } := by
    rw [Task.next, htodo, List.tail_cons]
    cases todo <;> rfl
  have hlog : ∀ c', (s.leave t k c ok).log c' =
      if c' = c then s.log c ++ [⟨k.call, k.frame, ok⟩] else s.log c' := fun c' =>
    Function.update_apply ..
  refine hs.advance c k.next htask ⟨rfl, rfl, fun t' => Function.update_apply ..,
    fun t' h => ?_, fun c' => ?_, fun c' hc => ⟨rfl, ?_⟩, fun k' h hsome => ?_, fun k' h => ?_,
    fun hall => ?_, fun x hx => ?_, fun c' => ?_, fun b c' hb => ?_⟩ fun c' hc => ?_
  · exact Option.some.inj (h.symm.trans hmutex)
  · have hnone : k.next.bind Task.left = none := by
      rw [hnext]
      split <;> rfl
    rw [hnone]
    exact Function.update_apply ..
  · rw [hlog, if_neg hc]
  · rw [hnext] at h
    split at h
    · cases h
    · obtain rfl := Option.some.inj h
      cases hsome
  · rw [hnext] at h
    split at h
    · cases h
    · rename_i hne
      obtain rfl := Option.some.inj h
      exact ⟨rfl, hne, fun l hl => by cases hl⟩
  · rw [hlog, if_pos rfl] at hall ⊢
    have hsame := hall _ (List.mem_append_right _ (List.mem_singleton_self _))
    have hempty := hok hsame
    have hwire := hs.wire c fun x hx => hall x (List.mem_append_left _ hx)
    rw [begun_of_held hmutex htask] at hwire
    have hwritten : written k = k.frame :=
      written_of_left hleft (by rw [hempty, List.append_nil])
    have hrest : (k.next.map written).getD [] = [] := by
      rw [hnext]
      split <;> rfl
    rw [hrest, List.flatMap_append, List.flatMap_singleton, List.append_nil]
    exact hwire.trans (by rw [hwritten])
  · rw [hlog, if_pos rfl] at hx
    rcases List.mem_append.mp hx with hx | hx
    · exact .inl hx
    · rw [List.mem_singleton.mp hx]
      exact .inr rfl
  · have hcount : (k.next.map (·.todo.count c')).getD 0 = todo.count c' := by
      rw [hnext]
      split
      · rename_i hempty
        rw [hempty]
        rfl
      · rfl
    rw [sendings, sendings, hlog, hcount, htodo, List.count_cons]
    by_cases hc : c' = c
    · subst hc
      simp
      omega
    · simp [hc, Ne.symm hc]
  · rw [sendings, sendings, hlog]
    by_cases hc : c' = c
    · subst hc
      simp [Ne.symm hb]
    · rw [if_neg hc]
  · refine hs.holder_ne htask fun todo' l htodo' _ => hc ?_
    exact (List.cons.inj (htodo'.symm.trans htodo)).1

omit [LinearOrder κ] [DecidableEq τ] in
theorem sendings_of_not_early {b : Nat} (h : ∀ x ∈ s.log c, x.call ≠ b) : sendings s b c = 0 := by
  simpa [sendings, List.countP_eq_zero] using h

/-- A thread that is idle enters a call. -/
theorem enter {call : Call κ} {out : Bytes} (hs : Inv s) (htask : s.task t = none)
    (hnodup : call.targets.Nodup) :
    Inv (s.enter t call out) := by
  have hlt : ∀ t' k', s.task t' = some k' → k'.call < s.calls.length := fun t' k' h =>
    (hs.task t' k' h).call
  have htask' : ∀ t', (s.enter t call out).task t' = if t' = t then
      (if call.targets = [] then none else some ⟨s.calls.length, out, call.targets, none⟩)
      else s.task t' := fun t' => Function.update_apply ..
  have hlength : (s.enter t call out).calls.length = s.calls.length + 1 := List.length_append
  have hold : ∀ b call', (s.enter t call out).calls[b]? = some call' → b ≠ s.calls.length →
      s.calls[b]? = some call' := by
    intro b call' h hb
    have hlt' := List.getElem?_eq_some_iff.mp h
    obtain ⟨hlt', -⟩ := hlt'
    rw [hlength] at hlt'
    exact (List.getElem?_append_left (by omega)).symm.trans h
  have hnew : ∀ call', (s.enter t call out).calls[s.calls.length]? = some call' →
      call' = call := by
    intro call' h
    have hlast : (s.calls ++ [call])[s.calls.length]? = some call := List.getElem?_concat_length
    exact (Option.some.inj (hlast.symm.trans h)).symm
  have hnone : ∀ c', sendings s s.calls.length c' = 0 := fun c' =>
    sendings_of_not_early fun x hx => Nat.ne_of_lt (hs.early c' x hx)
  refine ⟨hs.conns, fun t' k' h => ?_, fun c' t' h => ?_, fun c' hok => ?_,
    fun t' k' call' h hcall c' => ?_, fun b call' hcall hb c' => ?_, fun c' x hx => ?_,
    fun call' h => ?_⟩
  · rw [htask'] at h
    split at h
    · rename_i ht
      split at h
      · cases h
      · rename_i hne
        obtain rfl := Option.some.inj h
        refine ⟨hne, fun l hl => (by cases hl), fun l hl => (by cases hl), ?_,
          fun t'' k'' h'' hcall => ?_⟩
        · rw [hlength]
          exact Nat.lt_succ_self _
        · rw [htask'] at h''
          split at h''
          · rename_i ht''
            rw [ht, ht'']
          · exact absurd hcall (Nat.ne_of_lt (hlt t'' k'' h''))
    · rename_i hne
      have hk' := hs.task t' k' h
      refine ⟨hk'.todo, hk'.left, hk'.mutex, ?_, fun t'' k'' h'' hcall => ?_⟩
      · rw [hlength]
        exact Nat.lt_succ_of_lt hk'.call
      · rw [htask'] at h''
        split at h''
        · split at h''
          · cases h''
          · obtain rfl := Option.some.inj h''
            exact absurd hcall.symm (Nat.ne_of_lt hk'.call)
        · exact hk'.alone t'' k'' h'' hcall
  · obtain ⟨k', todo, l, h', hrest⟩ := hs.mutex c' t' h
    refine ⟨k', todo, l, ?_, hrest⟩
    rw [htask', if_neg, h']
    rintro rfl
    rw [htask] at h'
    cases h'
  · have hbegun : begun (s.enter t call out) c' = begun s c' := by
      refine begun_congr rfl fun t' ht' => ?_
      rw [htask', if_neg]
      rintro rfl
      obtain ⟨k', todo, l, h', -⟩ := hs.mutex c' t' ht'
      rw [htask] at h'
      cases h'
    rw [hbegun]
    exact hs.wire c' hok
  · rw [htask'] at h
    split at h
    · split at h
      · cases h
      · obtain rfl := Option.some.inj h
        obtain rfl := hnew call' hcall
        exact (congrArg (· + _) (hnone c')).trans (Nat.zero_add _)
    · exact hs.running t' k' call' h (hold _ _ hcall (Nat.ne_of_lt (hlt t' k' h))) c'
  · by_cases hlast : b = s.calls.length
    · subst hlast
      obtain rfl := hnew call' hcall
      have hempty : call'.targets = [] := by
        by_contra hne
        exact hb t ⟨s.calls.length, out, call'.targets, none⟩
          (by rw [htask', if_pos rfl, if_neg hne]) rfl
      rw [hempty]
      exact hnone c'
    · refine hs.done b call' (hold _ _ hcall hlast) (fun t' k' h => ?_) c'
      refine hb t' k' ?_
      rw [htask', if_neg, h]
      rintro rfl
      rw [htask] at h
      cases h
  · rw [hlength]
    exact Nat.lt_succ_of_lt (hs.early c' x hx)
  · rcases List.mem_append.mp h with h | h
    · exact hs.nodup call' h
    · rw [List.mem_singleton.mp h]
      exact hnodup

theorem step (hs : Inv s) (h : s.step m = some s') : Inv s' := by
  cases stepped_of_step h with
  | @add t c htask =>
    refine ⟨?_, fun t k h => ?_, hs.mutex, hs.wire, hs.running, hs.done, hs.early,
      hs.nodup⟩
    · dsimp only
      split
      · exact hs.conns
      · rename_i hc
        exact (List.perm_orderedInsert _ c s.conns).nodup_iff.mpr
          (List.nodup_cons.mpr ⟨hc, hs.conns⟩)
    · obtain ⟨htodo, hleft, hmutex, hcall, halone⟩ := hs.task t k h
      exact ⟨htodo, hleft, hmutex, hcall, halone⟩
  | remove htask =>
    refine ⟨hs.conns.filter _, fun t k h => ?_, hs.mutex, hs.wire, hs.running, hs.done, hs.early,
      hs.nodup⟩
    obtain ⟨htodo, hleft, hmutex, hcall, halone⟩ := hs.task t k h
    exact ⟨htodo, hleft, hmutex, hcall, halone⟩
  | send htask => exact hs.enter htask (List.nodup_singleton _)
  | broadcast htask => exact hs.enter htask hs.conns
  | lock htask htodo hleft hmutex => exact hs.lock htask htodo hleft hmutex
  | write htask htodo hleft hn hle => exact hs.write htask htodo hleft
  | fail htask htodo hleft hne => exact hs.leave htask htodo hleft (fun h => by cases h)
  | unlock htask htodo hleft => exact hs.leave htask htodo hleft fun _ => rfl

end Inv

/-! ### Runs -/

/-- A run of the threads of a server. -/
abbrev Run : Server κ τ → List (Move κ τ) → Server κ τ → Prop := Trace (Steps Server.step)

variable {ms ms' : List (Move κ τ)}

theorem inv_of_run (h : Run Server.init ms s) : Inv s :=
  h.invariant (fun _ _ _ hs h => hs.step h) inv_init

/-- **Frames are never mixed**: as long as no send has failed on a connection, what is on its wire
is the frames sent, whole and in the order in which the mutex was taken, and of the one that is
being sent its beginning. -/
theorem wire_of_run (h : Run Server.init ms s) (c : κ) (hok : ∀ x ∈ s.log c, x.ok) :
    s.wire c = (s.log c).flatMap (·.frame) ++ begun s c := (inv_of_run h).wire c hok

/-- Two threads: a broadcast to two connections, and a send on one of them meanwhile. -/
def twoThreads : List (Move Nat Bool) :=
  [.add false 0, .add false 1, .broadcast false [1, 2], .lock false, .write false 1,
    .send true 0 [3], .write false 1, .unlock false, .lock true, .lock false, .write true 1,
    .write false 2, .unlock false]

/-- The server after these steps. -/
def relayed : Server Nat Bool := (run Server.step Server.init twoThreads).get rfl

theorem run_twoThreads : Run Server.init twoThreads relayed :=
  trace_iff_run.mpr (Option.some_get _).symm

theorem wire_of_run_relayed : relayed.wire 0 = [1, 2] ++ [3] :=
  wire_of_run run_twoThreads 0 (by decide)

/-- **A call that is over has sent once to each of its connections**, and to no other. -/
theorem sendings_of_run (h : Run Server.init ms s) {b : Nat} {call : Call κ}
    (hcall : s.calls[b]? = some call) (hover : ∀ t k, s.task t = some k → k.call ≠ b) (c : κ) :
    sendings s b c = if c ∈ call.targets then 1 else 0 := by
  have hs := inv_of_run h
  rw [hs.done b call hcall hover c,
    (hs.nodup call (List.mem_of_getElem? hcall)).count]

theorem sendings_of_run_relayed : sendings relayed 0 1 = 1 ∧ sendings relayed 0 2 = 0 := by
  have hcall : relayed.calls[0]? = some (.broadcast [0, 1]) := rfl
  have hover : ∀ t k, relayed.task t = some k → k.call ≠ 0 := by
    intro t k hk
    cases t with
    | false => cases hk
    | true =>
      cases hk
      decide
  exact ⟨sendings_of_run run_twoThreads hcall hover 1, sendings_of_run run_twoThreads hcall hover 2⟩

/-- What is known of the calls from `n` on while a connection is not registered. -/
structure Removed (n : Nat) (c : κ) (s : Server κ τ) : Prop where
  conns : c ∉ s.conns
  calls : ∀ b snapshot, n ≤ b → s.calls[b]? = some (.broadcast snapshot) → c ∉ snapshot

omit [LinearOrder κ] in
theorem Removed.enter {n : Nat} {c : κ} {t : τ} {call : Call κ} {out : Bytes}
    (hs : Removed n c s) (hc : ∀ snapshot, call = .broadcast snapshot → c ∉ snapshot) :
    Removed n c (s.enter t call out) := by
  refine ⟨hs.conns, fun b snapshot hb h => ?_⟩
  change (s.calls ++ [call])[b]? = _ at h
  rw [List.getElem?_append] at h
  split at h
  · exact hs.calls b snapshot hb h
  · exact hc snapshot (List.mem_singleton.mp (List.mem_of_getElem? h)).symm

theorem Removed.step {n : Nat} {c : κ} (hs : Removed n c s) (hm : ∀ t, m ≠ .add t c)
    (h : s.step m = some s') : Removed n c s' := by
  cases stepped_of_step h with
  | @add t c' htask =>
    refine ⟨?_, hs.calls⟩
    have hne : c ≠ c' := fun heq => hm t (heq ▸ rfl)
    dsimp only
    split
    · exact hs.conns
    · rw [List.mem_orderedInsert]
      exact fun h => h.elim hne hs.conns
  | remove htask => exact ⟨fun h => hs.conns (List.mem_of_mem_filter h), hs.calls⟩
  | send htask => exact hs.enter fun snapshot h => by cases h
  | broadcast htask =>
    refine hs.enter fun snapshot h => ?_
    obtain rfl := Call.broadcast.inj h
    exact hs.conns
  | lock htask htodo hleft hmutex => exact ⟨hs.conns, hs.calls⟩
  | write htask htodo hleft hn hle => exact ⟨hs.conns, hs.calls⟩
  | fail htask htodo hleft hne => exact ⟨hs.conns, hs.calls⟩
  | unlock htask htodo hleft => exact ⟨hs.conns, hs.calls⟩

theorem Removed.run {n : Nat} {c : κ} (hs : Removed n c s) (h : Run s ms s')
    (hadd : ∀ m ∈ ms, ∀ t, m ≠ .add t c) : Removed n c s' := by
  induction h with
  | nil s => exact hs
  | cons hstep hrest ih =>
    rw [List.forall_mem_cons] at hadd
    exact ih (hs.step hadd.1 hstep) hadd.2

/-- **No broadcast touches a connection after `remove` has returned**, unless it was begun before
or the connection is added again. -/
theorem untouched_of_run {s₁ : Server κ τ} {t : τ} {c : κ} (h : Run Server.init ms s)
    (hremove : s.step (.remove t c) = some s₁) (h' : Run s₁ ms' s')
    (hadd : ∀ m ∈ ms', ∀ t', m ≠ .add t' c) {b : Nat} {snapshot : List κ}
    (hb : s.calls.length ≤ b) (hcall : s'.calls[b]? = some (.broadcast snapshot)) :
    sendings s' b c = 0 ∧ ∀ t' k, s'.task t' = some k → k.call = b → c ∉ k.todo := by
  have hs₁ : Removed s.calls.length c s₁ := by
    cases stepped_of_step hremove with
    | remove htask =>
      refine ⟨fun h => absurd rfl (of_decide_eq_true (List.mem_filter.mp h).2), ?_⟩
      intro b snapshot hb h
      have := (List.getElem?_eq_some_iff.mp h).1
      exact absurd hb (Nat.not_le_of_lt this)
  have hs' := hs₁.run h' hadd
  have hinv : Inv s' :=
    h'.invariant (fun _ _ _ hs h => hs.step h) ((inv_of_run h).step hremove)
  have hc := List.count_eq_zero_of_not_mem (hs'.calls b snapshot hb hcall)
  by_cases hover : ∀ t k, s'.task t = some k → k.call ≠ b
  · refine ⟨(hinv.done b _ hcall hover c).trans hc, fun t' k hk heq => ?_⟩
    exact absurd heq (hover t' k hk)
  · simp only [not_forall, not_not] at hover
    obtain ⟨t', k, hk, rfl⟩ := hover
    have hcount := (hinv.running t' k _ hk hcall c).trans hc
    refine ⟨by omega, fun t'' k' hk' heq => ?_⟩
    obtain rfl := (hinv.task t' k hk).alone t'' k' hk' heq
    obtain rfl := Option.some.inj (hk.symm.trans hk')
    exact List.count_eq_zero.mp (by omega)

theorem untouched_of_run_relayed : ∃ s₁ s', relayed.step (.remove false 0) = some s₁ ∧
    Run s₁ [.broadcast false [4], .lock false, .write false 1, .unlock false] s' ∧
    sendings s' 2 0 = 0 := by
  have h' : ∃ s₁ s', relayed.step (.remove false 0) = some s₁ ∧
      Run s₁ [.broadcast false [4], .lock false, .write false 1, .unlock false] s' ∧
      s'.calls[2]? = some (.broadcast [1]) :=
    ⟨_, _, rfl, trace_iff_run.mpr (Option.some_get (by decide)).symm, rfl⟩
  obtain ⟨s₁, s', hremove, h', hcall⟩ := h'
  exact ⟨s₁, s', hremove, h',
    (untouched_of_run run_twoThreads hremove h' (by simp) (by decide) hcall).1⟩

/-! ### Progress -/

/-- A step of a call that has begun. -/
def Move.Goes : Move κ τ → Prop
  | .lock _ | .write _ _ | .fail _ | .unlock _ => True
  | _ => False

/-- How many steps a task can still take. -/
def Task.work (k : Task κ) : Nat :=
  k.todo.length * (k.frame.length + 2) -
    (k.left.map fun l => 1 + (k.frame.length - l.length)).getD 0

/-- How many steps the calls that have begun can still take. -/
def work [Fintype τ] (s : Server κ τ) : Nat := ∑ t, ((s.task t).map Task.work).getD 0

omit [LinearOrder κ] in
theorem work_lt [Fintype τ] {t : τ} {k : Task κ} {next : Option (Task κ)}
    (htask : s.task t = some k) (htask' : s'.task = Function.update s.task t next)
    (hlt : (next.map Task.work).getD 0 < k.work) : work s' < work s := by
  refine Finset.sum_lt_sum (fun t' _ => ?_) ⟨t, Finset.mem_univ t, ?_⟩
  · rw [htask', Function.update_apply]
    split
    · rename_i ht
      rw [ht, htask]
      exact hlt.le
    · exact le_rfl
  · rw [htask', Function.update_self, htask]
    exact hlt

omit [LinearOrder κ] in
theorem work_next_lt {c : κ} {k : Task κ} {todo : List κ} {left : Bytes}
    (htodo : k.todo = c :: todo) (hleft : k.left = some left) :
    (k.next.map Task.work).getD 0 < k.work := by
  have hwork : k.work = (todo.length + 1) * (k.frame.length + 2) -
      (1 + (k.frame.length - left.length)) := by
    rw [Task.work, htodo, hleft]
    rfl
  have hsucc := Nat.add_one_mul todo.length (k.frame.length + 2)
  have hnext : (k.next.map Task.work).getD 0 ≤ todo.length * (k.frame.length + 2) := by
    rw [Task.next, htodo, List.tail_cons]
    cases todo with
    | nil => exact Nat.zero_le _
    | cons c' todo => exact le_rfl
  rw [hwork]
  omega

theorem work_step [Fintype τ] (hs : Inv s) (hm : m.Goes) (h : s.step m = some s') :
    work s' < work s := by
  cases stepped_of_step h with
  | add htask => cases hm
  | remove htask => cases hm
  | send htask => cases hm
  | broadcast htask => cases hm
  | @lock t c k todo htask htodo hleft hmutex =>
    refine work_lt htask rfl ?_
    have hsucc := Nat.add_one_mul todo.length (k.frame.length + 2)
    simp only [Option.map_some, Option.getD_some, Task.work, htodo, hleft, List.length_cons,
      Option.map_none, Option.getD_none]
    omega
  | @write t n c k todo left htask htodo hleft hn hle =>
    obtain ⟨w, hw⟩ := (hs.task t k htask).left left hleft
    refine work_lt htask rfl ?_
    have hsucc := Nat.add_one_mul todo.length (k.frame.length + 2)
    have hlength : left.length ≤ k.frame.length := by
      rw [hw, List.length_append]
      exact Nat.le_add_left _ _
    simp only [Option.map_some, Option.getD_some, Task.work, htodo, hleft, List.length_cons,
      List.length_drop]
    omega
  | fail htask htodo hleft hne => exact work_lt htask rfl (work_next_lt htodo hleft)
  | unlock htask htodo hleft => exact work_lt htask rfl (work_next_lt htodo hleft)

/-- The thread that has a mutex can go on. -/
theorem exists_step_of_held {t : τ} {k : Task κ} {c : κ} {todo : List κ} {left : Bytes}
    (htask : s.task t = some k) (htodo : k.todo = c :: todo) (hleft : k.left = some left) :
    ∃ m : Move κ τ, m.Goes ∧ (s.step m).isSome := by
  obtain ⟨call, frame, todo', left'⟩ := k
  obtain rfl : todo' = c :: todo := htodo
  obtain rfl : left' = some left := hleft
  cases left with
  | nil => exact ⟨.unlock t, trivial, by simp [Server.step, htask]⟩
  | cons b left => exact ⟨.write t 1, trivial, by simp [Server.step, htask]⟩

/-- A call that has begun goes on, or the one goes on that it waits for. -/
theorem exists_step {t : τ} {k : Task κ} (hs : Inv s) (htask : s.task t = some k) :
    ∃ m : Move κ τ, m.Goes ∧ (s.step m).isSome := by
  obtain ⟨c, todo, htodo⟩ := List.exists_cons_of_ne_nil (hs.task t k htask).todo
  cases hleft : k.left with
  | some left => exact exists_step_of_held htask htodo hleft
  | none =>
    cases hmutex : s.sendMutex c with
    | some t' =>
      obtain ⟨k', todo', left, htask', htodo', hleft'⟩ := hs.mutex c t' hmutex
      exact exists_step_of_held htask' htodo' hleft'
    | none =>
      obtain ⟨call, frame, todo', left'⟩ := k
      obtain rfl : todo' = c :: todo := htodo
      obtain rfl : left' = none := hleft
      exact ⟨.lock t, trivial, by simp [Server.step, htask, hmutex]⟩

/-- **Every call comes to its end**: the calls that have begun take a bounded number of steps, and
none of them can be stuck. -/
theorem calls_end [Fintype τ] (h : Run Server.init ms s) (h' : Run s ms' s')
    (hms' : ∀ m ∈ ms', m.Goes) :
    ms'.length ≤ work s ∧
      ((∀ m : Move κ τ, m.Goes → s'.step m = none) → ∀ t, s'.task t = none) := by
  have hs := inv_of_run h
  clear h
  induction h' with
  | nil s =>
    refine ⟨Nat.zero_le _, fun hstuck t => ?_⟩
    by_contra hne
    obtain ⟨k, hk⟩ := Option.ne_none_iff_exists'.mp hne
    obtain ⟨m, hm, hsome⟩ := exists_step hs hk
    rw [hstuck m hm] at hsome
    cases hsome
  | cons hstep hrest ih =>
    rw [List.forall_mem_cons] at hms'
    obtain ⟨hlength, hend⟩ := ih hms'.2 (hs.step hstep)
    have hlt := work_step hs hms'.1 hstep
    refine ⟨?_, hend⟩
    rw [List.length_cons]
    omega

theorem calls_end_relayed : ∃ s', Run relayed [.unlock true] s' ∧
    ([.unlock true] : List (Move Nat Bool)).length ≤ work relayed := by
  have h : ∃ s', Run relayed [.unlock true] s' :=
    ⟨_, trace_iff_run.mpr (Option.some_get (by decide)).symm⟩
  obtain ⟨s', h⟩ := h
  exact ⟨s', h, (calls_end run_twoThreads h (by simp [Move.Goes])).1⟩

end CppLaravel.WebSocket.Hub
