import CppLaravel.Migrations.Migrator

/-!
# `CppLaravel.Proofs.Migrations.History`: what the migrator should do

A name is applied when the last call for it was `up`. A run calls `up` for the names that are not
applied, in their order, and a rollback calls `down` for those that are, in the reverse order.
`alternates_expected` is that, over every history, the calls for a name alternate and start with
`up`.
-/

set_option autoImplicit false

namespace CppLaravel.Migrations

/-- The name of the migration that was called. -/
def Event.name : Event → Bytes
  | up name => name
  | down name => name

def Event.isUp : Event → Bool
  | up _ => true
  | down _ => false

/-- The calls for one name. -/
def callsFor (name : Bytes) (log : List Event) : List Event := log.filter fun e => e.name = name

/-- A name is applied when the last call for it was `up`. -/
def isApplied (log : List Event) (name : Bytes) : Bool :=
  (callsFor name log).getLast?.any Event.isUp

/-- What a run should call. -/
def expectedUps (log : List Event) (names : List Bytes) : List Event :=
  (names.filter fun n => !isApplied log n).map .up

/-- What a rollback should call. -/
def expectedDowns (log : List Event) (names : List Bytes) : List Event :=
  (names.reverse.filter fun n => isApplied log n).map .down

/-- A call that is left of a migration list: the names. -/
inductive Request where
  | run (names : List Bytes)
  | rollback (names : List Bytes)

def Request.names : Request → List Bytes
  | run names => names
  | rollback names => names

/-- The calls of `up` and `down` after one more request. -/
def expected (log : List Event) : Request → List Event
  | .run names => log ++ expectedUps log names
  | .rollback names => log ++ expectedDowns log names

/-- Every rollback of a history meets, of the names that are applied, only those of a kind. -/
def ForgetsOnly (P : Bytes → Prop) : List Event → List Request → Prop
  | _, [] => True
  | log, r :: rs =>
    (∀ names, r = .rollback names → ∀ n ∈ names, isApplied log n = true → P n) ∧
      ForgetsOnly P (expected log r) rs

/-- `up`, `down`, `up` and so on. -/
def Alternates (events : List Event) : Prop :=
  ∀ (i : Nat) (e : Event), events[i]? = some e → (e.isUp = true ↔ i % 2 = 0)

theorem callsFor_append (name : Bytes) (log log' : List Event) :
    callsFor name (log ++ log') = callsFor name log ++ callsFor name log' := List.filter_append ..

/-- The calls of one name among those for a part of names that differ. -/
theorem callsFor_map_filter {names : List Bytes} (h : names.Nodup) (name : Bytes)
    {event : Bytes → Event} (hevent : ∀ n, (event n).name = n) (p : Bytes → Bool) :
    callsFor name ((names.filter p).map event) =
      if name ∈ names ∧ p name = true then [event name] else [] := by
  have hname : (fun e : Event => decide (e.name = name)) ∘ event = fun n => decide (n = name) := by
    funext n
    rw [Function.comp_apply, hevent]
  rw [callsFor, List.filter_map, hname, List.filter_eq, (h.filter p).count]
  simp only [List.mem_filter]
  split <;> rfl

/-- What a run adds to the calls for a name. -/
theorem callsFor_run (log : List Event) {names : List Bytes} (h : names.Nodup) (name : Bytes) :
    callsFor name (expected log (.run names)) = callsFor name log ++
      if name ∈ names ∧ isApplied log name = false then [.up name] else [] := by
  rw [expected, callsFor_append, expectedUps, callsFor_map_filter h name fun _ => rfl]
  simp only [Bool.not_eq_true']

/-- What a rollback adds. -/
theorem callsFor_rollback (log : List Event) {names : List Bytes} (h : names.Nodup)
    (name : Bytes) : callsFor name (expected log (.rollback names)) = callsFor name log ++
      if name ∈ names ∧ isApplied log name = true then [.down name] else [] := by
  rw [expected, callsFor_append, expectedDowns,
    callsFor_map_filter (List.nodup_reverse.mpr h) name fun _ => rfl]
  simp only [List.mem_reverse]

theorem isApplied_of_callsFor_append {log log' : List Event} {name : Bytes} {e : Event}
    (h : callsFor name log' = callsFor name log ++ [e]) : isApplied log' name = e.isUp := by
  rw [isApplied, h, List.getLast?_concat]
  rfl

theorem isApplied_congr {log log' : List Event} {name : Bytes}
    (h : callsFor name log' = callsFor name log) : isApplied log' name = isApplied log name := by
  rw [isApplied, h, isApplied]

/-- After a run its names are applied. -/
theorem isApplied_run (log : List Event) {names : List Bytes} (h : names.Nodup) (name : Bytes) :
    isApplied (expected log (.run names)) name = (decide (name ∈ names) || isApplied log name) := by
  have hcalls := callsFor_run log h name
  split at hcalls
  · rename_i hnew
    rw [isApplied_of_callsFor_append hcalls, decide_eq_true hnew.1]
    rfl
  · rename_i hold
    rw [isApplied_congr (hcalls.trans (List.append_nil _))]
    cases happlied : isApplied log name with
    | true => rw [Bool.or_true]
    | false => simpa [happlied] using hold

/-- After a rollback its names are not applied. -/
theorem isApplied_rollback (log : List Event) {names : List Bytes} (h : names.Nodup)
    (name : Bytes) : isApplied (expected log (.rollback names)) name =
      (!decide (name ∈ names) && isApplied log name) := by
  have hcalls := callsFor_rollback log h name
  split at hcalls
  · rename_i hold
    rw [isApplied_of_callsFor_append hcalls, decide_eq_true hold.1]
    rfl
  · rename_i hnew
    rw [isApplied_congr (hcalls.trans (List.append_nil _))]
    cases happlied : isApplied log name with
    | true => simpa [happlied] using hnew
    | false => rw [Bool.and_false]

/-! ### One name at a time -/

theorem isApplied_concat (log : List Event) (e : Event) (n : Bytes) :
    isApplied (log ++ [e]) n = if e.name = n then e.isUp else isApplied log n := by
  by_cases h : e.name = n
  · have hcalls : callsFor n (log ++ [e]) = callsFor n log ++ [e] := by
      rw [callsFor_append]
      simp [callsFor, h]
    rw [if_pos h, isApplied_of_callsFor_append hcalls]
  · have hcalls : callsFor n (log ++ [e]) = callsFor n log := by
      rw [callsFor_append]
      simp [callsFor, h]
    rw [if_neg h, isApplied_congr hcalls]

/-- A call for another name changes nothing. -/
theorem filter_isApplied_concat (log : List Event) {e : Event} {names : List Bytes}
    (h : e.name ∉ names) (f : Bool → Bool) :
    (names.filter fun n => f (isApplied (log ++ [e]) n)) =
      names.filter fun n => f (isApplied log n) := by
  refine List.filter_congr fun n hn => ?_
  have hne : e.name ≠ n := fun heq => h (heq ▸ hn)
  rw [isApplied_concat, if_neg hne]

section
variable {log : List Event} {n : Bytes} {names : List Bytes}

theorem expected_run_cons_of_isApplied (h : isApplied log n = true) :
    expected log (.run (n :: names)) = expected log (.run names) := by
  rw [expected, expectedUps, List.filter_cons, h]
  rfl

theorem expected_run_cons (h : isApplied log n = false) (hn : n ∉ names) :
    expected log (.run (n :: names)) = expected (log ++ [.up n]) (.run names) := by
  rw [expected, expectedUps, List.filter_cons, h, expected, expectedUps,
    filter_isApplied_concat log hn (!·), List.append_assoc]
  rfl

theorem expected_rollback_concat_of_not_isApplied (h : isApplied log n = false) :
    expected log (.rollback (names ++ [n])) = expected log (.rollback names) := by
  rw [expected, expectedDowns, List.reverse_concat, List.filter_cons, h]
  rfl

theorem expected_rollback_concat (h : isApplied log n = true) (hn : n ∉ names) :
    expected log (.rollback (names ++ [n])) = expected (log ++ [.down n]) (.rollback names) := by
  have hn' : (Event.down n).name ∉ names.reverse := fun hmem => hn (List.mem_reverse.mp hmem)
  have hrest : (names.reverse.filter fun n' => isApplied (log ++ [.down n]) n') =
    names.reverse.filter fun n' => isApplied log n' := filter_isApplied_concat log hn' id
  rw [expected, expectedDowns, List.reverse_concat, List.filter_cons, h, expected, expectedDowns,
    hrest, List.append_assoc]
  rfl

end

/-! ### Alternation -/

theorem Alternates.concat {events : List Event} (h : Alternates events) {e : Event}
    (he : e.isUp = true ↔ events.length % 2 = 0) : Alternates (events ++ [e]) := by
  intro i e' hi
  rw [List.getElem?_append] at hi
  split at hi
  · exact h i e' hi
  · rename_i hlt
    rw [List.getElem?_singleton] at hi
    split at hi
    · have hlen : i = events.length := by omega
      rw [← Option.some.inj hi, hlen]
      exact he
    · cases hi

/-- Calls that alternate, of which the last is `up` when their number is odd. -/
def Balanced (events : List Event) : Prop :=
  Alternates events ∧ (events.getLast?.any Event.isUp = true ↔ events.length % 2 = 1)

theorem balanced_nil : Balanced [] := by
  refine ⟨fun i e h => ?_, by simp⟩
  rw [List.getElem?_nil] at h
  cases h

theorem Balanced.concat {events : List Event} (h : Balanced events) {e : Event}
    (he : events.getLast?.any Event.isUp = !e.isUp) : Balanced (events ++ [e]) := by
  have hparity : e.isUp = true ↔ events.length % 2 = 0 := by
    have hlast := h.2
    rw [he] at hlast
    cases hup : e.isUp <;> simp [hup] at hlast ⊢ <;> omega
  refine ⟨h.1.concat hparity, ?_⟩
  rw [List.getLast?_concat, List.length_append, List.length_singleton]
  show e.isUp = true ↔ _
  rw [hparity]
  omega

theorem balanced_expected {name : Bytes} {log : List Event} {request : Request}
    (h : request.names.Nodup) (hlog : Balanced (callsFor name log)) :
    Balanced (callsFor name (expected log request)) := by
  cases request with
  | run names =>
    have hnames : names.Nodup := h
    rw [callsFor_run log hnames]
    split
    · rename_i hnew
      exact hlog.concat hnew.2
    · rw [List.append_nil]
      exact hlog
  | rollback names =>
    have hnames : names.Nodup := h
    rw [callsFor_rollback log hnames]
    split
    · rename_i hold
      exact hlog.concat hold.2
    · rw [List.append_nil]
      exact hlog

/-- Over every history the calls for a name alternate, starting with `up`. -/
theorem alternates_expected {requests : List Request} (h : ∀ r ∈ requests, r.names.Nodup)
    (name : Bytes) : Alternates (callsFor name (requests.foldl expected [])) := by
  suffices hbalanced : ∀ log, Balanced (callsFor name log) →
      Balanced (callsFor name (requests.foldl expected log)) from (hbalanced [] balanced_nil).1
  induction requests with
  | nil => exact fun log hlog => hlog
  | cons request requests ih =>
    obtain ⟨hrequest, hrequests⟩ := List.forall_mem_cons.mp h
    exact fun log hlog => ih hrequests _ (balanced_expected hrequest hlog)

end CppLaravel.Migrations
