import CppLaravel.Container.Container
import CppLaravel.Lib.Transition

/-!
# `CppLaravel.Proofs.Container.Latest`: the latest registration

`Latest.State` is a container that keeps one entry for each type: its latest registration, and what
that registration has made so far. `latest` reads it off the container, which keeps its memos apart
from the registrations. `history_latest` says that the two behave alike as long as no type is
registered as a singleton, or as scoped, while a memo of that kind is there. `stale_singleton` is a
history with such a registration.
-/

set_option autoImplicit false

namespace CppLaravel.Container

open CppLaravel.Lib

namespace Latest

/-- The latest registration of a type, and what it has made. -/
inductive Entry (T V W : Type) where
  | transient (factory : Factory T V W)
  | singleton (factory : Factory T V W) (made : Option V)
  | perScope (factory : Factory T V W) (made : Option V)
  | object (obj : V)

structure State (T V W : Type) where
  entries : T → Option (Entry T V W)
  contextual : T → T → Option (Factory T V W)
  building : List T
  world : W

section
variable {T V W : Type}

def host (make : State T V W → T → Option (Except Failure V × State T V W)) :
    Host T V W Failure (State T V W) where
  call := make
  world a := a.world
  setWorld a w := { a with world := w }
  enter a t := { a with building := a.building ++ [t] }
  leave a := { a with building := a.building.dropLast }
  fault := .thrown

/-- A new scope. -/
def Entry.forget : Entry T V W → Entry T V W
  | .perScope factory _ => .perScope factory none
  | e => e

variable [DecidableEq T]

/-- A registration: nothing of the entry before it is left. -/
def State.put (a : State T V W) (key : T) (entry : Entry T V W) : State T V W :=
  { a with entries := Function.update a.entries key (some entry) }

/-- What is made is kept in the entry. -/
def State.keep (a : State T V W) (key : T) (entry : V → Entry T V W) : Option V → State T V W
  | none => a
  | some made => a.put key (entry made)

def Entry.run (H : Host T V W Failure (State T V W)) (key : T) (a : State T V W) :
    Entry T V W → Option (Except Failure V × State T V W)
  | .transient factory => exec H factory a
  | .singleton _ (some made) => some (.ok made, a)
  | .singleton factory none =>
    (exec H factory a).map fun x =>
      (x.1, x.2.keep key (fun made => .singleton factory (some made)) x.1.toOption)
  | .perScope _ (some made) => some (.ok made, a)
  | .perScope factory none =>
    (exec H factory a).map fun x =>
      (x.1, x.2.keep key (fun made => .perScope factory (some made)) x.1.toOption)
  | .object obj => some (.ok obj, a)

variable (name : T → Bytes)

/-- The value for a type: of the override for the type under construction, or of the entry. -/
def make : Nat → State T V W → T → Option (Except Failure V × State T V W)
  | 0, _, _ => none
  | n + 1, a, key =>
    match a.building.getLast?.bind fun top => a.contextual top key with
    | some resolver => exec (host (make n)) resolver a
    | none =>
      match a.entries key with
      | none => some (.error (.unresolved (unresolved name key a.building)), a)
      | some entry => entry.run (host (make n)) key a

def step (n : Nat) (a : State T V W) : Call T V W → Option (Option V × State T V W)
  | .bind key factory => some (none, a.put key (.transient factory))
  | .singleton key factory => some (none, a.put key (.singleton factory none))
  | .perScope key factory => some (none, a.put key (.perScope factory none))
  | .object key obj => some (none, a.put key (.object obj))
  | .contextual consumer dep resolver =>
    let deps := Function.update (a.contextual consumer) dep (some resolver)
    some (none, { a with contextual := Function.update a.contextual consumer deps })
  | .forgetScoped => some (none, { a with entries := fun t => (a.entries t).map Entry.forget })
  | .resolve key => (make name n a key).map fun x => (x.1.toOption, x.2)

/-- A call that returns, with what it gives. -/
def Step (a : State T V W) (call : Call T V W × Option V) (a' : State T V W) : Prop :=
  ∃ n, step name n a call.1 = some (call.2, a')

end
end Latest

section
variable {T V W : Type}

/-- The type that a call registers. -/
def Call.registers : Call T V W → Option T
  | .bind key _ => some key
  | .singleton key _ => some key
  | .perScope key _ => some key
  | .object key _ => some key
  | _ => none

/-- A binding with the memo that it looks at. -/
def Binding.entry (c : State T V W) (key : T) : Binding T V W → Latest.Entry T V W
  | .bind factory => .transient factory
  | .singleton factory => .singleton factory (c.instances key)
  | .perScope factory => .perScope factory (c.scopedInstances key)
  | .object obj => .object obj

def entryOf (c : State T V W) (key : T) : Option (Latest.Entry T V W) :=
  (c.factories key).map (Binding.entry c key)

def latest (c : State T V W) : Latest.State T V W :=
  ⟨entryOf c, c.contextual, c.building, c.world⟩

/-- No memo of the kind that is registered is there for the type. -/
def Unstale (c : State T V W) : Call T V W → Prop
  | .singleton key _ => c.instances key = none
  | .perScope key _ => c.scopedInstances key = none
  | _ => True

/-! ### Resolution -/

/-- The container and its entries; no factory registers anything. -/
def Reads (factories : T → Option (Binding T V W)) (c : State T V W) (a : Latest.State T V W) :
    Prop :=
  c.factories = factories ∧ a = latest c

variable [DecidableEq T]

/-- A change at one type. -/
theorem entryOf_update {c c' : State T V W} {key : T} {binding : Binding T V W}
    (hfactories : c'.factories = Function.update c.factories key (some binding))
    (hinstances : ∀ t, t ≠ key → c'.instances t = c.instances t)
    (hscoped : ∀ t, t ≠ key → c'.scopedInstances t = c.scopedInstances t) :
    entryOf c' = Function.update (entryOf c) key (some (binding.entry c' key)) := by
  funext t
  by_cases ht : t = key
  · rw [ht, entryOf, hfactories, Function.update_self, Function.update_self, Option.map_some]
  · rw [entryOf, hfactories, Function.update_of_ne ht, Function.update_of_ne ht, entryOf]
    cases c.factories t with
    | none => rfl
    | some b =>
      cases b <;> simp only [Option.map_some, Binding.entry, hinstances t ht, hscoped t ht]

theorem entryOf_keepInstance {c : State T V W} {key : T} {factory : Factory T V W} (made : V)
    (h : c.factories key = some (.singleton factory)) :
    entryOf (c.keepInstance key (some made)) =
      Function.update (entryOf c) key (some (.singleton factory (some made))) := by
  have hfactories : (c.keepInstance key (some made)).factories =
      Function.update c.factories key (some (.singleton factory)) := by
    rw [← h, Function.update_eq_self]
    rfl
  rw [entryOf_update hfactories (fun t ht => Function.update_of_ne ht _ _) fun _ _ => rfl]
  simp [Binding.entry, State.keepInstance]

theorem entryOf_keepScoped {c : State T V W} {key : T} {factory : Factory T V W} (made : V)
    (h : c.factories key = some (.perScope factory)) :
    entryOf (c.keepScoped key (some made)) =
      Function.update (entryOf c) key (some (.perScope factory (some made))) := by
  have hfactories : (c.keepScoped key (some made)).factories =
      Function.update c.factories key (some (.perScope factory)) := by
    rw [← h, Function.update_eq_self]
    rfl
  rw [entryOf_update hfactories (fun _ _ => rfl) fun t ht => Function.update_of_ne ht _ _]
  simp [Binding.entry, State.keepScoped]

/-- What changes one entry and nothing else puts it. -/
theorem latest_eq_put {c c' : State T V W} {key : T} {entry : Latest.Entry T V W}
    (hentries : entryOf c' = Function.update (entryOf c) key (some entry))
    (hcontextual : c'.contextual = c.contextual) (hbuilding : c'.building = c.building)
    (hworld : c'.world = c.world) : latest c' = (latest c).put key entry := by
  rw [latest, hentries, hcontextual, hbuilding, hworld]
  rfl

variable (name : T → Bytes)

/-- The two hosts match when they do for requests. -/
theorem matches_latest {n : Nat}
    (hmake : ∀ (factories : T → Option (Binding T V W)) c a key, Reads factories c a →
      Option.Rel (Agree (Reads factories)) (makeErased name n c key) (Latest.make name n a key)) :
    Matches (host (V := V) (W := W) (makeErased name n)) (Latest.host (Latest.make name n))
      (fun factories _ => factories) (fun _ _ => True) Reads where
  world h := by rw [h.2]; rfl
  setWorld w h := ⟨h.1, by rw [h.2]; rfl⟩
  enter k h := ⟨h.1, by rw [h.2]; rfl⟩
  leave k h := ⟨h.1, by rw [h.2]; rfl⟩
  inner _ _ _ := trivial
  call k _ h := hmake _ _ _ k h

/-- A request is answered alike. -/
theorem makeErased_latest (n : Nat) (factories : T → Option (Binding T V W)) (c : State T V W)
    (a : Latest.State T V W) (key : T) (h : Reads factories c a) :
    Option.Rel (Agree (Reads factories)) (makeErased name n c key) (Latest.make name n a key) := by
  induction n generalizing factories c a key with
  | zero => exact .none
  | succ n ih =>
    obtain ⟨hfactories, rfl⟩ := h
    have hexec : ∀ factory, Option.Rel (Agree (Reads factories))
        (exec (host (makeErased name n)) factory c)
        (exec (Latest.host (Latest.make name n)) factory (latest c)) := fun factory =>
      exec_sim (matches_latest name ih) factory (fun _ _ => trivial) ⟨hfactories, rfl⟩
    have hsame : ∀ v, Option.Rel (Agree (Reads factories))
        (some ((.ok v : Except Failure V), c)) (some ((.ok v : Except Failure V), latest c)) :=
      fun v => .some ⟨rfl, hfactories, rfl⟩
    -- The list of answers is not a part of the abstract container.
    have hanswer : ∀ {x} {y : Option (Except Failure V × Latest.State T V W)},
        Option.Rel (Agree (Reads factories)) x y →
        Option.Rel (Agree (Reads factories)) (x.map (State.answer key)) y := by
      intro x y hxy
      cases hxy with
      | none => exact .none
      | some hab => exact .some ⟨hab.1, hab.2⟩
    rw [makeErased, Latest.make]
    refine hanswer ?_
    have hover : ((latest c).building.getLast?.bind fun top => (latest c).contextual top key) =
      override c key := rfl
    rw [hover]
    -- A contextual binding of the type that is being built comes first.
    cases override c key with
    | some resolver => exact hexec resolver
    | none =>
      have hentry : (latest c).entries key = entryOf c key := rfl
      rw [hentry, entryOf]
      cases hkey : c.factories key with
      | none => exact .some ⟨rfl, hfactories, rfl⟩
      | some binding =>
        cases binding with
        | bind factory => exact hexec factory
        | object obj => exact hsame obj
        | singleton factory =>
          -- The abstract entry holds the factory together with what it has made.
          simp only [Option.map_some, Binding.entry, Binding.run]
          cases c.instances key with
          | some made => exact hsame made
          | none =>
            simp only [Latest.Entry.run]
            refine agree_map (f := fun c => c.keepInstance key)
              (g := fun a => a.keep key fun made => .singleton factory (some made)) (hexec factory)
              fun c' a' r hread => ?_
            obtain ⟨hc', rfl⟩ := hread
            cases r with
            | none => exact ⟨hc', rfl⟩
            | some v =>
              -- The binding is the one that was looked up, so the entry is that of the key.
              have hkey' : c'.factories key = some (.singleton factory) := by
                rw [hc', ← hfactories, hkey]
              exact ⟨hc', (latest_eq_put (entryOf_keepInstance v hkey') rfl rfl rfl).symm⟩
        | perScope factory =>
          simp only [Option.map_some, Binding.entry, Binding.run]
          cases c.scopedInstances key with
          | some made => exact hsame made
          | none =>
            simp only [Latest.Entry.run]
            refine agree_map (f := fun c => c.keepScoped key)
              (g := fun a => a.keep key fun made => .perScope factory (some made)) (hexec factory)
              fun c' a' r hread => ?_
            obtain ⟨hc', rfl⟩ := hread
            cases r with
            | none => exact ⟨hc', rfl⟩
            | some v =>
              have hkey' : c'.factories key = some (.perScope factory) := by
                rw [hc', ← hfactories, hkey]
              exact ⟨hc', (latest_eq_put (entryOf_keepScoped v hkey') rfl rfl rfl).symm⟩

/-! ### Calls -/

/-- A call from a state without a memo of the kind that it registers. -/
theorem step_latest {n : Nat} {c c' : State T V W} {call : Call T V W} {r : Option V}
    (hunstale : Unstale c call) (h : step name n c call = some (r, c')) :
    Latest.step name n (latest c) call = some (r, latest c') := by
  -- The entry of a registration has no memo.
  have hput : ∀ {c' : State T V W} {key : T} {b : Binding T V W},
      c'.factories = Function.update c.factories key (some b) →
      (∀ t, t ≠ key → c'.instances t = c.instances t) →
      c'.scopedInstances = c.scopedInstances → c'.contextual = c.contextual →
      c'.building = c.building → c'.world = c.world →
      latest c' = (latest c).put key (b.entry c' key) :=
    fun hfactories hinstances hscoped hcontextual hbuilding hworld =>
      latest_eq_put (entryOf_update hfactories hinstances fun t _ => congrFun hscoped t)
        hcontextual hbuilding hworld
  cases call with
  | bind key factory =>
    cases h
    have hlatest : latest (bindErased c key factory) = (latest c).put key (.transient factory) :=
      hput (b := .bind factory) rfl (fun _ _ => rfl) rfl rfl rfl rfl
    rw [hlatest]
    rfl
  | singleton key factory =>
    cases h
    have hlatest : latest (singletonErased c key factory) =
        (latest c).put key (.singleton factory (c.instances key)) :=
      hput (b := .singleton factory) rfl (fun _ _ => rfl) rfl rfl rfl rfl
    rw [hlatest, show c.instances key = none from hunstale]
    rfl
  | perScope key factory =>
    cases h
    have hlatest : latest (scopedErased c key factory) =
        (latest c).put key (.perScope factory (c.scopedInstances key)) :=
      hput (b := .perScope factory) rfl (fun _ _ => rfl) rfl rfl rfl rfl
    rw [hlatest, show c.scopedInstances key = none from hunstale]
    rfl
  | object key obj =>
    cases h
    have hlatest : latest (instanceErased c key obj) = (latest c).put key (.object obj) :=
      hput (b := .object obj) rfl (fun t ht => Function.update_of_ne ht _ _) rfl rfl rfl rfl
    rw [hlatest]
    rfl
  | contextual consumer dep resolver =>
    cases h
    rfl
  | forgetScoped =>
    cases h
    have hentries :
        (fun t => (entryOf c t).map Latest.Entry.forget) = entryOf (forgetScoped c) := by
      funext t
      show (entryOf c t).map Latest.Entry.forget =
        (c.factories t).map (Binding.entry (forgetScoped c) t)
      rw [entryOf]
      cases c.factories t with
      | none => rfl
      | some binding => cases binding <;> rfl
    show some (none, ({ latest c with entries := fun t => (entryOf c t).map Latest.Entry.forget } :
      Latest.State T V W)) = _
    rw [hentries]
    rfl
  | resolve key =>
    obtain ⟨⟨r', c''⟩, hmake, hr⟩ := Option.map_eq_some_iff.mp h
    cases hr
    have hrel := makeErased_latest name n _ c _ key ⟨rfl, rfl⟩
    rw [hmake] at hrel
    obtain ⟨y, hy, hagree⟩ : ∃ y, Latest.make name n (latest c) key = some y ∧
        Agree (Reads c.factories) (r', c'') y := by
      cases hmake' : Latest.make name n (latest c) key with
      | none => rw [hmake'] at hrel; cases hrel
      | some y => rw [hmake'] at hrel; cases hrel; exact ⟨y, rfl, by assumption⟩
    show (Latest.make name n (latest c) key).map _ = _
    rw [hy, Option.map_some, ← hagree.1, hagree.2.2]

/-- The entry of a registration replaces the one before it, with what that made. -/
theorem Latest.step_registers (n : Nat) (a : Latest.State T V W) {call : Call T V W} {key : T}
    (h : call.registers = some key) (entry : Latest.Entry T V W) :
    Latest.step name n (a.put key entry) call = Latest.step name n a call := by
  cases call <;> cases h <;>
    simp only [Latest.step, Latest.State.put, Function.update_idem]

/-- A history in which no singleton is registered for a type with a memo in `instances_`, and none
as scoped for one in `scoped_`, is a history of the container that knows each type by its latest
registration alone; and there a registration replaces what the ones before it made. -/
theorem history_latest :
    (∀ (c c' : State T V W) (history : List (Call T V W × Option V)),
      Trace (Guarded (fun c a => Unstale c a.1) (Step name)) c history c' →
      Trace (Latest.Step name) (latest c) history (latest c')) ∧
    ∀ (n : Nat) (a : Latest.State T V W) (call : Call T V W) (key : T)
      (entry : Latest.Entry T V W), call.registers = some key →
      Latest.step name n (a.put key entry) call = Latest.step name n a call := by
  constructor
  · intro c c' history h
    have hsim : ∀ (c : State T V W) (a : Latest.State T V W) (call : Call T V W × Option V)
        (c' : State T V W), a = latest c →
        Guarded (fun c a => Unstale c a.1) (Step name) c call c' →
        ∃ a', Latest.Step name a call a' ∧ a' = latest c' := by
      rintro c _ ⟨call, r⟩ c' rfl ⟨hunstale, n, hstep⟩
      exact ⟨latest c', ⟨n, step_latest name hunstale hstep⟩, rfl⟩
    obtain ⟨a', htrace, rfl⟩ := h.simulate hsim rfl
    exact htrace
  · intro n a call key entry h
    exact Latest.step_registers name n a h entry

end

/-- A singleton, resolved and then bound as a transient. -/
theorem history_latest_applies : ∃ c' : State Unit Nat Unit,
    Trace (Latest.Step fun _ => []) (latest (State.empty ()))
      [(.singleton () (.done 1), none), (.resolve (), some 1), (.bind () (.done 2), none),
        (.resolve (), some 2)] (latest c') := by
  have htrace : ∃ c' : State Unit Nat Unit,
      Trace (Guarded (fun c a => Unstale c a.1) (Step fun _ => [])) (State.empty ())
        [(.singleton () (.done 1), none), (.resolve (), some 1), (.bind () (.done 2), none),
          (.resolve (), some 2)] c' :=
    ⟨_, .cons ⟨rfl, 1, rfl⟩ (.cons ⟨trivial, 1, rfl⟩ (.cons ⟨trivial, 1, rfl⟩
      (.cons ⟨trivial, 1, rfl⟩ (.nil _))))⟩
  obtain ⟨c', h⟩ := htrace
  exact ⟨c', (history_latest fun _ => []).1 _ _ _ h⟩

/-- A singleton that was resolved and is registered again gives the object of the first. -/
theorem stale_singleton :
    (∃ c' : State Unit Nat Unit, Trace (Step fun _ => []) (State.empty ())
      [(.singleton () (.done 1), none), (.resolve (), some 1), (.singleton () (.done 2), none),
        (.resolve (), some 1)] c') ∧
    ¬ ∃ a' : Latest.State Unit Nat Unit, Trace (Latest.Step fun _ => []) (latest (State.empty ()))
      [(.singleton () (.done 1), none), (.resolve (), some 1), (.singleton () (.done 2), none),
        (.resolve (), some 1)] a' := by
  constructor
  · exact ⟨_, .cons ⟨1, rfl⟩ (.cons ⟨1, rfl⟩ (.cons ⟨1, rfl⟩ (.cons ⟨1, rfl⟩ (.nil _))))⟩
  · rintro ⟨a', h⟩
    obtain _ | ⟨⟨_, h₁⟩, h⟩ := h
    cases h₁
    obtain _ | ⟨⟨n, h₂⟩, h⟩ := h
    obtain _ | n := n
    · cases h₂
    cases h₂
    obtain _ | ⟨⟨_, h₃⟩, h⟩ := h
    cases h₃
    obtain _ | ⟨⟨n, h₄⟩, h⟩ := h
    obtain _ | n := n
    · cases h₄
    · cases h₄

end CppLaravel.Container
