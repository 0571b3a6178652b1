import Mathlib.Data.Fintype.Order
import Mathlib.Logic.Relation
import Mathlib.Order.WellFoundedSet
import CppLaravel.Container.Container
import CppLaravel.Lib.Transition

/-!
# `CppLaravel.Proofs.Container.Autowire`: what autowired services construct

A `Service` is a call of `bind_auto`, `singleton_auto` or `scoped_auto`, with a constructor that
may throw. The world keeps a record of the objects that were constructed, with what their
constructors got. `Grows` says what a part of a run adds to the record and to the answers:

* for a singleton, and for a scoped type between two calls of `forget_scoped`, an object only if
  there was none, and then it is the memo;
* for a transient, an object for each value that was given;
* every dependency that was passed is the memo, where its type has one.

`makeErased_spec` proves it of one request, by induction on the depth, and `resolveAll_spec` of the
dependencies of one constructor. Acyclicity comes in twice: a type is not constructed while its own
dependencies are, and every request returns.
-/

set_option autoImplicit false

namespace CppLaravel.Container

open CppLaravel.Lib

inductive Kind where
  | transient
  | singleton
  | perScope
deriving DecidableEq

/-- An object that was constructed, with what the constructor got. -/
structure Built (T V : Type) where
  type : T
  args : List V
  obj : V
deriving DecidableEq

/-- The world, with a record of what was constructed. -/
structure Record (T V W : Type) where
  world : W
  built : List (Built T V)

/-- An autowired type: the constructor gives an object or throws. -/
structure Service (T V W : Type) where
  kind : Kind
  deps : List T
  construct : List V → W → Option V × W

section
variable {T V W : Type}

/-- `std::make_shared<T>(...)`, recorded. -/
def Service.make (s : Service T V W) (t : T) (args : List V) : Factory T V (Record T V W) :=
  .act
    (fun w =>
      let (r, w') := s.construct args w.world
      ⟨w', w.built ++ r.toList.map fun obj => ⟨t, args, obj⟩⟩)
    (fun w =>
      match (s.construct args w.world).1 with
      | some obj => .done obj
      | none => .fail)

/-- What is stored for a service. -/
def Service.binding (s : Service T V W) (t : T) : Binding T V (Record T V W) :=
  match s.kind with
  | .transient => .bind (auto t s.deps (s.make t))
  | .singleton => .singleton (auto t s.deps (s.make t))
  | .perScope => .perScope (auto t s.deps (s.make t))

/-! ### What a run adds -/

/-- The objects of a type. -/
def objs [DecidableEq T] (t : T) (built : List (Built T V)) : List V :=
  (built.filter fun e => e.type = t).map Built.obj

/-- The values that were given for a type. -/
def given [DecidableEq T] (t : T) (answers : List (T × Option V)) : List V :=
  answers.filterMap fun a => if a.1 = t then a.2 else none

variable (services : T → Option (Service T V W))

def IsKind (t : T) (kind : Kind) : Prop := (services t).map Service.kind = some kind

/-- `d` is a dependency of `t`. -/
def DependsOn (d t : T) : Prop := ∃ s, services t = some s ∧ d ∈ s.deps

/-- The memos, and what was constructed and answered so far. -/
structure Ledger (T V : Type) where
  instances : T → Option V
  inScope : T → Option V
  built : List (Built T V)
  answers : List (T × Option V)

def ledger (c : State T V (Record T V W)) : Ledger T V :=
  ⟨c.instances, c.scopedInstances, c.world.built, c.answers⟩

/-- The value is the memo for its type, where there is one. -/
structure Served (l : Ledger T V) (t : T) (v : V) : Prop where
  singleton : IsKind services t .singleton → l.instances t = some v
  perScope : IsKind services t .perScope → l.inScope t = some v

/-- Memos are only where they belong. -/
structure Tidy (l : Ledger T V) : Prop where
  instances : ∀ t, ¬ IsKind services t .singleton → l.instances t = none
  inScope : ∀ t, ¬ IsKind services t .perScope → l.inScope t = none

/-- A container of these services, without rules. -/
structure Wired (c : State T V (Record T V W)) : Prop where
  factories : ∀ t, c.factories t = (services t).map fun s => s.binding t
  contextual : ∀ a d, c.contextual a d = none
  tidy : Tidy services (ledger c)

variable [DecidableEq T]

/-- Between two calls of `forget_scoped`: the objects `new` are constructed and the answers `ans`
are given. -/
structure Grows (l : Ledger T V) (new : List (Built T V)) (ans : List (T × Option V))
    (l' : Ledger T V) : Prop where
  built : l'.built = l.built ++ new
  answers : l'.answers = l.answers ++ ans
  singleton : ∀ t, IsKind services t .singleton →
    (l.instances t).toList ++ objs t new = (l'.instances t).toList
  perScope : ∀ t, IsKind services t .perScope →
    (l.inScope t).toList ++ objs t new = (l'.inScope t).toList
  transient : ∀ t, IsKind services t .transient → objs t new = given t ans
  args : ∀ e ∈ new, ∃ s, services e.type = some s ∧
    List.Forall₂ (Served services l') s.deps e.args
  values : ∀ t v, (t, some v) ∈ ans → Served services l' t v

theorem objs_append (t : T) (l l' : List (Built T V)) :
    objs t (l ++ l') = objs t l ++ objs t l' := by
  rw [objs, List.filter_append, List.map_append, objs, objs]

theorem given_append (t : T) (l l' : List (T × Option V)) :
    given t (l ++ l') = given t l ++ given t l' := List.filterMap_append

theorem objs_singleton (t : T) (e : Built T V) :
    objs t [e] = if e.type = t then [e.obj] else [] := by
  by_cases h : e.type = t <;> simp [objs, h]

theorem given_singleton (t u : T) (r : Option V) :
    given t [(u, r)] = if u = t then r.toList else [] := by
  by_cases h : u = t <;> cases r <;> simp [given, h]

theorem objs_eq_nil {t : T} {l : List (Built T V)} (h : ∀ e ∈ l, e.type ≠ t) : objs t l = [] := by
  rw [objs, List.map_eq_nil_iff, List.filter_eq_nil_iff]
  intro e he
  simpa using h e he

variable {services}

/-! ### Parts of a run -/

theorem eq_some_of_append {o : Option V} {v : V} {l : List V} (h : [v] ++ l = o.toList) :
    o = some v := by
  cases o with
  | none => cases h
  | some w =>
    cases h
    rfl

/-- A memo stays. -/
theorem Grows.served {l l' : Ledger T V} {new : List (Built T V)} {ans : List (T × Option V)}
    (h : Grows services l new ans l') {t : T} {v : V} (hv : Served services l t v) :
    Served services l' t v where
  singleton hkind := by
    have heq := h.singleton t hkind
    rw [hv.singleton hkind] at heq
    exact eq_some_of_append heq
  perScope hkind := by
    have heq := h.perScope t hkind
    rw [hv.perScope hkind] at heq
    exact eq_some_of_append heq

theorem Grows.refl (l : Ledger T V) : Grows services l [] [] l where
  built := (List.append_nil _).symm
  answers := (List.append_nil _).symm
  singleton _ _ := List.append_nil _
  perScope _ _ := List.append_nil _
  transient _ _ := rfl
  args _ h := absurd h List.not_mem_nil
  values _ _ h := absurd h List.not_mem_nil

theorem Grows.trans {l l₁ l₂ : Ledger T V} {new new' : List (Built T V)}
    {ans ans' : List (T × Option V)} (h : Grows services l new ans l₁)
    (h' : Grows services l₁ new' ans' l₂) : Grows services l (new ++ new') (ans ++ ans') l₂ where
  built := by rw [h'.built, h.built, List.append_assoc]
  answers := by rw [h'.answers, h.answers, List.append_assoc]
  singleton t ht := by
    rw [objs_append, ← List.append_assoc, h.singleton t ht, h'.singleton t ht]
  perScope t ht := by
    rw [objs_append, ← List.append_assoc, h.perScope t ht, h'.perScope t ht]
  transient t ht := by
    rw [objs_append, given_append, h.transient t ht, h'.transient t ht]
  args e he := by
    rcases List.mem_append.mp he with he | he
    · obtain ⟨s, hs, hargs⟩ := h.args e he
      exact ⟨s, hs, hargs.imp fun _ _ => h'.served⟩
    · exact h'.args e he
  values t v hv := by
    rcases List.mem_append.mp hv with hv | hv
    · exact h'.served (h.values t v hv)
    · exact h'.values t v hv

/-- An answer without a construction: a failure, or a memo. -/
theorem Grows.answer {l : Ledger T V} {t : T} {r : Option V}
    (hserved : ∀ v, r = some v → Served services l t v ∧ ¬ IsKind services t .transient) :
    Grows services l [] [(t, r)] { l with answers := l.answers ++ [(t, r)] } where
  built := (List.append_nil _).symm
  answers := rfl
  singleton _ _ := List.append_nil _
  perScope _ _ := List.append_nil _
  transient u hu := by
    rw [given_singleton]
    split
    · rename_i htu
      cases r with
      | none => rfl
      | some v => exact absurd (htu ▸ hu) (hserved v rfl).2
    · rfl
  args _ h := absurd h List.not_mem_nil
  values u v hv := by
    cases List.mem_singleton.mp hv
    obtain ⟨hsingleton, hscope⟩ := (hserved v rfl).1
    exact ⟨hsingleton, hscope⟩

omit [DecidableEq T] in
theorem isKind_iff {t : T} {s : Service T V W} (hs : services t = some s) {kind : Kind} :
    IsKind services t kind ↔ s.kind = kind := by
  rw [IsKind, hs, Option.map_some, Option.some_inj]

/-- What a construction does to the ledger. -/
structure Makes (l : Ledger T V) (t : T) (kind : Kind) (args : List V) (obj : V)
    (l' : Ledger T V) : Prop where
  built : l'.built = l.built ++ [⟨t, args, obj⟩]
  answers : l'.answers = l.answers ++ [(t, some obj)]
  instances : ∀ u, l'.instances u =
    if u = t ∧ kind = .singleton then some obj else l.instances u
  inScope : ∀ u, l'.inScope u = if u = t ∧ kind = .perScope then some obj else l.inScope u

/-- A construction: there was no memo, and the dependencies that were passed are memos. -/
theorem Grows.made {l l' : Ledger T V} {t : T} {s : Service T V W} {args : List V} {obj : V}
    (hs : services t = some s) (hmakes : Makes l t s.kind args obj l')
    (hargs : List.Forall₂ (Served services l) s.deps args)
    (hinstance : s.kind = .singleton → l.instances t = none)
    (hscope : s.kind = .perScope → l.inScope t = none) :
    Grows services l [⟨t, args, obj⟩] [(t, some obj)] l' where
  built := hmakes.built
  answers := hmakes.answers
  singleton u hu := by
    rw [hmakes.instances, objs_singleton]
    by_cases hut : u = t
    · subst hut
      have hkind := (isKind_iff hs).mp hu
      rw [if_pos rfl, if_pos ⟨rfl, hkind⟩, hinstance hkind]
      rfl
    · rw [if_neg (Ne.symm hut), if_neg fun h => hut h.1, List.append_nil]
  perScope u hu := by
    rw [hmakes.inScope, objs_singleton]
    by_cases hut : u = t
    · subst hut
      have hkind := (isKind_iff hs).mp hu
      rw [if_pos rfl, if_pos ⟨rfl, hkind⟩, hscope hkind]
      rfl
    · rw [if_neg (Ne.symm hut), if_neg fun h => hut h.1, List.append_nil]
  -- A type without a memo: every object of it was made for one answer.
  transient u _ := by
    rw [objs_singleton, given_singleton]
    rfl
  args e he := by
    cases List.mem_singleton.mp he
    refine ⟨s, hs, hargs.imp fun d v hd => ⟨fun hkind => ?_, fun hkind => ?_⟩⟩
    · -- A memo that is there is not the one that is made.
      rw [hmakes.instances, if_neg, hd.singleton hkind]
      rintro ⟨rfl, hsingleton⟩
      have hnone := hd.singleton hkind
      rw [hinstance hsingleton] at hnone
      cases hnone
    · rw [hmakes.inScope, if_neg, hd.perScope hkind]
      rintro ⟨rfl, hscoped⟩
      have hnone := hd.perScope hkind
      rw [hscope hscoped] at hnone
      cases hnone
  -- What is answered is what has just been kept.
  values u v hv := by
    cases List.mem_singleton.mp hv
    refine ⟨fun hkind => ?_, fun hkind => ?_⟩
    · rw [hmakes.instances, if_pos ⟨rfl, (isKind_iff hs).mp hkind⟩]
    · rw [hmakes.inScope, if_pos ⟨rfl, (isKind_iff hs).mp hkind⟩]

theorem Tidy.made {l l' : Ledger T V} {t : T} {s : Service T V W} {args : List V} {obj : V}
    (htidy : Tidy services l) (hs : services t = some s) (hmakes : Makes l t s.kind args obj l') :
    Tidy services l' where
  instances u hu := by
    rw [hmakes.instances, if_neg, htidy.instances u hu]
    rintro ⟨rfl, hkind⟩
    exact hu ((isKind_iff hs).mpr hkind)
  inScope u hu := by
    rw [hmakes.inScope, if_neg, htidy.inScope u hu]
    rintro ⟨rfl, hkind⟩
    exact hu ((isKind_iff hs).mpr hkind)

/-! ### Requests -/

/-- No type depends on itself. -/
def Acyclic (services : T → Option (Service T V W)) : Prop :=
  ∀ t, ¬ Relation.TransGen (DependsOn services) t t

/-- `t` is `u` or a dependency of `u`, of a dependency of it, and so on. -/
abbrev Below (services : T → Option (Service T V W)) (t u : T) : Prop :=
  Relation.ReflTransGen (DependsOn services) t u

/-- There is no memo for the type. -/
def Unmade (l : Ledger T V) (t : T) : Prop := l.instances t = none ∧ l.inScope t = none

/-- One request: `r` is the value, if there is one. -/
structure Requested (services : T → Option (Service T V W)) (c : State T V (Record T V W)) (t : T)
    (r : Option V) (new : List (Built T V)) (ans : List (T × Option V))
    (c' : State T V (Record T V W)) : Prop where
  wired : Wired services c'
  building : c'.building = c.building
  grows : Grows services (ledger c) new ans (ledger c')
  below : ∀ e ∈ new, Below services e.type t
  answered : ∃ before, ans = before ++ [(t, r)]
  failed : ∀ u, (u, none) ∈ ans → r = none ∧ Unmade (ledger c') u

/-- The requests for the dependencies of a constructor, up to the first that fails. -/
structure RequestedAll (services : T → Option (Service T V W)) (c : State T V (Record T V W))
    (ts : List T) (r : Option (List V)) (new : List (Built T V)) (ans : List (T × Option V))
    (c' : State T V (Record T V W)) : Prop where
  wired : Wired services c'
  building : c'.building = c.building
  grows : Grows services (ledger c) new ans (ledger c')
  below : ∀ e ∈ new, ∃ t ∈ ts, Below services e.type t
  served : ∀ vs, r = some vs → List.Forall₂ (Served services (ledger c')) ts vs
  failed : ∀ u, (u, none) ∈ ans → r = none ∧ Unmade (ledger c') u

/-- The dependencies, by the list that is left. -/
theorem resolveAll_spec {make : State T V (Record T V W) → T →
      Option (Except Failure V × State T V (Record T V W))}
    (hmake : ∀ c t r c', Wired services c → make c t = some (r, c') →
      ∃ new ans, Requested services c t r.toOption new ans c')
    (ts : List T) {next : List V → Factory T V (Record T V W)} {c : State T V (Record T V W)}
    {x : Except Failure V × State T V (Record T V W)} (hwired : Wired services c)
    (h : exec (host make) (resolveAll ts next) c = some x) :
    ∃ r new ans c', RequestedAll services c ts r new ans c' ∧
      match r with
      | some vs => exec (host make) (next vs) c' = some x
      | none => x.1.toOption = none ∧ x.2 = c' := by
  induction ts generalizing next c with
  | nil =>
    refine ⟨some [], [], [], c, ⟨hwired, rfl, Grows.refl _, ?_, ?_, ?_⟩, h⟩
    · exact fun e he => absurd he List.not_mem_nil
    · rintro vs ⟨⟩
      exact .nil
    · exact fun u hu => absurd hu List.not_mem_nil
  | cons t ts ih =>
    rw [resolveAll, exec] at h
    obtain ⟨⟨r, c₁⟩, hcall, h⟩ := Option.bind_eq_some_iff.mp h
    obtain ⟨new, ans, hone⟩ := hmake c t r c₁ hwired hcall
    cases r with
    | error e =>
      -- The exception of a dependency leaves with the state as that request left it.
      cases h
      refine ⟨none, new, ans, c₁, ⟨hone.wired, hone.building, hone.grows, ?_, ?_, ?_⟩, rfl, rfl⟩
      · exact fun e he => ⟨t, List.mem_cons_self, hone.below e he⟩
      · rintro vs ⟨⟩
      · exact fun u hu => ⟨rfl, (hone.failed u hu).2⟩
    | ok v =>
      obtain ⟨r', new', ans', c₂, hall, hrest⟩ := ih hone.wired h
      refine ⟨r'.map (v :: ·), new ++ new', ans ++ ans', c₂, ⟨hall.wired, ?_, ?_, ?_, ?_, ?_⟩, ?_⟩
      · exact hall.building.trans hone.building
      · exact hone.grows.trans hall.grows
      · intro e he
        rcases List.mem_append.mp he with he | he
        · exact ⟨t, List.mem_cons_self, hone.below e he⟩
        · obtain ⟨t', ht', hbelow⟩ := hall.below e he
          exact ⟨t', List.mem_cons_of_mem _ ht', hbelow⟩
      · -- A memo stays through the requests that follow, so the first argument is still served.
        intro vs hvs
        obtain ⟨vs', rfl, rfl⟩ := Option.map_eq_some_iff.mp hvs
        obtain ⟨before, rfl⟩ := hone.answered
        have hv := hone.grows.values t v (List.mem_append_right _ (List.mem_singleton_self _))
        exact .cons (hall.grows.served hv) (hall.served vs' rfl)
      · intro u hu
        rcases List.mem_append.mp hu with hu | hu
        · cases (hone.failed u hu).1
        · rw [(hall.failed u hu).1]
          exact ⟨rfl, (hall.failed u hu).2⟩
      · cases r' with
        | none => exact hrest
        | some vs => exact hrest

/-- The factory of a service, run: `r` is the object, if one is constructed. -/
structure Assembled (services : T → Option (Service T V W)) (c : State T V (Record T V W)) (t : T)
    (s : Service T V W) (r : Option V) (new : List (Built T V)) (ans : List (T × Option V))
    (l : Ledger T V) (c' : State T V (Record T V W)) : Prop where
  factories : c'.factories = c.factories
  contextual : c'.contextual = c.contextual
  building : c'.building = c.building
  grows : Grows services (ledger c) new ans l
  tidy : Tidy services l
  below : ∀ e ∈ new, e.type ≠ t ∧ Below services e.type t
  failed : ∀ u, (u, none) ∈ ans → r = none ∧ Unmade l u
  none : r = none → ledger c' = l
  some : ∀ obj, r = some obj → ∃ args, List.Forall₂ (Served services l) s.deps args ∧
    ledger c' = { l with built := l.built ++ [⟨t, args, obj⟩] }

theorem auto_spec {make : State T V (Record T V W) → T →
      Option (Except Failure V × State T V (Record T V W))}
    (hmake : ∀ c t r c', Wired services c → make c t = some (r, c') →
      ∃ new ans, Requested services c t r.toOption new ans c')
    (hacyclic : Acyclic services) {t : T} {s : Service T V W} (hs : services t = some s)
    {c : State T V (Record T V W)} {r : Except Failure V} {c' : State T V (Record T V W)}
    (hwired : Wired services c)
    (h : exec (host make) (auto t s.deps (s.make t)) c = some (r, c')) :
    ∃ new ans l, Assembled services c t s r.toOption new ans l c' := by
  rw [auto, exec] at h
  obtain ⟨x, hx, h⟩ := Option.map_eq_some_iff.mp h
  have hpush : Wired services (pushBuilding c t) :=
    ⟨hwired.factories, hwired.contextual, hwired.tidy⟩
  obtain ⟨vs, new, ans, c₁, hall, hrest⟩ := resolveAll_spec hmake s.deps hpush hx
  -- What the dependencies made lies below `t`, and a type is not below itself.
  have hbelow : ∀ e ∈ new, e.type ≠ t ∧ Below services e.type t := by
    intro e he
    obtain ⟨d, hd, hle⟩ := hall.below e he
    have hlt : Relation.TransGen (DependsOn services) e.type t := .tail' hle ⟨s, hs, hd⟩
    exact ⟨fun heq => hacyclic t (heq ▸ hlt), hlt.to_reflTransGen⟩
  have hbuilding : c₁.building.dropLast = c.building := by
    rw [hall.building]
    exact List.dropLast_concat
  have hfactories : c₁.factories = c.factories := by
    funext u
    rw [hall.wired.factories, hwired.factories]
  have hcontextual : c₁.contextual = c.contextual := by
    funext a d
    rw [hall.wired.contextual, hwired.contextual]
  cases vs with
  -- A dependency failed: nothing is constructed.
  | none =>
    obtain ⟨hnone, hstate⟩ := hrest
    cases h
    refine ⟨new, ans, ledger c₁, ?_, ?_, ?_, hall.grows, hall.wired.tidy, hbelow, ?_, ?_, ?_⟩
    · exact hstate ▸ hfactories
    · exact hstate ▸ hcontextual
    · exact hstate ▸ hbuilding
    · exact fun u hu => ⟨hnone, (hall.failed u hu).2⟩
    · exact fun _ => congrArg (fun c => ledger (popBuilding c)) hstate
    · intro obj hobj
      rw [hnone] at hobj
      cases hobj
  | some vs =>
    have hrest : exec (host make) (s.make t vs) c₁ = some x := hrest
    rw [Service.make, exec] at hrest
    have hno : ∀ u, (u, none) ∉ ans := fun u hu => by cases (hall.failed u hu).1
    -- The dependencies are there; the constructor may still throw.
    cases hconstruct : s.construct vs c₁.world.world with
    | mk made w =>
    have hworld : (host make).world c₁ = c₁.world := rfl
    simp only [hworld, hconstruct] at hrest
    cases made with
    | none =>
      cases hrest
      cases h
      refine ⟨new, ans, ledger c₁, hfactories, hcontextual, hbuilding, hall.grows, hall.wired.tidy,
        hbelow, fun u hu => absurd hu (hno u), fun _ => ?_, ?_⟩
      · show Ledger.mk _ _ (c₁.world.built ++ []) _ = _
        rw [List.append_nil]
        rfl
      · rintro obj ⟨⟩
    | some obj =>
      cases hrest
      cases h
      refine ⟨new, ans, ledger c₁, hfactories, hcontextual, hbuilding, hall.grows, hall.wired.tidy,
        hbelow, fun u hu => absurd hu (hno u), ?_, ?_⟩
      · rintro ⟨⟩
      · rintro _ ⟨⟩
        exact ⟨vs, hall.served vs rfl, rfl⟩

/-- While the dependencies of a type are made, it gets no memo. -/
theorem Grows.unmade {l l' : Ledger T V} {new : List (Built T V)} {ans : List (T × Option V)}
    (h : Grows services l new ans l') (htidy : Tidy services l') {t : T}
    (hnew : ∀ e ∈ new, e.type ≠ t) (ht : Unmade l t) : Unmade l' t := by
  constructor
  · by_cases hkind : IsKind services t .singleton
    · have heq := h.singleton t hkind
      rw [ht.1, objs_eq_nil hnew] at heq
      exact Option.toList_eq_nil_iff.mp heq.symm
    · exact htidy.instances t hkind
  · by_cases hkind : IsKind services t .perScope
    · have heq := h.perScope t hkind
      rw [ht.2, objs_eq_nil hnew] at heq
      exact Option.toList_eq_nil_iff.mp heq.symm
    · exact htidy.inScope t hkind

/-- A request that runs the factory: `d` is the state after the memo and the answer. -/
theorem requested_of_assembled {c c' d : State T V (Record T V W)} {t : T} {s : Service T V W}
    {r : Option V} {new : List (Built T V)} {ans : List (T × Option V)} {l : Ledger T V}
    (hwired : Wired services c) (hs : services t = some s) (hunmade : Unmade (ledger c) t)
    (h : Assembled services c t s r new ans l c')
    (hrest : (d.factories = c'.factories ∧ d.contextual = c'.contextual) ∧
      d.building = c'.building)
    (hnone : r = none → ledger d = { l with answers := l.answers ++ [(t, none)] })
    (hsome : ∀ args obj, r = some obj →
      ledger c' = { l with built := l.built ++ [⟨t, args, obj⟩] } →
      Makes l t s.kind args obj (ledger d)) :
    ∃ new ans, Requested services c t r new ans d := by
  obtain ⟨⟨hfactories, hcontextual⟩, hbuilding⟩ := hrest
  -- The dependencies are of other types, so there is no memo of `t` yet.
  have hunmade' : Unmade l t := h.grows.unmade h.tidy (fun e he => (h.below e he).1) hunmade
  have hwired' : Tidy services (ledger d) → Wired services d := fun htidy =>
    ⟨by rw [hfactories, h.factories]; exact hwired.factories,
      by rw [hcontextual, h.contextual]; exact hwired.contextual, htidy⟩
  cases r with
  | none =>
    -- A failed request leaves an answer, and no object.
    have hd := hnone rfl
    refine ⟨new ++ [], ans ++ [(t, none)], ?_, hbuilding.trans h.building, ?_, ?_, ⟨ans, rfl⟩, ?_⟩
    · exact hwired' (by rw [hd]; exact ⟨h.tidy.instances, h.tidy.inScope⟩)
    · rw [hd]
      exact h.grows.trans (.answer fun v hv => by cases hv)
    · rw [List.append_nil]
      exact fun e he => (h.below e he).2
    · intro u hu
      refine ⟨rfl, ?_⟩
      rw [hd]
      rcases List.mem_append.mp hu with hu | hu
      · exact (h.failed u hu).2
      · cases List.mem_singleton.mp hu
        exact hunmade'
  | some obj =>
    -- The object comes behind those of its dependencies.
    obtain ⟨args, hargs, hledger⟩ := h.some obj rfl
    have hmakes := hsome args obj rfl hledger
    refine ⟨new ++ [⟨t, args, obj⟩], ans ++ [(t, some obj)], ?_, hbuilding.trans h.building, ?_, ?_,
      ⟨ans, rfl⟩, ?_⟩
    · exact hwired' (h.tidy.made hs hmakes)
    · exact h.grows.trans (.made hs hmakes hargs (fun _ => hunmade'.1) fun _ => hunmade'.2)
    · intro e he
      rcases List.mem_append.mp he with he | he
      · exact (h.below e he).2
      · cases List.mem_singleton.mp he
        exact .refl
    · intro u hu
      rcases List.mem_append.mp hu with hu | hu
      · cases (h.failed u hu).1
      · cases List.mem_singleton.mp hu

/-- A request that the memo answers. -/
theorem requested_of_memo {c d : State T V (Record T V W)} {t : T} {v : V}
    (hwired : Wired services c) (hserved : Served services (ledger c) t v)
    (hkind : ¬ IsKind services t .transient)
    (hd : d = { c with answers := c.answers ++ [(t, some v)] }) :
    ∃ new ans, Requested services c t (some v) new ans d := by
  subst hd
  refine ⟨[], [(t, some v)], ⟨hwired.factories, hwired.contextual, ?_⟩, rfl, ?_, ?_, ⟨[], rfl⟩, ?_⟩
  · exact ⟨hwired.tidy.instances, hwired.tidy.inScope⟩
  · refine Grows.answer (l := ledger c) ?_
    rintro _ ⟨⟩
    exact ⟨hserved, hkind⟩
  · exact fun e he => absurd he List.not_mem_nil
  · intro u hu
    cases List.mem_singleton.mp hu

/-- A request for a type that no service has. -/
theorem requested_of_unbound {c d : State T V (Record T V W)} {t : T} (hwired : Wired services c)
    (hs : services t = none) (hd : d = { c with answers := c.answers ++ [(t, none)] }) :
    Requested services c t none [] [(t, none)] d := by
  subst hd
  have hno : ∀ kind, ¬ IsKind services t kind := by
    intro kind hkind
    rw [IsKind, hs] at hkind
    cases hkind
  refine ⟨⟨hwired.factories, hwired.contextual, ?_⟩, rfl, ?_, ?_, ⟨[], rfl⟩, ?_⟩
  · exact ⟨hwired.tidy.instances, hwired.tidy.inScope⟩
  · exact Grows.answer (l := ledger c) fun v hv => by cases hv
  · exact fun e he => absurd he List.not_mem_nil
  · intro u hu
    cases List.mem_singleton.mp hu
    exact ⟨rfl, hwired.tidy.instances t (hno _), hwired.tidy.inScope t (hno _)⟩

omit [DecidableEq T] in
theorem ledger_answer (t : T) (x : Except Failure V × State T V (Record T V W)) :
    ledger (State.answer t x).2 =
      { ledger x.2 with answers := (ledger x.2).answers ++ [(t, x.1.toOption)] } := rfl

theorem ledger_keepInstance (c : State T V (Record T V W)) (t : T) (obj : V) :
    ledger (c.keepInstance t (some obj)) =
      { ledger c with instances := Function.update (ledger c).instances t (some obj) } := rfl

theorem ledger_keepScoped (c : State T V (Record T V W)) (t : T) (obj : V) :
    ledger (c.keepScoped t (some obj)) =
      { ledger c with inScope := Function.update (ledger c).inScope t (some obj) } := rfl

variable (name : T → Bytes)

/-- One request. -/
theorem makeErased_spec (hacyclic : Acyclic services) (n : Nat) {c : State T V (Record T V W)}
    {t : T} {r : Except Failure V} {c' : State T V (Record T V W)} (hwired : Wired services c)
    (h : makeErased name n c t = some (r, c')) :
    ∃ new ans, Requested services c t r.toOption new ans c' := by
  induction n generalizing c t r c' with
  | zero => cases h
  | succ n ih =>
    rw [makeErased] at h
    obtain ⟨⟨r', d⟩, hx, hanswer⟩ := Option.map_eq_some_iff.mp h
    obtain rfl : r' = r := congrArg Prod.fst hanswer
    obtain rfl : (State.answer t (r', d)).2 = c' := congrArg Prod.snd hanswer
    -- No contextual binding is registered, so the type's own binding is run.
    have hover : override c t = none := by
      rw [override]
      cases c.building.getLast? with
      | none => rfl
      | some top => exact hwired.contextual top t
    rw [hover] at hx
    simp only [hwired.factories t] at hx
    have hspec : ∀ c t r c', Wired services c → makeErased name n c t = some (r, c') →
        ∃ new ans, Requested services c t r.toOption new ans c' :=
      fun c t r c' hwired h => ih hwired h
    have hkindOf : ∀ {s kind}, services t = some s → s.kind ≠ kind → ¬ IsKind services t kind :=
      fun hs hne hkind => hne ((isKind_iff hs).mp hkind)
    cases hs : services t with
    | none =>
      rw [hs] at hx
      cases hx
      exact ⟨[], [(t, none)], requested_of_unbound hwired hs rfl⟩
    | some s =>
      rw [hs, Option.map_some, Service.binding] at hx
      -- A transient is constructed anew; the two others first look at their memo.
      cases hkind : s.kind with
      | transient =>
        simp only [hkind, Binding.run] at hx
        obtain ⟨new, ans, l, hassembled⟩ := auto_spec hspec hacyclic hs hwired hx
        have hunmade : Unmade (ledger c) t :=
          ⟨hwired.tidy.instances t (hkindOf hs (by simp [hkind])),
            hwired.tidy.inScope t (hkindOf hs (by simp [hkind]))⟩
        refine requested_of_assembled hwired hs hunmade hassembled ⟨⟨rfl, rfl⟩, rfl⟩ ?_ ?_
        · intro hr
          rw [ledger_answer, hassembled.none hr, hr]
        · intro args obj hr hl
          rw [ledger_answer, hl, hr]
          exact ⟨rfl, rfl, fun u => by simp [hkind], fun u => by simp [hkind]⟩
      | singleton =>
        simp only [hkind, Binding.run] at hx
        have hscope : c.scopedInstances t = none :=
          hwired.tidy.inScope t (hkindOf hs (by simp [hkind]))
        cases hmemo : c.instances t with
        | some v =>
          rw [hmemo] at hx
          cases hx
          refine requested_of_memo hwired ⟨fun _ => hmemo, fun hk => ?_⟩
            (hkindOf hs (by simp [hkind])) rfl
          exact absurd hk (hkindOf hs (by simp [hkind]))
        | none =>
          rw [hmemo] at hx
          obtain ⟨⟨r, c'⟩, hexec, hkeep⟩ := Option.map_eq_some_iff.mp hx
          obtain rfl : r = r' := congrArg Prod.fst hkeep
          obtain rfl : c'.keepInstance t r.toOption = d := congrArg Prod.snd hkeep
          obtain ⟨new, ans, l, hassembled⟩ := auto_spec hspec hacyclic hs hwired hexec
          refine requested_of_assembled hwired hs ⟨hmemo, hscope⟩ hassembled ?_ ?_ ?_
          · cases r.toOption <;> exact ⟨⟨rfl, rfl⟩, rfl⟩
          · intro hr
            rw [ledger_answer, hr, State.keepInstance, hassembled.none hr]
          · intro args obj hr hl
            rw [ledger_answer, hr, ledger_keepInstance, hl]
            exact ⟨rfl, rfl, fun u => by simp [hkind, Function.update_apply],
              fun u => by simp [hkind]⟩
      | perScope =>
        simp only [hkind, Binding.run] at hx
        have hinstance : c.instances t = none :=
          hwired.tidy.instances t (hkindOf hs (by simp [hkind]))
        cases hmemo : c.scopedInstances t with
        | some v =>
          rw [hmemo] at hx
          cases hx
          refine requested_of_memo hwired ⟨fun hk => ?_, fun _ => hmemo⟩
            (hkindOf hs (by simp [hkind])) rfl
          exact absurd hk (hkindOf hs (by simp [hkind]))
        | none =>
          rw [hmemo] at hx
          obtain ⟨⟨r, c'⟩, hexec, hkeep⟩ := Option.map_eq_some_iff.mp hx
          obtain rfl : r = r' := congrArg Prod.fst hkeep
          obtain rfl : c'.keepScoped t r.toOption = d := congrArg Prod.snd hkeep
          obtain ⟨new, ans, l, hassembled⟩ := auto_spec hspec hacyclic hs hwired hexec
          refine requested_of_assembled hwired hs ⟨hinstance, hmemo⟩ hassembled ?_ ?_ ?_
          · cases r.toOption <;> exact ⟨⟨rfl, rfl⟩, rfl⟩
          · intro hr
            rw [ledger_answer, hr, State.keepScoped, hassembled.none hr]
          · intro args obj hr hl
            rw [ledger_answer, hr, ledger_keepScoped, hl]
            exact ⟨rfl, rfl, fun u => by simp [hkind],
              fun u => by simp [hkind, Function.update_apply]⟩

end

end CppLaravel.Container
