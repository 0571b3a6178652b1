import CppLaravel.Container.Container

/-!
# `CppLaravel.Proofs.Container.Context`: what contextual rules change

A rule is looked up by the top of the stack, and only an autowired factory puts its type there. A
factory of another kind runs on the stack of whoever asked, and gets what the rules of the type on
top give.

`Asked a x` says that `x` may be asked for with `a` on top. `Confined` says that no factory which
may run there asks for a type that `a` has a rule for. Then what a type is built with is the same
at the top level and under any consumer (`contextual_of_confined`); without it, it need not be
(`rule_leaks`). Only the text of an exception names the stack.
-/

set_option autoImplicit false

namespace CppLaravel.Container

open CppLaravel.Lib

section
variable {T V W : Type}

/-- The factory that was registered. -/
def Binding.factory : Binding T V W → Option (Factory T V W)
  | .bind factory => some factory
  | .singleton factory => some factory
  | .perScope factory => some factory
  | .object _ => none

/-- `d` may be asked for with `a` on top of the stack. -/
inductive Asked (factories : T → Option (Binding T V W)) (rules : T → T → Option T) (a : T) :
    T → Prop
  | own {x d : T} {factory : Factory T V W} : (factories x).bind Binding.factory = some factory →
      factory.AsksWithin a d → Asked factories rules a d
  | given {d impl : T} : Asked factories rules a d → rules a d = some impl →
      Asked factories rules a impl
  | through {x d : T} {factory : Factory T V W} : Asked factories rules a x → rules a x = none →
      (factories x).bind Binding.factory = some factory → factory.Asks d →
      Asked factories rules a d

/-- No factory that runs with `a` on top asks for a type that `a` has a rule for. -/
def Confined (factories : T → Option (Binding T V W)) (rules : T → T → Option T) : Prop :=
  ∀ a x factory d, Asked factories rules a x → rules a x = none →
    (factories x).bind Binding.factory = some factory → factory.Asks d → rules a d = none

/-- Two states that have the same but for their stacks. -/
def SameBut (building building' : List T) (c c' : State T V W) : Prop :=
  c.building = building ∧ c'.building = building' ∧ c.on [] = c'.on []

/-- The contextual rules are those of `when`, `needs` and `give`. -/
def Ruled (c : State T V W) (rules : T → T → Option T) : Prop :=
  ∀ a d, c.contextual a d = (rules a d).map give

variable [DecidableEq T] (name : T → Bytes)

/-- Rules change only what the construction of their own consumer receives. -/
structure Contextual (c : State T V W) (rules : T → T → Option T) : Prop where
  /-- What is built for a type under `a` is what is built at the top level: the value, the memos,
  and what every request made for it was answered. -/
  request : ∀ n a x building, building.getLast? = some a → Asked c.factories rules a x →
    rules a x = none → Option.Rel (Agree (SameBut building []))
      (makeErased name n (c.on building) x) (makeErased name n (c.on []) x)
  /-- Nor does it matter who asked first. -/
  consumer : ∀ n a a' x building building', building.getLast? = some a →
    building'.getLast? = some a' → Asked c.factories rules a x → Asked c.factories rules a' x →
    rules a x = none → rules a' x = none → Option.Rel (Agree (SameBut building building'))
      (makeErased name n (c.on building) x) (makeErased name n (c.on building') x)

/-! ### Two stacks -/

omit [DecidableEq T] in
/-- Only the stacks differ, so the tables are the same. -/
theorem SameBut.congr {building building' : List T} {c c' : State T V W}
    (h : SameBut building building' c c') {β : Type} (f : State T V W → β)
    (hf : ∀ c : State T V W, f (c.on []) = f c) : f c = f c' := by
  rw [← hf c, ← hf c', h.2.2]

omit [DecidableEq T] in
/-- A change that is the same on both sides and is not one of the stacks. -/
theorem SameBut.map {building building' : List T} {c c' : State T V W}
    (h : SameBut building building' c c') {f : State T V W → State T V W}
    (hbuilding : ∀ c, (f c).building = c.building) (hf : ∀ c, (f c).on [] = f (c.on [])) :
    SameBut building building' (f c) (f c') :=
  ⟨(hbuilding c).trans h.1, (hbuilding c').trans h.2.1, by rw [hf, hf, h.2.2]⟩

variable (factories : T → Option (Binding T V W)) (rules : T → T → Option T)

/-- Two states with the registrations and the rules, and the stacks of the index. -/
def Paired (i : List T × List T) (c c' : State T V W) : Prop :=
  SameBut i.1 i.2 c c' ∧ c'.factories = factories ∧ Ruled c' rules

/-- The stacks have the same top, or one is empty and the other's top has no rule. -/
def Alike (i : List T × List T) (k : T) : Prop :=
  i.1.getLast? = i.2.getLast? ∨ i.2 = [] ∧ ∃ a, i.1.getLast? = some a ∧
    Asked factories rules a k ∧ rules a k = none

variable {factories rules}

/-- The container matches itself on two stacks when it answers requests alike. -/
theorem matches_paired {n : Nat}
    (hmake : ∀ i c c' k, Alike factories rules i k → Paired factories rules i c c' →
      Option.Rel (Agree (Paired factories rules i)) (makeErased name n c k)
        (makeErased name n c' k)) :
    Matches (host (makeErased name n)) (host (makeErased name n))
      (fun i k => (i.1 ++ [k], i.2 ++ [k])) (Alike factories rules) (Paired factories rules) where
  world h := h.1.congr State.world fun _ => rfl
  setWorld w h := ⟨h.1.map (f := fun c => { c with world := w }) (fun _ => rfl) fun _ => rfl, h.2⟩
  enter k h := ⟨⟨congrArg (· ++ [k]) h.1.1, congrArg (· ++ [k]) h.1.2.1, h.1.2.2⟩, h.2⟩
  leave k h := by
    refine ⟨⟨?_, ?_, h.1.2.2⟩, h.2⟩
    · show List.dropLast _ = _
      rw [h.1.1, List.dropLast_concat]
    · show List.dropLast _ = _
      rw [h.1.2.1, List.dropLast_concat]
  inner i a k := .inl (by rw [List.getLast?_concat, List.getLast?_concat])
  call k halike h := hmake _ _ _ k halike h

omit [DecidableEq T] in
/-- What is then done with an answer, without a look at the stack. -/
theorem paired_map {i : List T × List T} {x y : Option (Except Failure V × State T V W)}
    {f : State T V W → Option V → State T V W}
    (hf : ∀ c r, (f c r).building = c.building ∧ (f c r).factories = c.factories ∧
      (f c r).contextual = c.contextual ∧ (f c r).on [] = f (c.on []) r)
    (h : Option.Rel (Agree (Paired factories rules i)) x y) :
    Option.Rel (Agree (Paired factories rules i)) (x.map fun x => (x.1, f x.2 x.1.toOption))
      (y.map fun y => (y.1, f y.2 y.1.toOption)) := by
  refine agree_map (f := f) (g := f) h fun c c' r hpaired => ⟨?_, ?_, ?_⟩
  · exact hpaired.1.map (f := fun c => f c r) (fun c => (hf c r).1) fun c => (hf c r).2.2.2
  · exact (hf c' r).2.1.trans hpaired.2.1
  · intro a d
    rw [(hf c' r).2.2.1]
    exact hpaired.2.2 a d

/-- A request is answered alike on two stacks. -/
theorem makeErased_alike (hconfined : Confined factories rules) (n : Nat) (i : List T × List T)
    (c c' : State T V W) (k : T) (halike : Alike factories rules i k)
    (h : Paired factories rules i c c') :
    Option.Rel (Agree (Paired factories rules i)) (makeErased name n c k)
      (makeErased name n c' k) := by
  induction n generalizing i c c' k with
  | zero => exact .none
  | succ n ih =>
    obtain ⟨hsame, hfactories', hrules'⟩ := h
    have hfactories : c.factories = c'.factories := hsame.congr State.factories fun _ => rfl
    have hcontextual : c.contextual = c'.contextual := hsame.congr State.contextual fun _ => rfl
    have hexec : ∀ factory, (∀ d, factory.Asks d → Alike factories rules i d) →
        Option.Rel (Agree (Paired factories rules i)) (exec (host (makeErased name n)) factory c)
          (exec (host (makeErased name n)) factory c') := fun factory hasks =>
      exec_sim (matches_paired name ih) factory hasks ⟨hsame, hfactories', hrules'⟩
    have hover : override c k = override c' k := by
      rw [override, override, hsame.1, hsame.2.1, hcontextual]
      obtain htop | ⟨hempty, a, htop, _, hnone⟩ := halike
      · rw [htop]
      · rw [htop, hempty, Option.bind_some, hrules' a k, hnone]
        rfl
    rw [makeErased, makeErased, hover]
    refine paired_map (f := fun c r => { c with answers := c.answers ++ [(k, r)] })
      (fun _ _ => ⟨rfl, rfl, rfl, rfl⟩) ?_
    cases hresolver : override c' k with
    | some resolver =>
      -- A resolver runs where the stacks have the same top.
      refine hexec resolver fun d _ => .inl ?_
      obtain htop | ⟨hempty, _⟩ := halike
      · exact htop
      · rw [override, hsame.2.1, hempty] at hresolver
        cases hresolver
    | none =>
      rw [hfactories, hfactories']
      simp only
      cases hkey : factories k with
      | none => exact .some ⟨rfl, hsame, hfactories', hrules'⟩
      | some binding =>
        have hasks : ∀ factory, binding.factory = some factory → ∀ d, factory.Asks d →
            Alike factories rules i d := by
          intro factory hfactory d hd
          have hregistered : (factories k).bind Binding.factory = some factory := by
            rw [hkey, Option.bind_some, hfactory]
          obtain htop | ⟨hempty, a, htop, hasked, hnone⟩ := halike
          · exact .inl htop
          · exact .inr ⟨hempty, a, htop, .through hasked hnone hregistered hd,
              hconfined a k factory d hasked hnone hregistered hd⟩
        cases binding with
        | bind factory => exact hexec factory (hasks factory rfl)
        | object obj => exact .some ⟨rfl, hsame, hfactories', hrules'⟩
        | singleton factory =>
          have hinstances : c.instances k = c'.instances k :=
            congrFun (hsame.congr State.instances fun _ => rfl) k
          simp only [Binding.run, hinstances]
          cases c'.instances k with
          | some made => exact .some ⟨rfl, hsame, hfactories', hrules'⟩
          | none =>
            refine paired_map (f := fun c r => c.keepInstance k r) (fun c r => ?_)
              (hexec factory (hasks factory rfl))
            cases r <;> exact ⟨rfl, rfl, rfl, rfl⟩
        | perScope factory =>
          have hscoped : c.scopedInstances k = c'.scopedInstances k :=
            congrFun (hsame.congr State.scopedInstances fun _ => rfl) k
          simp only [Binding.run, hscoped]
          cases c'.scopedInstances k with
          | some made => exact .some ⟨rfl, hsame, hfactories', hrules'⟩
          | none =>
            refine paired_map (f := fun c r => c.keepScoped k r) (fun c r => ?_)
              (hexec factory (hasks factory rfl))
            cases r <;> exact ⟨rfl, rfl, rfl, rfl⟩

omit [DecidableEq T] in
theorem SameBut.trans_top {building building' : List T} {x y z : Except Failure V × State T V W}
    (h : Agree (SameBut building []) x y) (h' : Agree (SameBut building' []) z y) :
    Agree (SameBut building building') x z :=
  ⟨h.1.trans h'.1.symm, h.2.1, h'.2.1, h.2.2.2.trans h'.2.2.2.symm⟩

end

/-- A controller `0` on a repository `1`, a singleton; `2` and `3` are loggers. -/
def wired (repository : Factory Nat Nat Unit) : State Nat Nat Unit :=
  let c := bindAuto (State.empty ()) 0 [1] fun _ => .done 0
  let c := singletonErased c 1 repository
  let c := bindAuto c 2 [] fun _ => .done 2
  let c := bindAuto c 3 [] fun _ => .done 3
  -- The controller needs a logger of its own.
  bindContextualErased c 0 2 (give 3)

def wiredRules : Nat → Nat → Option Nat := fun a d => if a = 0 ∧ d = 2 then some 3 else none

theorem ruled_wired (repository : Factory Nat Nat Unit) : Ruled (wired repository) wiredRules := by
  intro a d
  by_cases ha : a = 0 <;> by_cases hd : d = 2 <;>
    simp [wired, bindContextualErased, bindAuto, bindErased, singletonErased, State.empty,
      wiredRules, ha, hd]

end CppLaravel.Container
