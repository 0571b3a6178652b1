import CppLaravel.Proofs.Container.Autowire

/-!
# `CppLaravel.Proofs.Container.Lifetimes`: how often autowired types are constructed

The services of a list are registered, then types are resolved and scopes forgotten in any order.
`lifetimes` says for every such run, over acyclic services, what `Grows` says of one request: a
singleton is constructed at most once, a scoped type at most once in a scope, and whoever depends
on it gets that object; a transient is constructed once for each value that is given; and a request
that fails leaves the stack as it was and no memo for a type whose construction failed.

`makeErased_returns` is that every request returns: with enough depth it has a result, and more
depth gives the same one (`makeErased_mono`).
-/

set_option autoImplicit false

namespace CppLaravel.Container

open CppLaravel.Lib

section
variable {T V W : Type} [DecidableEq T] (name : T → Bytes)

/-- More depth gives no other result. -/
theorem makeErased_mono {n m : Nat} (hle : n ≤ m) {c : State T V W} {t : T}
    {x : Except Failure V × State T V W} (h : makeErased name n c t = some x) :
    makeErased name m c t = some x := by
  induction n generalizing m c t x with
  | zero => cases h
  | succ n ih =>
    obtain _ | m := m
    · cases hle
    -- A factory resolves one level down, where more depth gives no other result.
    have hexec : ∀ {factory : Factory T V W} {c : State T V W} {x},
        exec (host (makeErased name n)) factory c = some x →
        exec (host (makeErased name m)) factory c = some x := fun h =>
      exec_mono (H := host (makeErased name n))
        (fun c t x => ih (Nat.le_of_succ_le_succ hle)) _ h
    rw [makeErased] at h ⊢
    obtain ⟨y, hy, rfl⟩ := Option.map_eq_some_iff.mp h
    refine Option.map_eq_some_iff.mpr ⟨y, ?_, rfl⟩
    -- What is run does not depend on the depth, only its requests do.
    cases hover : override c t with
    | some resolver =>
      rw [hover] at hy
      exact hexec hy
    | none =>
      rw [hover] at hy
      cases hbinding : c.factories t with
      | none =>
        rw [hbinding] at hy
        exact hy
      | some binding =>
        rw [hbinding] at hy
        cases binding with
        | bind factory => exact hexec hy
        | object obj => exact hy
        | singleton factory =>
          simp only [Binding.run] at hy ⊢
          cases hmemo : c.instances t with
          | some v =>
            rw [hmemo] at hy
            exact hy
          | none =>
            rw [hmemo] at hy
            obtain ⟨z, hz, rfl⟩ := Option.map_eq_some_iff.mp hy
            exact Option.map_eq_some_iff.mpr ⟨z, hexec hz, rfl⟩
        | perScope factory =>
          simp only [Binding.run] at hy ⊢
          cases hmemo : c.scopedInstances t with
          | some v =>
            rw [hmemo] at hy
            exact hy
          | none =>
            rw [hmemo] at hy
            obtain ⟨z, hz, rfl⟩ := Option.map_eq_some_iff.mp hy
            exact Option.map_eq_some_iff.mpr ⟨z, hexec hz, rfl⟩

end

section
variable {T V W : Type} [DecidableEq T] {services : T → Option (Service T V W)}

/-! ### Every request returns -/

omit [DecidableEq T] in
/-- The requests for dependencies return, and so does what comes after them. -/
theorem resolveAll_returns {make : State T V (Record T V W) → T →
      Option (Except Failure V × State T V (Record T V W))} {ts : List T}
    {next : List V → Factory T V (Record T V W)} {c : State T V (Record T V W)}
    (hmake : ∀ t ∈ ts, ∀ c, Wired services c →
      ∃ x, make c t = some x ∧ Wired services x.2)
    (hnext : ∀ vs c, ∃ x, exec (host make) (next vs) c = some x) (hwired : Wired services c) :
    ∃ x, exec (host make) (resolveAll ts next) c = some x := by
  induction ts generalizing next c with
  | nil => exact hnext [] c
  | cons t ts ih =>
    obtain ⟨hfirst, hrest⟩ := List.forall_mem_cons.mp hmake
    obtain ⟨⟨r, c'⟩, hcall, hwired'⟩ := hfirst c hwired
    rw [resolveAll, exec]
    have hcall : (host make).call c t = some (r, c') := hcall
    rw [hcall, Option.bind_some]
    cases r with
    | error e => exact ⟨_, rfl⟩
    | ok v => exact ih hrest (fun vs c => hnext (v :: vs) c) hwired'

omit [DecidableEq T] in
/-- The factory of a service. -/
theorem auto_returns {make : State T V (Record T V W) → T →
      Option (Except Failure V × State T V (Record T V W))} {t : T} (s : Service T V W)
    {c : State T V (Record T V W)}
    (hmake : ∀ t ∈ s.deps, ∀ c, Wired services c →
      ∃ x, make c t = some x ∧ Wired services x.2) (hwired : Wired services c) :
    ∃ x, exec (host make) (auto t s.deps (s.make t)) c = some x := by
  have hpush : Wired services (pushBuilding c t) :=
    ⟨hwired.factories, hwired.contextual, hwired.tidy⟩
  have hnext : ∀ vs c, ∃ x, exec (host make) (s.make t vs) c = some x := by
    intro vs c
    rw [Service.make, exec]
    cases (s.construct vs ((host make).world c).world).1 <;> exact ⟨_, rfl⟩
  obtain ⟨x, hx⟩ := resolveAll_returns hmake hnext hpush
  rw [auto, exec]
  exact ⟨_, Option.map_eq_some_iff.mpr ⟨x, hx, rfl⟩⟩

variable (name : T → Bytes)

/-- One depth for all the dependencies of a type. -/
theorem exists_depth {ts : List T} (hacyclic : Acyclic services)
    (h : ∀ t ∈ ts, ∃ n, ∀ c, Wired services c → ∃ x, makeErased name n c t = some x) :
    ∃ n, ∀ t ∈ ts, ∀ c, Wired services c →
      ∃ x, makeErased name n c t = some x ∧ Wired services x.2 := by
  induction ts with
  | nil => exact ⟨0, fun t ht => absurd ht List.not_mem_nil⟩
  | cons t ts ih =>
    obtain ⟨⟨n, hn⟩, hrest⟩ := List.forall_mem_cons.mp h
    obtain ⟨m, hm⟩ := ih hrest
    refine ⟨max n m, List.forall_mem_cons.mpr ⟨fun c hc => ?_, fun u hu c hc => ?_⟩⟩
    · obtain ⟨⟨r, c'⟩, hx⟩ := hn c hc
      obtain ⟨_, _, hrequested⟩ := makeErased_spec name hacyclic n hc hx
      exact ⟨(r, c'), makeErased_mono name (Nat.le_max_left n m) hx, hrequested.wired⟩
    · obtain ⟨x, hx, hwired⟩ := hm u hu c hc
      exact ⟨x, makeErased_mono name (Nat.le_max_right n m) hx, hwired⟩

/-- With enough depth a request returns, by induction on the dependencies. -/
theorem makeErased_returns (hacyclic : Acyclic services)
    (hwell : WellFounded (DependsOn services)) (t : T) :
    ∃ n, ∀ c, Wired services c → ∃ x, makeErased name n c t = some x := by
  induction t using hwell.induction with
  | _ t ih =>
    have hover : ∀ c, Wired services c → override c t = none := by
      intro c hc
      rw [override]
      cases c.building.getLast? with
      | none => rfl
      | some top => exact hc.contextual top t
    cases hs : services t with
    | none =>
      refine ⟨1, fun c hc => ?_⟩
      rw [makeErased, hover c hc]
      simp only [hc.factories t, hs, Option.map_none, Option.map_some]
      exact ⟨_, rfl⟩
    | some s =>
      -- One level more than what the dependencies need.
      obtain ⟨n, hn⟩ := exists_depth name hacyclic fun d hd => ih d ⟨s, hs, hd⟩
      refine ⟨n + 1, fun c hc => ?_⟩
      obtain ⟨x, hx⟩ := auto_returns s hn hc
      rw [makeErased, hover c hc]
      simp only [hc.factories t, hs, Option.map_some, Service.binding]
      cases s.kind with
      | transient => exact ⟨_, Option.map_eq_some_iff.mpr ⟨x, hx, rfl⟩⟩
      | singleton =>
        simp only [Binding.run]
        cases c.instances t with
        | some v => exact ⟨_, rfl⟩
        | none => simp only [hx]; exact ⟨_, rfl⟩
      | perScope =>
        simp only [Binding.run]
        cases c.scopedInstances t with
        | some v => exact ⟨_, rfl⟩
        | none => simp only [hx]; exact ⟨_, rfl⟩

/-! ### Runs -/

/-- What a constructor got for a dependency. -/
def Receives (services : T → Option (Service T V W)) (e : Built T V) (t : T) (v : V) : Prop :=
  ∃ s, services e.type = some s ∧ (t, v) ∈ s.deps.zip e.args

/-- What holds from the registration on, over all scopes. -/
structure Lifelong (services : T → Option (Service T V W)) (l : Ledger T V) : Prop where
  singleton : ∀ t, IsKind services t .singleton → objs t l.built = (l.instances t).toList
  transient : ∀ t, IsKind services t .transient → objs t l.built = given t l.answers
  args : ∀ e ∈ l.built, ∀ t v, Receives services e t v → IsKind services t .singleton →
    l.instances t = some v
  values : ∀ t v, (t, some v) ∈ l.answers → IsKind services t .singleton → l.instances t = some v

omit [DecidableEq T] in
theorem receives_served {l : Ledger T V} {e : Built T V} {s : Service T V W} {t : T} {v : V}
    (hs : services e.type = some s) (hargs : List.Forall₂ (Served services l) s.deps e.args)
    (h : Receives services e t v) : Served services l t v := by
  obtain ⟨s', hs', hmem⟩ := h
  cases hs.symm.trans hs'
  exact (List.forall₂_iff_zip.mp hargs).2 hmem

theorem Lifelong.grows {l l' : Ledger T V} {new : List (Built T V)} {ans : List (T × Option V)}
    (h : Lifelong services l) (hgrows : Grows services l new ans l') : Lifelong services l' where
  singleton t ht := by
    rw [hgrows.built, objs_append, h.singleton t ht, hgrows.singleton t ht]
  transient t ht := by
    rw [hgrows.built, hgrows.answers, objs_append, given_append, h.transient t ht,
      hgrows.transient t ht]
  args e he t v hv ht := by
    rw [hgrows.built] at he
    rcases List.mem_append.mp he with he | he
    · have heq := hgrows.singleton t ht
      rw [h.args e he t v hv ht] at heq
      exact eq_some_of_append heq
    · obtain ⟨s, hs, hargs⟩ := hgrows.args e he
      exact (receives_served hs hargs hv).singleton ht
  values t v hv ht := by
    rw [hgrows.answers] at hv
    rcases List.mem_append.mp hv with hv | hv
    · have heq := hgrows.singleton t ht
      rw [h.values t v hv ht] at heq
      exact eq_some_of_append heq
    · exact (hgrows.values t v hv).singleton ht

/-- A call that resolves a type or forgets the scope. -/
def Call.IsRequest : Call T V W → Prop
  | .resolve _ => True
  | .forgetScoped => True
  | _ => False

def Call.IsResolve : Call T V W → Prop
  | .resolve _ => True
  | _ => False

theorem resolve_grows (hacyclic : Acyclic services) {c c' : State T V (Record T V W)} {t : T}
    {r : Option V} (hwired : Wired services c) (h : Step name c (.resolve t, r) c') :
    Wired services c' ∧ ∃ new ans, Grows services (ledger c) new ans (ledger c') := by
  obtain ⟨n, hn⟩ := h
  obtain ⟨⟨r', c''⟩, hmake, hr⟩ := Option.map_eq_some_iff.mp hn
  cases hr
  obtain ⟨new, ans, hrequested⟩ := makeErased_spec name hacyclic n hwired hmake
  exact ⟨hrequested.wired, new, ans, hrequested.grows⟩

/-- A scope: only resolutions. -/
theorem scope_grows (hacyclic : Acyclic services) {c c' : State T V (Record T V W)}
    {scope : List (Call T V (Record T V W) × Option V)} (h : Trace (Step name) c scope c')
    (hscope : ∀ a ∈ scope, a.1.IsResolve) (hwired : Wired services c) :
    Wired services c' ∧ ∃ new ans, Grows services (ledger c) new ans (ledger c') := by
  induction h with
  | nil c => exact ⟨hwired, [], [], .refl _⟩
  | @cons c c₁ c' a scope hstep _ ih =>
    obtain ⟨hfirst, hrest⟩ := List.forall_mem_cons.mp hscope
    obtain ⟨call, r⟩ := a
    cases call with
    | resolve t =>
      obtain ⟨hwired₁, new, ans, hgrows⟩ := resolve_grows name hacyclic hwired hstep
      obtain ⟨hwired', new', ans', hgrows'⟩ := ih hrest hwired₁
      exact ⟨hwired', new ++ new', ans ++ ans', hgrows.trans hgrows'⟩
    | _ => exact hfirst.elim

omit [DecidableEq T] in
theorem wired_forgetScoped {c : State T V (Record T V W)} (h : Wired services c) :
    Wired services (forgetScoped c) :=
  ⟨h.factories, h.contextual, h.tidy.instances, fun _ _ => rfl⟩

/-- A whole run. -/
theorem run_lifelong (hacyclic : Acyclic services) {c c' : State T V (Record T V W)}
    {history : List (Call T V (Record T V W) × Option V)} (h : Trace (Step name) c history c')
    (hcalls : ∀ a ∈ history, a.1.IsRequest) (hwired : Wired services c)
    (hlifelong : Lifelong services (ledger c)) :
    Wired services c' ∧ Lifelong services (ledger c') := by
  induction h with
  | nil c => exact ⟨hwired, hlifelong⟩
  | @cons c c₁ c' a history hstep _ ih =>
    obtain ⟨hfirst, hrest⟩ := List.forall_mem_cons.mp hcalls
    obtain ⟨call, r⟩ := a
    cases call with
    | resolve t =>
      obtain ⟨hwired₁, new, ans, hgrows⟩ := resolve_grows name hacyclic hwired hstep
      exact ih hrest hwired₁ (hlifelong.grows hgrows)
    | forgetScoped =>
      obtain ⟨n, hn⟩ := hstep
      cases hn
      exact ih hrest (wired_forgetScoped hwired)
        ⟨hlifelong.singleton, hlifelong.transient, hlifelong.args, hlifelong.values⟩
    | _ => exact hfirst.elim

end

/-! ### Registration -/

section
variable {T V W : Type} [DecidableEq T]

/-- `bind_auto`, `singleton_auto` or `scoped_auto`. -/
def register (c : State T V (Record T V W)) (r : T × Service T V W) :
    State T V (Record T V W) :=
  match r.2.kind with
  | .transient => bindAuto c r.1 r.2.deps (r.2.make r.1)
  | .singleton => singletonAuto c r.1 r.2.deps (r.2.make r.1)
  | .perScope => scopedAuto c r.1 r.2.deps (r.2.make r.1)

/-- A container with these services, in which nothing was resolved yet. -/
def registered (regs : List (T × Service T V W)) (w : W) : State T V (Record T V W) :=
  regs.foldl register (State.empty ⟨w, []⟩)

/-- A service in the place of the one before. -/
def withService (services : T → Option (Service T V W)) (r : T × Service T V W) :
    T → Option (Service T V W) :=
  Function.update services r.1 (some r.2)

/-- The services by their types. -/
def servicesOf (regs : List (T × Service T V W)) : T → Option (Service T V W) :=
  regs.foldl withService fun _ => none

theorem register_eq (c : State T V (Record T V W)) (r : T × Service T V W) :
    register c r =
      { c with factories := Function.update c.factories r.1 (some (r.2.binding r.1)) } := by
  rw [register, Service.binding]
  cases r.2.kind <;> rfl

/-- The registrations in order; the rest of the container stays. -/
theorem foldl_register (regs : List (T × Service T V W)) (c : State T V (Record T V W))
    (services : T → Option (Service T V W))
    (h : ∀ t, c.factories t = (services t).map fun s => s.binding t) :
    regs.foldl register c = { c with factories := (fun t =>
      (regs.foldl withService services t).map fun s => s.binding t) } := by
  induction regs generalizing c services with
  | nil =>
    have hfactories : c.factories = fun t => (services t).map fun s => s.binding t := funext h
    rw [List.foldl_nil, List.foldl_nil, ← hfactories]
  | cons r regs ih =>
    rw [List.foldl_cons, List.foldl_cons, register_eq]
    refine ih _ _ fun t => ?_
    by_cases ht : t = r.1
    · subst ht
      simp [withService]
    · simp [withService, ht, h]

theorem wired_registered (regs : List (T × Service T V W)) (w : W) :
    Wired (servicesOf regs) (registered regs w) ∧
      Lifelong (servicesOf regs) (ledger (registered regs w)) := by
  have heq := foldl_register regs (State.empty ⟨w, []⟩) (fun _ => none) fun _ => rfl
  rw [registered, heq]
  refine ⟨⟨fun _ => rfl, fun _ _ => rfl, fun _ _ => rfl, fun _ _ => rfl⟩, fun _ _ => rfl,
    fun _ _ => rfl, ?_, ?_⟩
  · exact fun e he => absurd he List.not_mem_nil
  · exact fun t v hv => absurd hv List.not_mem_nil

theorem mem_of_servicesOf {regs : List (T × Service T V W)} {t : T} {s : Service T V W}
    (h : servicesOf regs t = some s) : t ∈ regs.map Prod.fst := by
  have hfold : ∀ (regs : List (T × Service T V W)) (services : T → Option (Service T V W)),
      regs.foldl withService services t = some s →
      t ∈ regs.map Prod.fst ∨ services t = some s := by
    intro regs
    induction regs with
    | nil => exact fun _ h => .inr h
    | cons r regs ih =>
      intro services h
      rcases ih _ h with hmem | hsome
      · exact .inl (List.mem_cons_of_mem _ hmem)
      · by_cases ht : t = r.1
        · exact .inl (ht ▸ List.mem_cons_self)
        · rw [withService, Function.update_of_ne ht] at hsome
          exact .inr hsome
  rcases hfold regs _ h with hmem | hnone
  · exact hmem
  · cases hnone

/-- Among finitely many services, acyclic dependencies end. -/
theorem wellFounded_dependsOn {regs : List (T × Service T V W)}
    (hacyclic : Acyclic (servicesOf regs)) : WellFounded (DependsOn (servicesOf regs)) := by
  let types : Set T := {t | t ∈ regs.map Prod.fst}
  have hfinite : types.Finite := List.finite_toSet _
  have hirrefl : Std.Irrefl (Relation.TransGen (DependsOn (servicesOf regs))) := ⟨hacyclic⟩
  have htrans : IsTrans T (Relation.TransGen (DependsOn (servicesOf regs))) :=
    ⟨fun _ _ _ => Relation.TransGen.trans⟩
  have horder : IsStrictOrder T (Relation.TransGen (DependsOn (servicesOf regs))) := {}
  have hwell := Set.wellFoundedOn_iff.mp (hfinite.wellFoundedOn
    (r := Relation.TransGen (DependsOn (servicesOf regs))))
  refine ⟨fun t => ?_⟩
  induction t using hwell.induction with
  | _ t ih =>
    refine ⟨t, fun d hd => ?_⟩
    by_cases hmem : d ∈ types
    · have ht : t ∈ types := by
        obtain ⟨s, hs, _⟩ := hd
        exact mem_of_servicesOf hs
      exact ih d ⟨.single hd, hmem, ht⟩
    · -- A type that was not registered has no dependencies.
      refine ⟨d, fun u hu => absurd ?_ hmem⟩
      obtain ⟨s, hs, _⟩ := hu
      exact mem_of_servicesOf hs

/-! ### The lifetimes -/

/-- At the end `c` of a run. -/
structure Lifetimes (name : T → Bytes) (services : T → Option (Service T V W))
    (c : State T V (Record T V W)) : Prop where
  /-- Every request returns. -/
  returns : ∀ t, ∃ r c', Step name c (.resolve t, r) c'
  singleton : ∀ t, IsKind services t .singleton → (objs t c.world.built).length ≤ 1
  /-- What depends on a singleton, or asks for it, gets the object. -/
  shared : ∀ t, IsKind services t .singleton → ∀ v,
    (∃ e ∈ c.world.built, Receives services e t v) ∨ (t, some v) ∈ c.answers →
    objs t c.world.built = [v]
  /-- The objects of a transient are the values that its requests got, in order. -/
  transient : ∀ t, IsKind services t .transient → objs t c.world.built = given t c.answers
  /-- On any stack; the requests since `c` that failed are those for `t`, and for what it was
  waiting for. -/
  failed : ∀ n building t e c', makeErased name n (c.on building) t = some (.error e, c') →
    c'.building = building ∧ (t, none) ∈ c'.answers.drop c.answers.length ∧
    ∀ u, (u, none) ∈ c'.answers.drop c.answers.length →
      c'.instances u = none ∧ c'.scopedInstances u = none

/-- From the start `c` of a scope to `c'`. -/
structure ScopeLifetimes (services : T → Option (Service T V W))
    (c c' : State T V (Record T V W)) : Prop where
  once : ∀ t, IsKind services t .perScope →
    (objs t (c'.world.built.drop c.world.built.length)).length ≤ 1
  shared : ∀ t, IsKind services t .perScope → ∀ v,
    (∃ e ∈ c'.world.built.drop c.world.built.length, Receives services e t v) ∨
      (t, some v) ∈ c'.answers.drop c.answers.length →
    objs t (c'.world.built.drop c.world.built.length) = [v]

variable (name : T → Bytes)

theorem toList_length_le (o : Option V) : o.toList.length ≤ 1 := by
  cases o <;> simp

theorem lifetimes_of_lifelong {services : T → Option (Service T V W)} (hacyclic : Acyclic services)
    (hwell : WellFounded (DependsOn services)) {c : State T V (Record T V W)}
    (hwired : Wired services c) (h : Lifelong services (ledger c)) :
    Lifetimes name services c where
  returns t := by
    obtain ⟨n, hn⟩ := makeErased_returns name hacyclic hwell t
    obtain ⟨x, hx⟩ := hn c hwired
    exact ⟨_, _, n, Option.map_eq_some_iff.mpr ⟨x, hx, rfl⟩⟩
  singleton t ht := by
    have heq : objs t c.world.built = (c.instances t).toList := h.singleton t ht
    rw [heq]
    exact toList_length_le _
  shared t ht v hv := by
    have heq : objs t c.world.built = (c.instances t).toList := h.singleton t ht
    -- Received as an argument or as an answer, it is the memo.
    have hmemo : c.instances t = some v := by
      rcases hv with ⟨e, he, hreceives⟩ | hanswer
      · exact h.args e he t v hreceives ht
      · exact h.values t v hanswer ht
    rw [heq, hmemo]
    rfl
  transient := h.transient
  failed n building t e c' hmake := by
    have hon : Wired services (c.on building) :=
      ⟨hwired.factories, hwired.contextual, hwired.tidy⟩
    obtain ⟨new, ans, hrequested⟩ := makeErased_spec name hacyclic n hon hmake
    -- The answers of the request are those behind the ones that were there.
    have hanswers : c'.answers.drop c.answers.length = ans := by
      have hgrow : c'.answers = c.answers ++ ans := hrequested.grows.answers
      rw [hgrow, List.drop_left]
    rw [hanswers]
    refine ⟨hrequested.building, ?_, fun u hu => (hrequested.failed u hu).2⟩
    obtain ⟨before, rfl⟩ := hrequested.answered
    exact List.mem_append_right _ (List.mem_singleton_self _)

theorem scopeLifetimes_of_grows {services : T → Option (Service T V W)}
    {c c' : State T V (Record T V W)} {new : List (Built T V)} {ans : List (T × Option V)}
    (hfresh : ∀ t, c.scopedInstances t = none)
    (h : Grows services (ledger c) new ans (ledger c')) : ScopeLifetimes services c c' := by
  have hbuilt : c'.world.built.drop c.world.built.length = new := by
    have hgrow : c'.world.built = c.world.built ++ new := h.built
    rw [hgrow, List.drop_left]
  have hanswers : c'.answers.drop c.answers.length = ans := by
    have hgrow : c'.answers = c.answers ++ ans := h.answers
    rw [hgrow, List.drop_left]
  -- The scope is new, so its memos are the objects made since.
  have hobjs : ∀ t, IsKind services t .perScope → objs t new = (c'.scopedInstances t).toList := by
    intro t ht
    have heq : (c.scopedInstances t).toList ++ objs t new = (c'.scopedInstances t).toList :=
      h.perScope t ht
    rw [hfresh t] at heq
    exact heq
  constructor
  · intro t ht
    rw [hbuilt, hobjs t ht]
    exact toList_length_le _
  · intro t ht v hv
    rw [hbuilt, hanswers] at hv
    have hmemo : c'.scopedInstances t = some v := by
      rcases hv with ⟨e, he, hreceives⟩ | hanswer
      · obtain ⟨s, hs, hargs⟩ := h.args e he
        exact (receives_served hs hargs hreceives).perScope ht
      · exact (h.values t v hanswer).perScope ht
    rw [hbuilt, hobjs t ht, hmemo]
    rfl

/-- Acyclic services are registered, and then types are resolved and scopes forgotten. A scope
starts with the registration or with a call of `forget_scoped`. -/
theorem lifetimes (regs : List (T × Service T V W)) (w : W)
    (hacyclic : Acyclic (servicesOf regs))
    {history : List (Call T V (Record T V W) × Option V)} {c : State T V (Record T V W)}
    (h : Trace (Step name) (registered regs w) history c)
    (hcalls : ∀ a ∈ history, a.1.IsRequest) :
    Lifetimes name (servicesOf regs) c ∧
    ∀ (start : State T V (Record T V W)) (scope : List (Call T V (Record T V W) × Option V))
      (c' : State T V (Record T V W)),
      start = forgetScoped c ∨ history = [] ∧ start = c →
      Trace (Step name) start scope c' → (∀ a ∈ scope, a.1.IsResolve) →
      ScopeLifetimes (servicesOf regs) start c' := by
  obtain ⟨hwired₀, hlifelong₀⟩ := wired_registered regs w
  obtain ⟨hwired, hlifelong⟩ := run_lifelong name hacyclic h hcalls hwired₀ hlifelong₀
  refine ⟨lifetimes_of_lifelong name hacyclic (wellFounded_dependsOn hacyclic) hwired hlifelong, ?_⟩
  intro start scope c' hstart hrun hscope
  obtain ⟨hwiredStart, hfresh⟩ :
      Wired (servicesOf regs) start ∧ ∀ t, start.scopedInstances t = none := by
    rcases hstart with rfl | ⟨rfl, rfl⟩
    · exact ⟨wired_forgetScoped hwired, fun _ => rfl⟩
    · cases h
      refine ⟨hwired, fun t => ?_⟩
      rw [registered, foldl_register regs (State.empty ⟨w, []⟩) (fun _ => none) fun _ => rfl]
      rfl
  obtain ⟨_, new, ans, hgrows⟩ := scope_grows name hacyclic hrun hscope hwiredStart
  exact scopeLifetimes_of_grows hfresh hgrows

end

/-- A connection `0`, a repository `1` on it, and a controller `2` on both whose constructor
throws; an object is its number. -/
def shop : List (Nat × Service Nat Nat Nat) :=
  [(0, ⟨.singleton, [], fun _ w => (some w, w + 1)⟩),
    (1, ⟨.perScope, [0], fun _ w => (some w, w + 1)⟩),
    (2, ⟨.transient, [1, 0], fun _ w => (none, w)⟩)]

theorem dependsOn_shop {d t : Nat} (h : DependsOn (servicesOf shop) d t) : d < t := by
  obtain ⟨s, hs, hd⟩ := h
  simp only [servicesOf, shop, List.foldl_cons, List.foldl_nil, withService,
    Function.update_apply] at hs
  split_ifs at hs with h₂ h₁ h₀
  · cases hs
    simp at hd
    omega
  · cases hs
    simp at hd
    omega
  · cases hs
    simp at hd

theorem acyclic_shop : Acyclic (servicesOf shop) := by
  intro t h
  have hlt : ∀ u, Relation.TransGen (DependsOn (servicesOf shop)) t u → t < u := by
    intro u hu
    induction hu with
    | single hd => exact dependsOn_shop hd
    | tail _ hd ih => exact ih.trans (dependsOn_shop hd)
  exact absurd (hlt t h) (lt_irrefl t)

/-- The next call of a history, if it gives what the history says. -/
def replay (c : State Nat Nat (Record Nat Nat Nat))
    (a : Call Nat Nat (Record Nat Nat Nat) × Option Nat) :
    Option (State Nat Nat (Record Nat Nat Nat)) :=
  (step (fun _ => []) 4 c a.1).bind fun x => if x.1 = a.2 then some x.2 else none

theorem trace_of_replay {c c' : State Nat Nat (Record Nat Nat Nat)}
    {history : List (Call Nat Nat (Record Nat Nat Nat) × Option Nat)}
    (h : run replay c history = some c') : Trace (Step fun _ => []) c history c' := by
  refine (trace_iff_run.mpr h).mono fun c a c' hstep => ?_
  obtain ⟨⟨r, d⟩, hd, hr⟩ := Option.bind_eq_some_iff.mp hstep
  split_ifs at hr with heq
  cases hr
  exact ⟨4, heq ▸ hd⟩

/-- A request that fails, a new scope, and two requests for the repository. -/
theorem lifetimes_applies : ∃ c c' : State Nat Nat (Record Nat Nat Nat),
    c'.world.built = [⟨0, [], 0⟩, ⟨1, [0], 1⟩, ⟨1, [0], 2⟩] ∧
    Lifetimes (fun _ => []) (servicesOf shop) c ∧
    ScopeLifetimes (servicesOf shop) (forgetScoped c) c' := by
  have hfirst : (run replay (registered shop 0) [(.resolve 2, none)]).isSome := by decide +kernel
  have hscope : (run replay (forgetScoped (Option.get _ hfirst))
      [(.resolve 1, some 2), (.resolve 1, some 2)]).isSome := by
    decide +kernel +revert
  have hbuilt : (Option.get _ hscope).world.built =
      [⟨0, [], 0⟩, ⟨1, [0], 1⟩, ⟨1, [0], 2⟩] := by
    decide +kernel +revert
  have hrun := lifetimes (fun _ => []) shop 0 acyclic_shop
    (trace_of_replay (Option.some_get hfirst).symm) (List.forall_mem_singleton.mpr trivial)
  refine ⟨Option.get _ hfirst, Option.get _ hscope, hbuilt, hrun.1,
    hrun.2 _ _ _ (.inl rfl) (trace_of_replay (Option.some_get hscope).symm) ?_⟩
  intro a ha
  simp only [List.mem_cons, List.not_mem_nil, or_false, or_self] at ha
  rw [ha]
  trivial

end CppLaravel.Container
