import Mathlib.Data.Option.Basic

/-!
# `CppLaravel.Lib.Callback`: programs that call back into their host

A `Program` is what a piece of user code does, as its host sees it: it acts on a world, asks the
host for the values of keys, marks that it is within a key, and in the end returns or throws.
`exec` runs a program on a `Host`; a call of the host may have no result, when it does not return.

* `exec_sim`: two hosts whose calls agree run a program alike. The relation between the states is
  indexed, so that it can say what the keys are that a program is within; only the keys that the
  program asks for itself (`Asks`) have to be agreed on.
* `exec_mono`: a host that returns more often gives no other results.
-/

set_option autoImplicit false

namespace CppLaravel.Lib

/-- User code. `attempt` catches what the call throws, `resolve` lets it through; `within` holds
until the code ends. -/
inductive Program (K V W : Type) where
  | done (v : V)
  | fail
  | act (update : W → W) (next : W → Program K V W)
  | resolve (key : K) (next : V → Program K V W)
  | attempt (key : K) (next : Option V → Program K V W)
  | within (key : K) (body : Program K V W)

/-- What runs programs: `σ` are its states and `ε` what is thrown. -/
structure Host (K V W ε σ : Type) where
  call : σ → K → Option (Except ε V × σ)
  world : σ → W
  setWorld : σ → W → σ
  enter : σ → K → σ
  leave : σ → σ
  fault : ε

section
variable {K V W ε σ : Type}

/-- Run a program. -/
def exec (H : Host K V W ε σ) : Program K V W → σ → Option (Except ε V × σ)
  | .done v, s => some (.ok v, s)
  | .fail, s => some (.error H.fault, s)
  | .act update next, s => exec H (next (H.world s)) (H.setWorld s (update (H.world s)))
  | .resolve key next, s => (H.call s key).bind fun x =>
    match x.1 with
    | .error e => some (.error e, x.2)
    | .ok v => exec H (next v) x.2
  | .attempt key next, s => (H.call s key).bind fun x => exec H (next x.1.toOption) x.2
  | .within key body, s => (exec H body (H.enter s key)).map fun x => (x.1, H.leave x.2)

namespace Program

/-- The program may ask for the key, within no key of its own. -/
def Asks : Program K V W → K → Prop
  | done _, _ => False
  | fail, _ => False
  | act _ next, k => ∃ w, (next w).Asks k
  | resolve key next, k => k = key ∨ ∃ v, (next v).Asks k
  | attempt key next, k => k = key ∨ ∃ r, (next r).Asks k
  | within _ _, _ => False

/-- The program may ask for the key `k` within the key `a`, the innermost one. -/
def AsksWithin : Program K V W → K → K → Prop
  | done _, _, _ => False
  | fail, _, _ => False
  | act _ next, a, k => ∃ w, (next w).AsksWithin a k
  | resolve _ next, a, k => ∃ v, (next v).AsksWithin a k
  | attempt _ next, a, k => ∃ r, (next r).AsksWithin a k
  | within key body, a, k => a = key ∧ body.Asks k ∨ body.AsksWithin a k

end Program
end

section
variable {K V W ε₁ ε₂ σ₁ σ₂ : Type}

/-- Two results: the same value or a failure on both sides, and states that are related. -/
def Agree (R : σ₁ → σ₂ → Prop) (x : Except ε₁ V × σ₁) (y : Except ε₂ V × σ₂) : Prop :=
  x.1.toOption = y.1.toOption ∧ R x.2 y.2

theorem Agree.cases {R : σ₁ → σ₂ → Prop} {x : Except ε₁ V × σ₁} {y : Except ε₂ V × σ₂}
    (h : Agree R x y) : R x.2 y.2 ∧
      ((∃ v, x.1 = .ok v ∧ y.1 = .ok v) ∨ ∃ e₁ e₂, x.1 = .error e₁ ∧ y.1 = .error e₂) := by
  obtain ⟨r₁, s⟩ := x
  obtain ⟨r₂, t⟩ := y
  obtain ⟨hr, hR⟩ := h
  refine ⟨hR, ?_⟩
  cases r₁ <;> cases r₂ <;> simp_all [Except.toOption]

theorem value_eq_of_rel {R : σ₁ → σ₂ → Prop} {x : Option (Except ε₁ V × σ₁)}
    {y : Option (Except ε₂ V × σ₂)} (h : Option.Rel (Agree R) x y) :
    x.map (fun x => x.1.toOption) = y.map fun y => y.1.toOption := by
  cases h with
  | none => rfl
  | some hxy => exact congrArg some hxy.1

theorem rel_bind {α β γ δ : Type} {P : α → β → Prop} {Q : γ → δ → Prop} {x : Option α}
    {y : Option β} {f : α → Option γ} {g : β → Option δ} (h : Option.Rel P x y)
    (hfg : ∀ a b, P a b → Option.Rel Q (f a) (g b)) : Option.Rel Q (x.bind f) (y.bind g) := by
  cases h with
  | none => exact .none
  | some hab => exact hfg _ _ hab

theorem rel_mono {α β : Type} {P Q : α → β → Prop} {x : Option α} {y : Option β}
    (h : Option.Rel P x y) (hPQ : ∀ a b, P a b → Q a b) : Option.Rel Q x y := by
  cases h with
  | none => exact .none
  | some hab => exact .some (hPQ _ _ hab)

/-- Two results that are related to a third. -/
theorem rel_join {α β γ : Type} {P : α → β → Prop} {Q : γ → β → Prop} {S : α → γ → Prop}
    {x : Option α} {y : Option β} {z : Option γ} (h : Option.Rel P x y) (h' : Option.Rel Q z y)
    (hS : ∀ a b c, P a b → Q c b → S a c) : Option.Rel S x z := by
  cases h with
  | none =>
    cases h'
    exact .none
  | some hab =>
    cases h' with
    | some hcb => exact .some (hS _ _ _ hab hcb)

/-- What is then done with the value on both sides. -/
theorem agree_map {τ₁ τ₂ : Type} {R : σ₁ → σ₂ → Prop} {R' : τ₁ → τ₂ → Prop}
    {x : Option (Except ε₁ V × σ₁)} {y : Option (Except ε₂ V × σ₂)} {f : σ₁ → Option V → τ₁}
    {g : σ₂ → Option V → τ₂} (h : Option.Rel (Agree R) x y)
    (hfg : ∀ s t r, R s t → R' (f s r) (g t r)) :
    Option.Rel (Agree R') (x.map fun x => (x.1, f x.2 x.1.toOption))
      (y.map fun y => (y.1, g y.2 y.1.toOption)) := by
  rw [Option.map_eq_bind, Option.map_eq_bind]
  refine rel_bind h fun x y hxy => .some ⟨hxy.1, ?_⟩
  show R' (f x.2 x.1.toOption) (g y.2 y.1.toOption)
  rw [hxy.1]
  exact hfg _ _ _ hxy.2

/-- Two hosts that do the same in related states. Calls agree on the keys that are allowed. -/
structure Matches {ι : Type} (H₁ : Host K V W ε₁ σ₁) (H₂ : Host K V W ε₂ σ₂) (push : ι → K → ι)
    (Allowed : ι → K → Prop) (R : ι → σ₁ → σ₂ → Prop) : Prop where
  world : ∀ {i s t}, R i s t → H₁.world s = H₂.world t
  setWorld : ∀ {i s t} w, R i s t → R i (H₁.setWorld s w) (H₂.setWorld t w)
  enter : ∀ {i s t} k, R i s t → R (push i k) (H₁.enter s k) (H₂.enter t k)
  leave : ∀ {i s t} k, R (push i k) s t → R i (H₁.leave s) (H₂.leave t)
  inner : ∀ i a k, Allowed (push i a) k
  call : ∀ {i s t} k, Allowed i k → R i s t →
    Option.Rel (Agree (R i)) (H₁.call s k) (H₂.call t k)

variable {ι : Type} {H₁ : Host K V W ε₁ σ₁} {H₂ : Host K V W ε₂ σ₂} {push : ι → K → ι}
  {Allowed : ι → K → Prop} {R : ι → σ₁ → σ₂ → Prop}

/-- The simulation rule: a program runs alike on two hosts that match. -/
theorem exec_sim (h : Matches H₁ H₂ push Allowed R) (p : Program K V W) {i : ι} {s : σ₁} {t : σ₂}
    (hasks : ∀ k, p.Asks k → Allowed i k) (hR : R i s t) :
    Option.Rel (Agree (R i)) (exec H₁ p s) (exec H₂ p t) := by
  induction p generalizing i s t with
  | done v => exact .some ⟨rfl, hR⟩
  | fail => exact .some ⟨rfl, hR⟩
  | act update next ih =>
    rw [exec, exec, h.world hR]
    exact ih _ (fun k hk => hasks k ⟨_, hk⟩) (h.setWorld _ hR)
  | resolve key next ih =>
    rw [exec, exec]
    refine rel_bind (h.call key (hasks key (.inl rfl)) hR) fun x y hxy => ?_
    obtain ⟨hR', ⟨v, hx, hy⟩ | ⟨e₁, e₂, hx, hy⟩⟩ := hxy.cases
    · rw [hx, hy]
      exact ih v (fun k hk => hasks k (.inr ⟨v, hk⟩)) hR'
    · rw [hx, hy]
      exact .some ⟨rfl, hR'⟩
  | attempt key next ih =>
    rw [exec, exec]
    refine rel_bind (h.call key (hasks key (.inl rfl)) hR) fun x y hxy => ?_
    rw [hxy.1]
    exact ih _ (fun k hk => hasks k (.inr ⟨_, hk⟩)) hxy.2
  | within key body ih =>
    rw [exec, exec, Option.map_eq_bind, Option.map_eq_bind]
    refine rel_bind (ih (fun k _ => h.inner i key k) (h.enter key hR)) fun x y hxy => ?_
    exact .some ⟨hxy.1, h.leave key hxy.2⟩

end

section
variable {K V W ε σ : Type} {H : Host K V W ε σ}

/-- A host that returns at least as often. -/
theorem exec_mono {call : σ → K → Option (Except ε V × σ)}
    (hcall : ∀ s k x, H.call s k = some x → call s k = some x) (p : Program K V W) {s : σ}
    {x : Except ε V × σ} (h : exec H p s = some x) : exec { H with call := call } p s = some x := by
  induction p generalizing s x with
  | done v => exact h
  | fail => exact h
  | act update next ih => exact ih _ h
  | resolve key next ih =>
    rw [exec] at h
    obtain ⟨y, hy, hnext⟩ := Option.bind_eq_some_iff.mp h
    rw [exec]
    refine Option.bind_eq_some_iff.mpr ⟨y, hcall _ _ _ hy, ?_⟩
    obtain ⟨e | v, s'⟩ := y
    · exact hnext
    · exact ih v hnext
  | attempt key next ih =>
    rw [exec] at h
    obtain ⟨y, hy, hnext⟩ := Option.bind_eq_some_iff.mp h
    rw [exec]
    exact Option.bind_eq_some_iff.mpr ⟨y, hcall _ _ _ hy, ih _ hnext⟩
  | within key body ih =>
    rw [exec] at h
    obtain ⟨y, hy, rfl⟩ := Option.map_eq_some_iff.mp h
    rw [exec]
    exact Option.map_eq_some_iff.mpr ⟨y, ih hy, rfl⟩

end

end CppLaravel.Lib
