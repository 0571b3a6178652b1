import CppLaravel.Routing.Kernel

/-!
# `CppLaravel.Proofs.Routing.Match`: which routes a request finds

`Chosen` is the first route with the method of the request and a pattern that matches its path.
`matchRequest` finds it, and finds nothing where there is none. `allowedMethods` is a scan of its
own that leaves the methods of the routes that match the path, without the repetitions.
-/

set_option autoImplicit false

namespace CppLaravel.Routing

open CppLaravel.Http
open CppLaravel.Lib

variable {W : Type}

/-- The pattern of the route matches the path. -/
def Route.Matches (r : Route W) (path : Bytes) : Prop := ∃ captures, r.pattern.Accepts path captures

theorem matchPath_isSome_iff {r : Route W} {path : Bytes} :
    (r.matchPath path).isSome ↔ r.Matches path := by
  rw [Route.matchPath, Option.isSome_map, Regex.fullMatch_isSome_iff]
  rfl

instance (r : Route W) (path : Bytes) : Decidable (r.Matches path) :=
  decidable_of_iff _ matchPath_isSome_iff

/-- The parameters are those of a parse. -/
theorem exists_accepts_of_matchPath {r : Route W} {path : Bytes} {params : StringMap}
    (h : r.matchPath path = some params) :
    ∃ captures, r.pattern.Accepts path captures ∧ params = r.params captures := by
  obtain ⟨captures, hmatch, rfl⟩ := Option.map_eq_some_iff.mp h
  exact ⟨captures, Regex.accepts_of_fullMatch hmatch, rfl⟩

/-- The route answers the request: it has its method, and its pattern matches. -/
def Route.Answers (r : Route W) (req : Request) : Prop :=
  r.method = req.method ∧ r.Matches req.path

/-- The first route that answers the request. -/
def Chosen (routes : List (Route W)) (req : Request) (r : Route W) : Prop :=
  ∃ before after, routes = before ++ r :: after ∧ r.Answers req ∧ ∀ q ∈ before, ¬ q.Answers req

/-- The scan goes past a route that does not answer. -/
theorem matchRequest_cons_of_not {req : Request} {r : Route W} {routes : List (Route W)}
    (h : ¬ r.Answers req) : matchRequest req (r :: routes) = matchRequest req routes := by
  rw [matchRequest]
  split
  · rfl
  · rename_i hmethod
    have hpath : ¬ r.Matches req.path := fun hpath => h ⟨not_not.mp hmethod, hpath⟩
    rw [← matchPath_isSome_iff, Option.not_isSome_iff_eq_none] at hpath
    rw [hpath]

/-- It stops at the first one that does. -/
theorem matchRequest_cons_of_answers {req : Request} {r : Route W} (h : r.Answers req)
    (routes : List (Route W)) : ∃ params, r.matchPath req.path = some params ∧
      matchRequest req (r :: routes) = some (r, params) := by
  obtain ⟨params, hparams⟩ := Option.isSome_iff_exists.mp (matchPath_isSome_iff.mpr h.2)
  refine ⟨params, hparams, ?_⟩
  rw [matchRequest, if_neg (not_not.mpr h.1), hparams]

theorem matchRequest_append {req : Request} {before : List (Route W)} (routes : List (Route W))
    (h : ∀ q ∈ before, ¬ q.Answers req) :
    matchRequest req (before ++ routes) = matchRequest req routes := by
  induction before with
  | nil => rfl
  | cons r before ih =>
    rw [List.cons_append, matchRequest_cons_of_not (h r List.mem_cons_self)]
    exact ih fun q hq => h q (List.mem_cons_of_mem r hq)

/-- Nothing is found where no route answers. -/
theorem matchRequest_eq_none {req : Request} {routes : List (Route W)}
    (h : ∀ r ∈ routes, ¬ r.Answers req) : matchRequest req routes = none := by
  simpa [matchRequest] using matchRequest_append [] h

/-- The chosen route is found, with the parameters of a parse. -/
theorem matchRequest_of_chosen {req : Request} {routes : List (Route W)} {r : Route W}
    (h : Chosen routes req r) : ∃ captures, r.pattern.Accepts req.path captures ∧
      matchRequest req routes = some (r, r.params captures) := by
  obtain ⟨before, after, rfl, hanswers, hbefore⟩ := h
  obtain ⟨params, hparams, hmatch⟩ := matchRequest_cons_of_answers hanswers after
  obtain ⟨captures, haccepts, rfl⟩ := exists_accepts_of_matchPath hparams
  exact ⟨captures, haccepts, (matchRequest_append _ hbefore).trans hmatch⟩

/-- Where a route answers, one is the first. -/
theorem exists_chosen {req : Request} {routes : List (Route W)}
    (h : ∃ r ∈ routes, r.Answers req) : ∃ r, Chosen routes req r := by
  induction routes with
  | nil => simp at h
  | cons q routes ih =>
    by_cases hq : q.Answers req
    · exact ⟨q, [], routes, rfl, hq, by simp⟩
    · have htail : ∃ r ∈ routes, r.Answers req := by simpa [hq] using h
      obtain ⟨r, before, after, rfl, hr, hbefore⟩ := ih htail
      refine ⟨r, q :: before, after, rfl, hr, ?_⟩
      simpa [hq] using hbefore

/-! ### The methods of a path -/

/-- The methods of the routes that match a path, each one once, in the order of registration. -/
def methodsOf (routes : List (Route W)) (path : Bytes) : List Bytes :=
  ((routes.filter fun r => r.Matches path).map Route.method).eraseDups

theorem methodsOf_concat (routes : List (Route W)) (r : Route W) (path : Bytes) :
    methodsOf (routes ++ [r]) path =
      if r.Matches path ∧ r.method ∉ methodsOf routes path then
        methodsOf routes path ++ [r.method]
      else methodsOf routes path := by
  have hone : [r.method].eraseDups = [r.method] := by
    rw [List.eraseDups_cons, List.filter_nil, List.eraseDups_nil]
  unfold methodsOf
  rw [List.filter_append, List.map_append, List.eraseDups_append]
  by_cases hr : r.Matches path
  · by_cases hmem : ∃ q ∈ routes, q.Matches path ∧ q.method = r.method
    · simp_all [List.removeAll, List.mem_eraseDups]
    · simp_all [List.removeAll, List.mem_eraseDups]
  · simp [hr, List.removeAll]

theorem allowedMethods_eq (routes : List (Route W)) (path : Bytes) :
    allowedMethods path routes = methodsOf routes path := by
  induction routes using List.reverseRecOn with
  | nil => rfl
  | append_singleton routes r ih =>
    rw [methodsOf_concat, ← ih, allowedMethods, List.foldl_append]
    show (if (r.matchPath path).isNone then _ else if _ then _ else _) = _
    rw [← allowedMethods]
    by_cases hr : r.Matches path
    · obtain ⟨params, hparams⟩ := Option.isSome_iff_exists.mp (matchPath_isSome_iff.mpr hr)
      by_cases hmem : r.method ∈ allowedMethods path routes <;> simp [hr, hparams, hmem]
    · have hnone : r.matchPath path = none := by
        simpa [Option.not_isSome_iff_eq_none] using mt matchPath_isSome_iff.mp hr
      simp [hr, hnone]

theorem mem_methodsOf {routes : List (Route W)} {path m : Bytes} :
    m ∈ methodsOf routes path ↔ ∃ r ∈ routes, r.Matches path ∧ r.method = m := by
  simp [methodsOf, List.mem_eraseDups, and_assoc]

theorem methodsOf_eq_nil_iff {routes : List (Route W)} {path : Bytes} :
    methodsOf routes path = [] ↔ ∀ r ∈ routes, ¬ r.Matches path := by
  rw [List.eq_nil_iff_forall_not_mem]
  constructor
  · intro h r hr hpath
    exact h r.method (mem_methodsOf.mpr ⟨r, hr, hpath, rfl⟩)
  · intro h m hm
    obtain ⟨r, hr, hpath, -⟩ := mem_methodsOf.mp hm
    exact h r hr hpath

end CppLaravel.Routing
