import CppLaravel.Proofs.Routing.Handle
import CppLaravel.Proofs.Routing.Template
import CppLaravel.Routing.Register

/-!
# `CppLaravel.Proofs.Routing.Register`: what an application's routes answer

`registerAll_eq`: calls whose URIs are templates make routes, one each, in order. `Serves` says
which call a request goes to: the first with its method whose template its path fills. So what a
kernel does is read off the list of calls, without the expressions between.
-/

set_option autoImplicit false

namespace CppLaravel.Routing

open CppLaravel.Http CppLaravel.Lib

variable {W : Type}

/-- A call with its URI as a template. -/
structure Entry (W : Type) where
  template : Template
  method : Bytes
  handler : Handler W
  middleware : List (Middleware W) := []

/-- A template without names. -/
def Template.ofText (text : Bytes) (h : Literal text) : Template where
  head := text
  segments := []
  tail := none
  words := List.forall_mem_nil _
  literal := ⟨h, List.forall_mem_nil _⟩
  closed := trivial
  distinct := List.nodup_nil

/-- A text without braces. -/
theorem literal_of_notMem {text : Bytes} (h : 123 ∉ text) : Literal text :=
  fun _ _ _ _ hmatch => h (hmatch.subset List.mem_cons_self)

/-- The call. -/
def Entry.registration (e : Entry W) : Registration W where
  method := e.method
  uri := e.template.uri
  handler := e.handler
  middleware := e.middleware

/-- The route that a call makes. -/
structure Entry.Makes (e : Entry W) (r : Route W) : Prop where
  method : r.method = e.method
  handler : r.handler = e.handler
  middleware : r.middleware = e.middleware
  paramNames : r.paramNames = e.template.names
  accepts : ∀ path values, r.pattern.Accepts path values ↔
    ∃ rest, path = e.template.head ++ rest ∧ Splits e.template.tail e.template.segments rest values

/-- Calls whose URIs are templates make routes. -/
theorem registerAll_eq (es : List (Entry W)) (routes : List (Route W)) :
    ∃ made, registerAll routes (es.map Entry.registration) = some (routes ++ made) ∧
      List.Forall₂ Entry.Makes es made := by
  induction es generalizing routes with
  | nil => exact ⟨[], by rw [List.append_nil]; rfl, .nil⟩
  | cons e es ih =>
    obtain ⟨pattern, hadd, haccepts⟩ :=
      add_uri e.template routes e.method e.handler e.middleware
    obtain ⟨made, hmade, hall⟩ := ih (routes ++
      [⟨e.method, e.template.uri, pattern, e.template.names, e.handler, e.middleware⟩])
    refine ⟨_, ?_, .cons (b := ⟨e.method, e.template.uri, pattern, e.template.names, e.handler,
      e.middleware⟩) ⟨rfl, rfl, rfl, rfl, haccepts⟩ hall⟩
    rw [List.map_cons, registerAll, Entry.registration, hadd, Option.bind_some, hmade,
      List.append_assoc]
    rfl

/-- The request goes to this call, with these values for its names. -/
structure Entry.Answers (e : Entry W) (req : Request) (σ : Bytes → Bytes) : Prop where
  method : e.method = req.method
  fits : e.template.Fits σ
  path : req.path = e.template.fill σ

theorem Entry.Answers.path_ofText {e : Entry W} {req : Request} {σ : Bytes → Bytes}
    {text : Bytes} (htext : Literal text) (he : e.template = .ofText text htext)
    (h : e.Answers req σ) : req.path = text := by
  have hpath := h.path
  rw [he] at hpath
  exact hpath.trans (List.append_nil text)

theorem Entry.answers_ofText {e : Entry W} {req : Request} {text : Bytes} (htext : Literal text)
    (he : e.template = .ofText text htext) (hmethod : e.method = req.method)
    (hpath : req.path = text) (σ : Bytes → Bytes) : e.Answers req σ where
  method := hmethod
  fits := he ▸ ⟨List.forall_mem_nil _, fun _ h => by cases h⟩
  path := by
    rw [he, hpath]
    exact (List.append_nil text).symm

theorem Entry.Makes.exists_answers_iff {e : Entry W} {r : Route W} (h : e.Makes r) {req : Request} :
    r.Answers req ↔ ∃ σ, e.Answers req σ := by
  rw [Route.Answers, Route.Matches, h.method]
  simp only [h.accepts, splits_iff e.template.distinct]
  constructor
  · rintro ⟨hmethod, values, rest, hpath, σ, hsegments, htail, rfl, -⟩
    exact ⟨σ, hmethod, ⟨hsegments, htail⟩, hpath⟩
  · rintro ⟨σ, hmethod, hfits, hpath⟩
    exact ⟨hmethod, _, _, hpath, σ, hfits.1, hfits.2, rfl, rfl⟩

/-- The parameters of a match are the values of the names. -/
theorem Entry.Makes.lookup {e : Entry W} {r : Route W} (h : e.Makes r) {req : Request}
    {σ : Bytes → Bytes} (hσ : e.Answers req σ) {captures : List Bytes}
    (haccepts : r.pattern.Accepts req.path captures) :
    ∀ name ∈ e.template.names, (r.params captures).lookup name = some (σ name) := by
  obtain ⟨rest, hpath, hsplits⟩ := (h.accepts _ _).mp haccepts
  have hfilled : Splits e.template.tail e.template.segments
      (write σ σ e.template.tail e.template.segments) (e.template.names.map σ) :=
    (splits_iff e.template.distinct).mpr ⟨σ, hσ.fits.1, hσ.fits.2, rfl, rfl⟩
  obtain rfl := List.append_cancel_left (hσ.path.symm.trans hpath)
  -- There is one way to split a path.
  obtain rfl := hsplits.unique e.template.closed hfilled
  exact ((params_iff h.paramNames e.template.distinct).mp rfl).1

/-- A request finds the route of the first call that answers it. -/
theorem exists_matchRequest {before after : List (Entry W)} {e : Entry W}
    {router : List (Route W)} (hmakes : List.Forall₂ Entry.Makes (before ++ e :: after) router)
    {req : Request} {σ : Bytes → Bytes} (hbefore : ∀ q ∈ before, ∀ σ, ¬ q.Answers req σ)
    (he : e.Answers req σ) :
    ∃ r params, matchRequest req router = some (r, params) ∧ e.Makes r ∧
      ∀ name ∈ e.template.names, params.lookup name = some (σ name) := by
  induction before generalizing router with
  | nil =>
    cases hmakes with
    | cons hr hrest =>
      obtain ⟨params, hpath, hmatch⟩ :=
        matchRequest_cons_of_answers (hr.exists_answers_iff.mpr ⟨σ, he⟩) _
      obtain ⟨captures, haccepts, rfl⟩ := exists_accepts_of_matchPath hpath
      exact ⟨_, _, hmatch, hr, hr.lookup he haccepts⟩
  | cons q before ih =>
    rw [List.forall_mem_cons] at hbefore
    cases hmakes with
    | cons hq hrest =>
      have hnot := fun h => (hq.exists_answers_iff.mp h).elim hbefore.1
      rw [matchRequest_cons_of_not hnot]
      exact ih hrest hbefore.2

/-- A request is handled by the first call that answers it. -/
theorem handle_of_answers {k : Kernel W} {before : List (Entry W)} (after : List (Entry W))
    {e : Entry W} (hmakes : List.Forall₂ Entry.Makes (before ++ e :: after) k.router)
    {req : Request} {σ : Bytes → Bytes} (hbefore : ∀ q ∈ before, ∀ σ, ¬ q.Answers req σ)
    (he : e.Answers req σ) (w : W) :
    ∃ params : StringMap, (∀ name ∈ e.template.names, params.lookup name = some (σ name)) ∧
      handle k req w = respond (nest (k.globals ++ e.middleware) e.handler
        { req with routeParams := params } w) := by
  obtain ⟨r, params, hmatch, hr, hlookup⟩ := exists_matchRequest hmakes hbefore he
  refine ⟨params, hlookup, ?_⟩
  rw [handle_of_match hmatch, hr.handler, hr.middleware]

theorem exists_makes {es : List (Entry W)} {router : List (Route W)}
    (hmakes : List.Forall₂ Entry.Makes es router) {r : Route W} (hr : r ∈ router) :
    ∃ e ∈ es, e.Makes r := by
  induction hmakes with
  | nil => cases hr
  | cons h hrest ih =>
    rcases List.mem_cons.mp hr with rfl | hr
    · exact ⟨_, List.mem_cons_self, h⟩
    · obtain ⟨e, he, hmakes⟩ := ih hr
      exact ⟨e, List.mem_cons_of_mem _ he, hmakes⟩

/-- A request is handled by one of the calls that answer it, or changes nothing. -/
theorem handle_cases {k : Kernel W} {es : List (Entry W)}
    (hmakes : List.Forall₂ Entry.Makes es k.router) (req : Request) (w : W) :
    (handle k req w).world = w ∨ ∃ e ∈ es, ∃ σ, e.Answers req σ ∧ ∃ params : StringMap,
      handle k req w = respond (nest (k.globals ++ e.middleware) e.handler
        { req with routeParams := params } w) := by
  by_cases h : ∃ r ∈ k.router, r.Answers req
  · obtain ⟨r, hchosen⟩ := exists_chosen h
    obtain ⟨captures, haccepts, hmatch⟩ := matchRequest_of_chosen hchosen
    obtain ⟨before, after, hrouter, hanswers, -⟩ := hchosen
    obtain ⟨e, he, hr⟩ := exists_makes hmakes (r := r) (by rw [hrouter]; simp)
    obtain ⟨σ, hσ⟩ := hr.exists_answers_iff.mp hanswers
    refine .inr ⟨e, he, σ, hσ, r.params captures, ?_⟩
    rw [handle_of_match hmatch w, hr.handler, hr.middleware]
  · refine .inl ?_
    rw [handle_of_none fun r hr hanswers => h ⟨r, hr, hanswers⟩]

end CppLaravel.Routing
