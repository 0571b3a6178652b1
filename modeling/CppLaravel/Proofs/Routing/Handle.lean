import CppLaravel.Proofs.Routing.Match

/-!
# `CppLaravel.Proofs.Routing.Handle`: what becomes of a request

`nest` says which layer is in which: the first middleware is the outermost one, the handler the
innermost. `Kernel.watch` is the kernel whose layers note, in a log beside the world, when they are
entered, when they call `next` and when the handler is reached; they do the same otherwise
(`handle_watch`). `Tracked` is what such a log of a stack of layers says, and holds of every run by
induction over the stack and, for each layer, over what its middleware does.
-/

set_option autoImplicit false

namespace CppLaravel.Routing

open CppLaravel.Http

variable {W : Type}

/-- The layers around a handler, outermost first. -/
def nest : List (Middleware W) → Handler W → Handler W
  | [], dest => dest
  | mw :: mws, dest => fun req w => (mw req).run (nest mws dest) w

theorem run_eq_nest (middlewares : List (Middleware W)) (dest : Handler W) :
    Pipeline.run middlewares dest = nest middlewares dest := by
  rw [Pipeline.run, List.foldl_reverse]
  induction middlewares with
  | nil => rfl
  | cons mw mws ih => rw [List.foldr_cons, ih, nest]

/-- What the kernel makes of the outcome of the outermost layer. -/
def respond : Outcome × Request × W → Handled W
  | (.ok res, _, w) => ⟨res, [], w⟩
  | (.error e, req, w) => ⟨internalServerError, unhandled e req, w⟩

/-! ### Layers that are watched -/

/-- What a layer notes, by its depth. -/
inductive Event where
  | entered (layer : Nat)
  | called (layer : Nat)
  | handled
deriving DecidableEq

/-- A world with a log beside it. -/
abbrev Watched (W : Type) := W × List Event

def note (e : Event) (x : Watched W) : Watched W := (x.1, x.2 ++ [e])

/-- The same steps, with a note before each call of `next`. -/
def Layer.watch (i : Nat) : Layer W → Layer (Watched W)
  | finish out req => .finish out req
  | act update rest => .act (fun x => (update x.1, x.2)) fun x => (rest x.1).watch i
  | call req rest =>
    .act (note (.called i)) fun _ => .call req fun out req => (rest out req).watch i

def Middleware.watch (i : Nat) (mw : Middleware W) : Middleware (Watched W) :=
  fun req => .act (note (.entered i)) fun _ => (mw req).watch i

def Handler.watch (h : Handler W) : Handler (Watched W) :=
  fun req x =>
    let (out, req, w) := h req x.1
    (out, req, w, x.2 ++ [.handled])

/-- The middleware from the depth `i` on. -/
def watchFrom (i : Nat) : List (Middleware W) → List (Middleware (Watched W))
  | [] => []
  | mw :: mws => Middleware.watch i mw :: watchFrom (i + 1) mws

def Route.watch (depth : Nat) (r : Route W) : Route (Watched W) :=
  { r with handler := Handler.watch r.handler, middleware := watchFrom depth r.middleware }

def Kernel.watch (k : Kernel W) : Kernel (Watched W) where
  router := k.router.map (Route.watch k.globals.length)
  globals := watchFrom 0 k.globals

theorem watchFrom_append (i : Nat) (mws mws' : List (Middleware W)) :
    watchFrom i (mws ++ mws') = watchFrom i mws ++ watchFrom (i + mws.length) mws' := by
  induction mws generalizing i with
  | nil => rfl
  | cons mw mws ih =>
    rw [List.cons_append, watchFrom, ih, watchFrom, List.cons_append, List.length_cons,
      Nat.add_right_comm, Nat.add_assoc]

/-! ### What a log says -/

/-- A log of layers from the depth `i` up to the depth `n`, where the handler is; `base` is whether
the handler is reached when none of them calls `next`. -/
structure Tracked (base : Prop) (i n : Nat) (log : List Event) : Prop where
  depth : ∀ j, .called j ∈ log → i ≤ j ∧ j < n
  outward : ∀ j, i ≤ j → .called (j + 1) ∈ log → .called j ∈ log
  reached : .handled ∈ log ↔ base ∨ ∃ j, j + 1 = n ∧ .called j ∈ log

namespace Tracked

variable {base : Prop} {i n : Nat} {log log' : List Event}

theorem nil (i n : Nat) : Tracked False i n [] where
  depth := by simp
  outward := by simp
  reached := by simp

theorem append (h : Tracked False i n log) (h' : Tracked False i n log') :
    Tracked False i n (log ++ log') where
  depth j hj := (List.mem_append.mp hj).elim (h.depth j) (h'.depth j)
  outward j hi hj := by
    rcases List.mem_append.mp hj with hj | hj
    · exact List.mem_append_left _ (h.outward j hi hj)
    · exact List.mem_append_right _ (h'.outward j hi hj)
  reached := by
    rw [List.mem_append, h.reached, h'.reached]
    grind

/-- A call of the layers within. -/
theorem call (h : Tracked (i + 1 = n) (i + 1) n log) (hi : i < n) :
    Tracked False i n (.called i :: log) where
  depth j hj := by
    rcases List.mem_cons.mp hj with hj | hj
    · obtain rfl : j = i := by simpa using hj
      exact ⟨le_refl _, hi⟩
    · have := h.depth j hj
      omega
  outward j hij hj := by
    have hj : .called (j + 1) ∈ log := by simpa [show j + 1 ≠ i by omega] using hj
    by_cases hji : j = i
    · simp [hji]
    · exact List.mem_cons_of_mem _ (h.outward j (by omega) hj)
  reached := by
    have := h.reached
    grind

/-- The layer is entered first. -/
theorem enter (h : Tracked False i n log) (hi : i < n) :
    Tracked (i = n) i n (.entered i :: log) where
  depth j hj := h.depth j (by simpa using hj)
  outward j hij hj := by
    have := h.outward j hij (by simpa using hj)
    simpa using this
  reached := by
    have := h.reached
    grind

/-- The handler is reached exactly when every layer calls `next`. -/
theorem handled_iff (h : Tracked (0 = n) 0 n log) :
    .handled ∈ log ↔ ∀ j < n, .called j ∈ log := by
  rw [h.reached]
  constructor
  · rintro (rfl | ⟨k, rfl, hk⟩) j hj
    · omega
    · -- From the innermost layer outward.
      induction Nat.le_of_lt_succ hj using Nat.decreasingInduction with
      | of_succ j _ ih => exact h.outward j (Nat.zero_le _) (ih (by omega))
      | self => exact hk
  · intro hall
    cases n with
    | zero => exact .inl rfl
    | succ n => exact .inr ⟨n, rfl, hall n (Nat.lt_succ_self n)⟩

end Tracked

/-! ### Every run -/

/-- A watched call does what the call does, and appends to the log. -/
def Notes (P : List Event → Prop) (h : Handler W) (h' : Handler (Watched W)) : Prop :=
  ∀ req w log, ∃ log', P log' ∧
    h' req (w, log) = ((h req w).1, (h req w).2.1, (h req w).2.2, log ++ log')

/-- A middleware, by induction on what it does. -/
theorem exists_run_watch {i n : Nat} (hi : i < n) {next : Handler W}
    {next' : Handler (Watched W)} (hnext : Notes (Tracked (i + 1 = n) (i + 1) n) next next')
    (l : Layer W) (w : W) (log : List Event) :
    ∃ log', Tracked False i n log' ∧ (l.watch i).run next' (w, log) =
      ((l.run next w).1, (l.run next w).2.1, (l.run next w).2.2, log ++ log') := by
  induction l generalizing w log with
  | finish out req => exact ⟨[], .nil i n, by rw [List.append_nil]; rfl⟩
  | act update rest ih => exact ih w (update w) log
  | call req rest ih =>
    obtain ⟨inner, hinner, heq⟩ := hnext req w (log ++ [.called i])
    obtain ⟨log', hlog', hrest⟩ := ih (next req w).1 (next req w).2.1 (next req w).2.2
      (log ++ [.called i] ++ inner)
    refine ⟨.called i :: inner ++ log', (hinner.call hi).append hlog', ?_⟩
    simp only [Layer.watch, Layer.run, note, heq]
    rw [hrest]
    simp

/-- A stack of layers, by induction on the stack. -/
theorem nest_watch (mws : List (Middleware W)) (dest : Handler W) (i : Nat) :
    Notes (fun log => Tracked (i = i + mws.length) i (i + mws.length) log ∧ log ≠ [])
      (nest mws dest) (nest (watchFrom i mws) (Handler.watch dest)) := by
  induction mws generalizing i with
  | nil =>
    intro req w log
    refine ⟨[.handled], ⟨⟨by simp, by simp, by simp⟩, by simp⟩, rfl⟩
  | cons mw mws ih =>
    intro req w log
    have hlength : i + (mw :: mws).length = i + 1 + mws.length := by
      rw [List.length_cons]
      omega
    rw [hlength]
    have hi : i < i + 1 + mws.length := by omega
    have hnext : Notes (Tracked (i + 1 = i + 1 + mws.length) (i + 1) (i + 1 + mws.length))
        (nest mws dest) (nest (watchFrom (i + 1) mws) (Handler.watch dest)) := by
      intro req w log
      obtain ⟨log', ⟨htracked, -⟩, heq⟩ := ih (i + 1) req w log
      exact ⟨log', htracked, heq⟩
    obtain ⟨log', htracked, heq⟩ := exists_run_watch hi hnext (mw req) w (log ++ [.entered i])
    refine ⟨.entered i :: log', ⟨htracked.enter hi, by simp⟩, ?_⟩
    show ((mw req).watch i).run _ (w, log ++ [.entered i]) = _
    rw [heq]
    simp [nest]

/-! ### The watched router -/

theorem matchRequest_watch (d : Nat) (req : Request) (routes : List (Route W)) :
    matchRequest req (routes.map (Route.watch d)) =
      (matchRequest req routes).map fun x => (x.1.watch d, x.2) := by
  induction routes with
  | nil => rfl
  | cons r routes ih =>
    have hmethod : (r.watch d).method = r.method := rfl
    have hpath : (r.watch d).matchPath req.path = r.matchPath req.path := rfl
    rw [List.map_cons, matchRequest, matchRequest, ih, hmethod, hpath]
    split
    · rfl
    · cases r.matchPath req.path <;> rfl

theorem methodsOf_watch (d : Nat) (routes : List (Route W)) (path : Bytes) :
    methodsOf (routes.map (Route.watch d)) path = methodsOf routes path := by
  rw [methodsOf, methodsOf, List.filter_map, List.map_map]
  rfl

/-! ### `handle` -/

/-- The `Allow` header: a list, which an empty method at its start leaves as it is. -/
theorem allowHeader_eq (allowed : List Bytes) :
    allowHeader allowed = (bytes ", ").intercalate (allowed.dropWhile (· = [])) := by
  -- Once there is text, every further method follows a comma.
  have hloop : ∀ (ms : List Bytes) (allow : Bytes), allow ≠ [] →
      ms.foldl (fun allow m => (if allow ≠ [] then allow ++ bytes ", " else allow) ++ m) allow =
        (bytes ", ").intercalate (allow :: ms) := by
    intro ms
    induction ms with
    | nil =>
      intro allow _
      simp [List.intercalate]
    | cons m ms ih =>
      intro allow hallow
      rw [List.foldl_cons, if_pos hallow, ih _ (by simp [hallow])]
      cases ms <;> simp [List.intercalate]
  induction allowed with
  | nil => rfl
  | cons m ms ih =>
    by_cases hm : m = []
    · subst hm
      rw [List.dropWhile_cons_of_pos (by simp), ← ih]
      rfl
    · rw [List.dropWhile_cons_of_neg (by simpa using hm), ← hloop ms m hm]
      rfl

theorem handle_of_none {k : Kernel W} {req : Request}
    (h : ∀ r ∈ k.router, ¬ r.Answers req) (w : W) :
    handle k req w =
      ⟨if methodsOf k.router req.path = [] then notFound
        else methodNotAllowed (allowHeader (methodsOf k.router req.path)), [], w⟩ := by
  rw [handle, matchRequest_eq_none h]
  simp only [allowedMethods_eq, List.isEmpty_iff]
  split <;> rfl

theorem handle_of_match {k : Kernel W} {req : Request} {r : Route W} {params : StringMap}
    (h : matchRequest req k.router = some (r, params)) (w : W) :
    handle k req w =
      respond
        (nest (k.globals ++ r.middleware) r.handler { req with routeParams := params } w) := by
  rw [handle, h]
  simp only [run_eq_nest]
  split <;> rename_i heq <;> rw [heq, respond]

/-- The watched kernel answers alike, and its log is that of the layers of the chosen route. -/
theorem handle_watch (k : Kernel W) (req : Request) (w : W) :
    ∃ log, handle k.watch req (w, []) =
        ⟨(handle k req w).response, (handle k req w).stderr, (handle k req w).world, log⟩ ∧
      ((∀ r ∈ k.router, ¬ r.Answers req) → log = []) ∧
      ∀ r, Chosen k.router req r →
        let n := (k.globals ++ r.middleware).length
        Tracked (0 = n) 0 n log ∧ log ≠ [] := by
  by_cases hanswers : ∃ r ∈ k.router, r.Answers req
  · obtain ⟨r, hr⟩ := exists_chosen hanswers
    obtain ⟨captures, -, hmatch⟩ := matchRequest_of_chosen hr
    have hwatch : matchRequest req k.watch.router =
        some (r.watch k.globals.length, r.params captures) := by
      show matchRequest req (k.router.map _) = _
      rw [matchRequest_watch, hmatch]
      rfl
    rw [handle_of_match hmatch, handle_of_match hwatch]
    -- The layers of the route are watched from the outermost inwards.
    obtain ⟨log, htracked, heq⟩ := nest_watch (k.globals ++ r.middleware) r.handler 0
      { req with routeParams := r.params captures } w []
    refine ⟨log, ?_, fun hnone => ?_, fun r' hr' => ?_⟩
    · show respond
        (nest (watchFrom 0 k.globals ++ watchFrom k.globals.length r.middleware) _ _ _) = _
      rw [watchFrom_append, Nat.zero_add] at heq
      rw [show (r.watch k.globals.length).handler = Handler.watch r.handler from rfl, heq]
      obtain ⟨out, req', w'⟩ := nest (k.globals ++ r.middleware) r.handler
        { req with routeParams := r.params captures } w
      cases out <;> rfl
    · obtain ⟨q, hq, hqa⟩ := hanswers
      exact absurd hqa (hnone q hq)
    · -- Only one route is chosen.
      obtain ⟨captures', -, hmatch'⟩ := matchRequest_of_chosen hr'
      obtain rfl : r = r' := congrArg Prod.fst (Option.some.inj (hmatch.symm.trans hmatch'))
      simpa using htracked
  · -- No route answers: no layer is called, and both kernels say which methods would.
    have hnone : ∀ r ∈ k.router, ¬ r.Answers req := fun r hr ha => hanswers ⟨r, hr, ha⟩
    have hwatch : ∀ r ∈ k.watch.router, ¬ r.Answers req := by
      intro r hr
      obtain ⟨q, hq, rfl⟩ := List.mem_map.mp hr
      exact hnone q hq
    refine ⟨[], ?_, fun _ => rfl, fun r hr => ?_⟩
    · have hmethods : methodsOf k.watch.router req.path = methodsOf k.router req.path :=
        methodsOf_watch k.globals.length k.router req.path
      rw [handle_of_none hnone, handle_of_none hwatch, hmethods]
    · obtain ⟨before, after, heq, hr, -⟩ := hr
      exact absurd hr (hnone r (by simp [heq]))

/-- What `handle` does with a request. No route matches the path: 404, and no layer runs. One does,
but none with the method: 405, with the methods of those that match, each once. Otherwise the first
route that answers runs within its own middleware, and that within the global middleware; the
handler is reached exactly when every layer calls `next`; a throw that none of them catches is a
500 (`respond`). -/
theorem handle_answers (k : Kernel W) (req : Request) (w : W) :
    ∃ log, handle k.watch req (w, []) =
        ⟨(handle k req w).response, (handle k req w).stderr, (handle k req w).world, log⟩ ∧
      ((∀ r ∈ k.router, ¬ r.Matches req.path) ↔
        (handle k req w).response = notFound ∧ log = []) ∧
      (((∃ r ∈ k.router, r.Matches req.path) ∧ ∀ r ∈ k.router, ¬ r.Answers req) ↔
        (handle k req w).response = methodNotAllowed
          ((bytes ", ").intercalate ((methodsOf k.router req.path).dropWhile (· = []))) ∧
        log = []) ∧
      ((∃ r ∈ k.router, r.Answers req) → ∃ r, Chosen k.router req r) ∧
      ∀ r, Chosen k.router req r →
        let stack := k.globals ++ r.middleware
        (∃ captures, r.pattern.Accepts req.path captures ∧
          handle k req w = respond
            (nest stack r.handler { req with routeParams := r.params captures } w)) ∧
        (.handled ∈ log ↔ ∀ i < stack.length, .called i ∈ log) := by
  obtain ⟨log, hwatch, hsilent, hlog⟩ := handle_watch k req w
  -- A log is empty only where no route answers.
  have hempty : log = [] → ∀ r ∈ k.router, ¬ r.Answers req := by
    intro hnil r hr hanswers
    obtain ⟨r', hr'⟩ := exists_chosen ⟨r, hr, hanswers⟩
    exact (hlog r' hr').2 hnil
  have hstatus : ∀ allow, notFound ≠ methodNotAllowed allow := by
    intro allow h
    have h : (404 : Int) = 405 := congrArg Response.status h
    exact absurd h (by decide)
  refine ⟨log, hwatch, ⟨fun h => ?_, fun h => ?_⟩, ⟨fun h => ?_, fun h => ?_⟩, exists_chosen,
    fun r hr => ⟨?_, (hlog r hr).1.handled_iff⟩⟩
  · have hnone : ∀ r ∈ k.router, ¬ r.Answers req := fun r hr ha => h r hr ha.2
    rw [handle_of_none hnone, if_pos (methodsOf_eq_nil_iff.mpr h)]
    exact ⟨rfl, hsilent hnone⟩
  · have hresponse := h.1
    rw [handle_of_none (hempty h.2)] at hresponse
    by_contra hmatches
    rw [if_neg (mt methodsOf_eq_nil_iff.mp hmatches)] at hresponse
    exact hstatus _ hresponse.symm
  · obtain ⟨⟨r, hr, hpath⟩, hnone⟩ := h
    have hmethods : methodsOf k.router req.path ≠ [] :=
      fun hnil => methodsOf_eq_nil_iff.mp hnil r hr hpath
    rw [handle_of_none hnone, if_neg hmethods, allowHeader_eq]
    exact ⟨rfl, hsilent hnone⟩
  · have hresponse := h.1
    have hnone := hempty h.2
    rw [handle_of_none hnone] at hresponse
    refine ⟨?_, hnone⟩
    by_contra hmatches
    have hnil : methodsOf k.router req.path = [] :=
      methodsOf_eq_nil_iff.mpr fun r hr hpath => hmatches ⟨r, hr, hpath⟩
    rw [if_pos hnil] at hresponse
    exact hstatus _ hresponse
  · obtain ⟨captures, haccepts, hmatch⟩ := matchRequest_of_chosen hr
    exact ⟨captures, haccepts, handle_of_match hmatch w⟩

/-- Of two routes for `/` without a method and with `GET`, the header lists the second only. -/
theorem empty_method_unlisted :
    let dest : Handler Unit := fun req w => (.ok {}, req, w)
    let req : Request := { method := bytes "POST", path := bytes "/", headers := ∅, body := [] }
    (((add [] [] (bytes "/") dest []).bind fun routes =>
        add routes (bytes "GET") (bytes "/") dest []).map fun routes =>
      let res := (handle ⟨routes, []⟩ req ()).response
      (methodsOf routes (bytes "/"), res.status, res.headers.lookup (bytes "Allow"))) =
    some ([[], bytes "GET"], 405, some (bytes "GET")) := by
  decide

end CppLaravel.Routing
