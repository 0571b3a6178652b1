import CppLaravel.CocoWeb.App
import CppLaravel.Proofs.Database.MemoryIds
import CppLaravel.Proofs.Routing.Register
import CppLaravel.Proofs.Token.Middleware

/-!
# `CppLaravel.Proofs.CocoWeb.App`: what the application stores and gives back

`tables_of_run`: whatever requests arrive, the save-states are the bodies of those that were
allowed to store one, in their order. `save_returned`: each of them is given back byte for byte
under the id that its request was answered with, for ever. `saved_with_token`: none of them came
without a token that was issued.
-/

set_option autoImplicit false

namespace CppLaravel.CocoWeb

open CppLaravel.Database CppLaravel.Http CppLaravel.Lib CppLaravel.Routing
open CppLaravel.Token (Claims Unforged bearerToken claimsJson eq_sign_of_verify parseClaims
  read_of_verify_sign sign verify)

variable (site : Site)

/-! ### Routes -/

/-- `/assets/{path*}`. -/
def assetTemplate : Template where
  head := bytes "/assets/"
  segments := []
  tail := some (bytes "path")
  words := List.forall_mem_singleton.mpr ⟨by decide, List.all_eq_true.mp (by decide)⟩
  literal := ⟨literal_of_notMem (by decide), List.forall_mem_nil _⟩
  closed := trivial
  distinct := List.nodup_singleton _

/-- `/api/savestates/{id}`. -/
def saveTemplate : Template where
  head := bytes "/api/savestates/"
  segments := [(bytes "id", [])]
  tail := none
  words := List.forall_mem_singleton.mpr ⟨by decide, List.all_eq_true.mp (by decide)⟩
  literal := ⟨literal_of_notMem (by decide),
    fun _ hx => List.mem_singleton.mp hx ▸ literal_of_notMem (by decide)⟩
  closed := ⟨.inr ⟨rfl, rfl, rfl⟩, trivial⟩
  distinct := List.nodup_singleton _

/-- A route without names. -/
def plain (method text : Bytes) (h : 123 ∉ text) (handler : Handler World)
    (middleware : List (Middleware World)) : Entry World :=
  ⟨.ofText text (literal_of_notMem h), method, handler, middleware⟩

/-- The registrations with their templates. -/
def entries : List (Entry World) :=
  [ plain (bytes "GET") (bytes "/") (by decide) (index site) [],
    ⟨assetTemplate, bytes "GET", asset site, []⟩,
    plain (bytes "GET") (bytes "/api/items") (by decide) (listItems site) [],
    plain (bytes "POST") (bytes "/api/items") (by decide) createItem
      [requiresAbility site (bytes "items:write")],
    plain (bytes "POST") (bytes "/api/savestates") (by decide) createSave
      [requiresAbility site (bytes "saves:write")],
    ⟨saveTemplate, bytes "GET", getSave site, []⟩ ]

theorem entries_registrations : (entries site).map Entry.registration = registrations site := rfl

/-- `bootstrap` does not fail. -/
theorem exists_bootstrap : ∃ k, bootstrap site = some k ∧ k.globals = [] ∧
    List.Forall₂ Entry.Makes (entries site) k.router := by
  obtain ⟨made, hmade, hmakes⟩ := registerAll_eq (entries site) []
  rw [entries_registrations] at hmade
  exact ⟨{ router := made, globals := [] }, by rw [bootstrap, hmade]; rfl, rfl, hmakes⟩

/-! ### One request -/

/-- The token of a request carries an ability. -/
def Authorised (ability : Bytes) (a : Arrival) : Prop :=
  (Token.requiresAbility site.sha256 ability site.tokenSecret a.clock
    (site.order a.req.headers)).isNone

instance (ability : Bytes) (a : Arrival) : Decidable (Authorised site ability a) :=
  inferInstanceAs (Decidable (_ = true))

/-- A request that stores a save-state. -/
def StoresSave (a : Arrival) : Prop :=
  a.req.method = bytes "POST" ∧ a.req.path = bytes "/api/savestates" ∧ a.req.body ≠ [] ∧
    Authorised site (bytes "saves:write") a

/-- A request that creates an item. -/
def CreatesItem (a : Arrival) : Prop :=
  a.req.method = bytes "POST" ∧ a.req.path = bytes "/api/items" ∧ itemName a.req ≠ [] ∧
    Authorised site (bytes "items:write") a

instance (a : Arrival) : Decidable (StoresSave site a) :=
  inferInstanceAs (Decidable (_ ∧ _ ∧ _ ∧ _))

instance (a : Arrival) : Decidable (CreatesItem site a) :=
  inferInstanceAs (Decidable (_ ∧ _ ∧ _ ∧ _))

/-- What a request does to the database. -/
def effect (db : MemoryConnection) (a : Arrival) : MemoryConnection :=
  if StoresSave site a then (db.insert (bytes "savestates") (saveRow a.req)).2
  else if CreatesItem site a then (db.insert (bytes "items") (itemRow (itemName a.req))).2
  else db

variable {site} {k : Kernel World}

/-- What the token middleware answers itself. -/
def forbidden : Response := { status := 403, body := bytes "Forbidden" }

theorem nest_requiresAbility (ability : Bytes) (handler : Handler World) (a : Arrival)
    (db : MemoryConnection) (params : StringMap) :
    nest [requiresAbility site ability] handler { a.req with routeParams := params } ⟨db, a.clock⟩ =
      if Authorised site ability a then
        handler { a.req with routeParams := params } ⟨db, a.clock⟩
      else (.ok forbidden, { a.req with routeParams := params }, ⟨db, a.clock⟩) := by
  cases h : Token.requiresAbility site.sha256 ability site.tokenSecret a.clock
      (site.order a.req.headers) with
  | none =>
    rw [if_pos (by rw [Authorised, h]; rfl)]
    simp [nest, requiresAbility, Layer.run, h]
  | some refusal =>
    have hrefusal : refusal = forbidden := by
      rw [Token.requiresAbility] at h
      split at h
      · exact (Option.some.inj h).symm
      · split at h
        · cases h
        · exact (Option.some.inj h).symm
    rw [if_neg (by rw [Authorised, h]; exact Bool.false_ne_true), ← hrefusal]
    simp [nest, requiresAbility, Layer.run, h]

/-- The routes with their templates. -/
theorem makes_of_bootstrap (hk : bootstrap site = some k) :
    k.globals = [] ∧ List.Forall₂ Entry.Makes (entries site) k.router := by
  obtain ⟨k', hk', h⟩ := exists_bootstrap site
  obtain rfl := Option.some.inj (hk.symm.trans hk')
  exact h

theorem not_answers_of_method {e : Entry World} {req : Request} (h : e.method ≠ req.method)
    (σ : Bytes → Bytes) : ¬ e.Answers req σ := fun he => h he.method

theorem not_answers_plain {method text : Bytes} {htext : 123 ∉ text} {handler : Handler World}
    {middleware : List (Middleware World)} {req : Request} (h : req.path ≠ text)
    (σ : Bytes → Bytes) : ¬ (plain method text htext handler middleware).Answers req σ :=
  fun he => h (he.path_ofText (literal_of_notMem htext) rfl)

theorem answers_plain {method text : Bytes} {htext : 123 ∉ text} {handler : Handler World}
    {middleware : List (Middleware World)} {req : Request} (hmethod : req.method = method)
    (hpath : req.path = text) : (plain method text htext handler middleware).Answers req id :=
  Entry.answers_ofText (literal_of_notMem htext) rfl hmethod.symm hpath id

theorem mem_entries {e : Entry World} (he : e ∈ entries site) :
    e = plain (bytes "GET") (bytes "/") (by decide) (index site) [] ∨
    e = ⟨assetTemplate, bytes "GET", asset site, []⟩ ∨
    e = plain (bytes "GET") (bytes "/api/items") (by decide) (listItems site) [] ∨
    e = plain (bytes "POST") (bytes "/api/items") (by decide) createItem
      [requiresAbility site (bytes "items:write")] ∨
    e = plain (bytes "POST") (bytes "/api/savestates") (by decide) createSave
      [requiresAbility site (bytes "saves:write")] ∨
    e = ⟨saveTemplate, bytes "GET", getSave site, []⟩ := by
  simpa only [entries, List.mem_cons, List.not_mem_nil, or_false] using he

theorem world_pureHandler (f : Request → World → Outcome) (req : Request) (w : World) :
    (respond (nest [] (pureHandler f) req w)).world = w := by
  change (respond (f req w, req, w)).world = w
  cases f req w <;> rfl

theorem handle_postSave (hk : bootstrap site = some k) {a : Arrival}
    (hmethod : a.req.method = bytes "POST") (hpath : a.req.path = bytes "/api/savestates")
    (db : MemoryConnection) : ∃ params : StringMap, handle k a.req ⟨db, a.clock⟩ =
      respond (nest [requiresAbility site (bytes "saves:write")] createSave
        { a.req with routeParams := params } ⟨db, a.clock⟩) := by
  obtain ⟨hglobals, hmakes⟩ := makes_of_bootstrap hk
  have hget : bytes "GET" ≠ a.req.method := hmethod ▸ by decide
  have hbefore : ∀ q ∈ (entries site).take 4, ∀ σ, ¬ q.Answers a.req σ := by
    refine List.forall_mem_cons.mpr ⟨not_answers_of_method hget, List.forall_mem_cons.mpr
      ⟨not_answers_of_method hget, List.forall_mem_cons.mpr ⟨not_answers_of_method hget,
        List.forall_mem_cons.mpr ⟨not_answers_plain ?_, List.forall_mem_nil _⟩⟩⟩⟩
    rw [hpath]
    decide
  obtain ⟨params, -, h⟩ := handle_of_answers ((entries site).drop 5) hmakes hbefore
    (answers_plain hmethod hpath) ⟨db, a.clock⟩
  refine ⟨params, ?_⟩
  rw [h, hglobals]
  rfl

theorem handle_postItem (hk : bootstrap site = some k) {a : Arrival}
    (hmethod : a.req.method = bytes "POST") (hpath : a.req.path = bytes "/api/items")
    (db : MemoryConnection) : ∃ params : StringMap, handle k a.req ⟨db, a.clock⟩ =
      respond (nest [requiresAbility site (bytes "items:write")] createItem
        { a.req with routeParams := params } ⟨db, a.clock⟩) := by
  obtain ⟨hglobals, hmakes⟩ := makes_of_bootstrap hk
  have hget : bytes "GET" ≠ a.req.method := hmethod ▸ by decide
  have hbefore : ∀ q ∈ (entries site).take 3, ∀ σ, ¬ q.Answers a.req σ :=
    List.forall_mem_cons.mpr ⟨not_answers_of_method hget, List.forall_mem_cons.mpr
      ⟨not_answers_of_method hget, List.forall_mem_cons.mpr ⟨not_answers_of_method hget,
        List.forall_mem_nil _⟩⟩⟩
  obtain ⟨params, -, h⟩ := handle_of_answers ((entries site).drop 4) hmakes hbefore
    (answers_plain hmethod hpath) ⟨db, a.clock⟩
  refine ⟨params, ?_⟩
  rw [h, hglobals]
  rfl

/-- **What a request does to the database**: it stores what it may store, and nothing else. -/
theorem db_handle (hk : bootstrap site = some k) (db : MemoryConnection) (a : Arrival) :
    (handle k a.req ⟨db, a.clock⟩).world.db = effect site db a := by
  rw [effect]
  by_cases hsave : StoresSave site a
  · obtain ⟨hmethod, hpath, hbody, hauth⟩ := hsave
    obtain ⟨params, h⟩ := handle_postSave hk hmethod hpath db
    rw [h, nest_requiresAbility, if_pos hauth, if_pos ⟨hmethod, hpath, hbody, hauth⟩]
    simp [createSave, hbody, respond, saveRow]
  rw [if_neg hsave]
  by_cases hitem : CreatesItem site a
  · obtain ⟨hmethod, hpath, hname, hauth⟩ := hitem
    obtain ⟨params, h⟩ := handle_postItem hk hmethod hpath db
    rw [h, nest_requiresAbility, if_pos hauth, if_pos ⟨hmethod, hpath, hname, hauth⟩]
    have hname' : itemName { a.req with routeParams := params } = itemName a.req := rfl
    simp [createItem, hname, hname', respond]
  rw [if_neg hitem]
  obtain ⟨hglobals, hmakes⟩ := makes_of_bootstrap hk
  rcases handle_cases hmakes a.req ⟨db, a.clock⟩ with h | ⟨e, he, σ, hσ, params, h⟩
  · rw [h]
  rw [h, hglobals, List.nil_append]
  rcases mem_entries he with rfl | rfl | rfl | rfl | rfl | rfl
  · exact congrArg World.db (world_pureHandler _ _ _)
  · rfl
  · exact congrArg World.db (world_pureHandler _ _ _)
  · have hpath := hσ.path_ofText (literal_of_notMem (by decide)) rfl
    change (respond (nest [requiresAbility site (bytes "items:write")] createItem _ _)).world.db = _
    rw [nest_requiresAbility]
    split
    · rename_i hauth
      have hname : itemName { a.req with routeParams := params } = [] :=
        by_contra fun hname => hitem ⟨hσ.method.symm, hpath, hname, hauth⟩
      simp [createItem, hname, respond]
    · rfl
  · have hpath := hσ.path_ofText (literal_of_notMem (by decide)) rfl
    change (respond (nest [requiresAbility site (bytes "saves:write")] createSave _ _)).world.db = _
    rw [nest_requiresAbility]
    split
    · rename_i hauth
      have hbody : a.req.body = [] :=
        by_contra fun hbody => hsave ⟨hσ.method.symm, hpath, hbody, hauth⟩
      simp [createSave, hbody, respond]
    · rfl
  · exact congrArg World.db (world_pureHandler _ _ _)

/-! ### Runs -/

variable (site) in
/-- The requests that have stored a save-state. -/
def saves (as : List Arrival) : List Arrival := as.filter (StoresSave site ·)

variable (site) in
/-- The names of the items, in the order of their creation. -/
def names (as : List Arrival) : List Bytes :=
  [bytes "first", bytes "second"]
    ++ (as.filter (CreatesItem site ·)).map fun a => itemName a.req

/-- Rows under the ids from one on. -/
def numbered (rows : List Row) : List Row :=
  rows.zipIdx.map fun x => x.1.set (bytes "id") (.int (x.2 + 1 : Nat))

theorem numbered_concat (rows : List Row) (row : Row) : numbered (rows ++ [row]) =
    numbered rows ++ [row.set (bytes "id") (.int (rows.length + 1 : Nat))] := by
  simp [numbered, List.zipIdx_append]

/-- A table that was only ever inserted into. -/
structure Holds (table : Bytes) (rows : List Row) (db : MemoryConnection) : Prop where
  tables : db.tables table = numbered rows
  nextId : db.nextId table = rows.length

theorem Holds.insert {table : Bytes} {rows : List Row} {db : MemoryConnection}
    (h : Holds table rows db) (row : Row) :
    Holds table (rows ++ [row]) (db.insert table row).2 where
  tables := by
    rw [MemoryConnection.tables_insert, h.tables, h.nextId, numbered_concat]
    rfl
  nextId := by
    rw [MemoryConnection.nextId_insert, h.nextId, List.length_append]
    rfl

theorem Holds.insert_ne {table table' : Bytes} {rows : List Row} {db : MemoryConnection}
    (h : Holds table rows db) (hne : table ≠ table') (row : Row) :
    Holds table rows (db.insert table' row).2 where
  tables := (MemoryConnection.tables_insert_ne hne row).trans h.tables
  nextId := (MemoryConnection.nextId_insert_ne hne row).trans h.nextId

theorem saves_ne_items : bytes "savestates" ≠ bytes "items" := by decide

/-- The two requests that write are not the same. -/
theorem not_createsItem_of_storesSave {a : Arrival} (h : StoresSave site a) :
    ¬ CreatesItem site a := by
  intro h'
  have hpath := h.2.1.symm.trans h'.2.1
  revert hpath
  decide

theorem saves_concat (as : List Arrival) (a : Arrival) : saves site (as ++ [a]) =
    if StoresSave site a then saves site as ++ [a] else saves site as := by
  rw [saves, List.filter_append]
  split
  · rename_i h
    simp [h, saves]
  · rename_i h
    simp [h, saves]

theorem names_concat (as : List Arrival) (a : Arrival) : names site (as ++ [a]) =
    if CreatesItem site a then names site as ++ [itemName a.req] else names site as := by
  rw [names, List.filter_append]
  split
  · rename_i h
    simp [h, names]
  · rename_i h
    simp [h, names]

theorem serveAll_concat (k : Kernel World) (db : MemoryConnection) (as : List Arrival)
    (a : Arrival) : serveAll k db (as ++ [a]) =
      (handle k a.req ⟨serveAll k db as, a.clock⟩).world.db := by
  rw [serveAll, List.foldl_append]
  rfl

/-- The two tables after a run. -/
theorem holds_serveAll (hk : bootstrap site = some k) (as : List Arrival) :
    Holds (bytes "savestates") ((saves site as).map fun a => saveRow a.req)
      (serveAll k seeded as) ∧
    Holds (bytes "items") ((names site as).map itemRow) (serveAll k seeded as) := by
  induction as using List.reverseRecOn with
  | nil => exact ⟨⟨rfl, rfl⟩, ⟨rfl, rfl⟩⟩
  | append_singleton as a ih =>
    obtain ⟨hsaves, hitems⟩ := ih
    rw [serveAll_concat, db_handle hk, effect, saves_concat, names_concat]
    by_cases hsave : StoresSave site a
    · rw [if_pos hsave, if_pos hsave, if_neg (not_createsItem_of_storesSave hsave),
        List.map_append]
      exact ⟨hsaves.insert _, hitems.insert_ne saves_ne_items.symm _⟩
    rw [if_neg hsave, if_neg hsave]
    by_cases hitem : CreatesItem site a
    · rw [if_pos hitem, if_pos hitem, List.map_append]
      exact ⟨hsaves.insert_ne saves_ne_items _, hitems.insert _⟩
    · rw [if_neg hitem, if_neg hitem]
      exact ⟨hsaves, hitems⟩

/-- **Nothing else is ever written.** Whatever requests arrive, the save-states are those of the
requests that sent a body with a token for it, in their order and under the ids from one on; and
the items are the two at the start and those of the requests that sent a name with a token. -/
theorem tables_of_run (hk : bootstrap site = some k) (as : List Arrival) :
    (serveAll k seeded as).all (bytes "savestates") =
      numbered ((saves site as).map fun a => saveRow a.req) ∧
    (serveAll k seeded as).all (bytes "items") = numbered ((names site as).map itemRow) :=
  ⟨(holds_serveAll hk as).1.tables, (holds_serveAll hk as).2.tables⟩

/-! ### Reading a save-state -/

theorem rowId_numbered (row : Row) (n : Nat) :
    MemoryConnection.rowId (row.set (bytes "id") (.int (n + 1 : Nat))) =
      some ((n + 1 : Nat) : Int) :=
  MemoryConnection.rowId_set row _

/-- A row is found under the id after its position. -/
theorem getKey_numbered (rows : List Row) (n : Nat) :
    getKey MemoryConnection.rowId (some ((n + 1 : Nat) : Int)) (numbered rows) =
      rows[n]?.map fun row => row.set (bytes "id") (.int (n + 1 : Nat)) := by
  induction rows using List.reverseRecOn with
  | nil => rfl
  | append_singleton rows row ih =>
    rw [numbered_concat, getKey_append, ih, getKey_cons, getKey_nil, rowId_numbered]
    rcases lt_trichotomy n rows.length with h | rfl | h
    · rw [List.getElem?_append_left h, List.getElem?_eq_getElem h]
      rfl
    · simp
    · have hne : some ((rows.length + 1 : Nat) : Int) ≠ some ((n + 1 : Nat) : Int) := by
        rw [ne_eq, Option.some_inj]
        omega
      rw [if_neg hne, List.getElem?_eq_none (by omega), List.getElem?_eq_none]
      · rfl
      · rw [List.length_append, List.length_singleton]
        omega

/-- No row has an id that is not positive. -/
theorem getKey_numbered_of_le {id : Int} (hid : id ≤ 0) (rows : List Row) :
    getKey MemoryConnection.rowId (some id) (numbered rows) = none := by
  rw [getKey, List.find?_eq_none]
  intro r hr
  obtain ⟨⟨row, n⟩, -, rfl⟩ := List.mem_map.mp hr
  rw [rowId_numbered, decide_eq_true_eq, Option.some_inj]
  omega

/-- The request whose save-state has an id. -/
def saveOf (saved : List Arrival) (id : Int) : Option Arrival :=
  if 0 < id then saved[(id - 1).toNat]? else none

theorem find_save {saved : List Arrival} {db : MemoryConnection}
    (h : Holds (bytes "savestates") (saved.map fun a => saveRow a.req) db) (id : Int) :
    db.find (bytes "savestates") id =
      (saveOf saved id).map fun a => (saveRow a.req).set (bytes "id") (.int id) := by
  rw [MemoryConnection.find, h.tables, saveOf]
  split
  · rename_i hid
    obtain ⟨n, rfl⟩ : ∃ n : Nat, id = ((n + 1 : Nat) : Int) := ⟨(id - 1).toNat, by omega⟩
    have hn : (((n + 1 : Nat) : Int) - 1).toNat = n := by omega
    rw [getKey_numbered, hn, List.getElem?_map, Option.map_map]
    rfl
  · rename_i hid
    rw [getKey_numbered_of_le (not_lt.mp hid)]
    rfl

theorem getString_saveRow (req : Request) (id : Int) :
    ((saveRow req).set (bytes "id") (.int id)).getString (bytes "data") = some req.body := by
  have hid : bytes "data" ≠ bytes "id" := by decide
  rw [Row.getString, Row.get?_set, if_neg hid, saveRow, Row.get?_set, if_pos rfl]
  rfl

/-- What is answered for the text of an id, after some save-states. -/
def answerSave (saved : List Arrival) (text : Bytes) : Response :=
  match stoll text with
  | none => Response.json (bytes "\x7b\"error\":\"bad id\"\x7d") 422
  | some id =>
    match saveOf saved id.toInt with
    | none => Response.json (bytes "\x7b\"error\":\"not found\"\x7d") 404
    | some a => responseBytes a.req.body

theorem getSave_eq {saved : List Arrival} {req : Request} {w : World} {text : Bytes}
    (h : Holds (bytes "savestates") (saved.map fun a => saveRow a.req) w.db)
    (htext : req.routeParams.lookup (bytes "id") = some text) :
    getSave site req w = (.ok (answerSave saved text), req, w) := by
  rw [getSave, pureHandler, htext, Option.bind_some, answerSave]
  cases stoll text with
  | none => rfl
  | some id =>
    dsimp only
    rw [find_save h]
    cases saveOf saved id.toInt with
    | none => rfl
    | some a =>
      rw [Option.map_some]
      dsimp only
      rw [getString_saveRow]

/-- The path of a save-state. -/
def savePath (text : Bytes) : Bytes := bytes "/api/savestates/" ++ text

theorem take_savePath (text : Bytes) : (savePath text).take 6 = bytes "/api/s" := rfl

theorem savePath_ne {text path : Bytes} (h : decide (path.take 6 = bytes "/api/s") = false) :
    savePath text ≠ path := fun heq =>
  decide_eq_false_iff_not.mp h (heq ▸ take_savePath text)

/-- A path of a static file is another. -/
theorem savePath_ne_append {text rest : Bytes} :
    savePath text ≠ assetTemplate.head ++ rest := by
  intro h
  have htake : bytes "/api/s" = bytes "/asset" := congrArg (List.take 6) h
  revert htake
  decide

theorem answers_getSave {req : Request} {text : Bytes} (hmethod : req.method = bytes "GET")
    (hpath : req.path = savePath text) (hne : text ≠ []) (hslash : 47 ∉ text) :
    (⟨saveTemplate, bytes "GET", getSave site, []⟩ : Entry World).Answers req fun _ => text where
  method := hmethod.symm
  fits := ⟨fun _ _ => ⟨hne, hslash⟩, fun _ h => by cases h⟩
  path := by
    rw [hpath, savePath]
    exact congrArg (bytes "/api/savestates/" ++ ·) (by simp [saveTemplate, write])

/-- **Every answer about a save-state.** After any run the answer for an id is the body of the
request that stored it, byte for byte; an id that was not given is not found, and a text that is
no number is refused. -/
theorem getSave_of_run (hk : bootstrap site = some k) (as : List Arrival) {req : Request}
    {text : Bytes} (hmethod : req.method = bytes "GET") (hpath : req.path = savePath text)
    (hne : text ≠ []) (hslash : 47 ∉ text) (clock : Int64) :
    (handle k req ⟨serveAll k seeded as, clock⟩).response =
      answerSave (saves site as) text := by
  obtain ⟨hglobals, hmakes⟩ := makes_of_bootstrap hk
  have hpost : bytes "POST" ≠ req.method := hmethod ▸ by decide
  -- No path of the other routes begins in the same way.
  have hbefore : ∀ q ∈ (entries site).take 5, ∀ σ, ¬ q.Answers req σ := by
    refine List.forall_mem_cons.mpr ⟨not_answers_plain ?_, List.forall_mem_cons.mpr ⟨?_,
      List.forall_mem_cons.mpr ⟨not_answers_plain ?_, List.forall_mem_cons.mpr
        ⟨not_answers_of_method hpost, List.forall_mem_cons.mpr ⟨not_answers_of_method hpost,
          List.forall_mem_nil _⟩⟩⟩⟩⟩
    · exact fun h => savePath_ne rfl (hpath.symm.trans h)
    · exact fun σ hσ => savePath_ne_append (hpath.symm.trans hσ.path)
    · exact fun h => savePath_ne rfl (hpath.symm.trans h)
  obtain ⟨params, hlookup, h⟩ := handle_of_answers ((entries site).drop 6) hmakes hbefore
    (answers_getSave hmethod hpath hne hslash) ⟨serveAll k seeded as, clock⟩
  have htext := hlookup (bytes "id") (List.mem_singleton_self _)
  rw [h, hglobals]
  show (respond (getSave site _ _)).response = _
  rw [getSave_eq (holds_serveAll hk as).1 htext]
  rfl

/-- `POST` is answered with the id that the save-state is found under. -/
theorem response_postSave (hk : bootstrap site = some k) (as : List Arrival) {a : Arrival}
    (ha : StoresSave site a) :
    (handle k a.req ⟨serveAll k seeded as, a.clock⟩).response =
      Response.json (bytes "\x7b\"id\":" ++ natToString ((saves site as).length + 1)
        ++ bytes "\x7d") 201 := by
  obtain ⟨hmethod, hpath, hbody, hauth⟩ := ha
  obtain ⟨params, h⟩ := handle_postSave hk hmethod hpath (serveAll k seeded as)
  have hid := (holds_serveAll hk as).1.nextId
  rw [h, nest_requiresAbility, if_pos hauth, createSave, if_neg hbody]
  simp only [MemoryConnection.insert, hid, List.length_map, respond]
  rfl

theorem saves_append (as bs : List Arrival) : saves site (as ++ bs) =
    saves site as ++ saves site bs := List.filter_append ..

theorem saves_cons {a : Arrival} (ha : StoresSave site a) (as : List Arrival) :
    saves site (a :: as) = a :: saves site as :=
  List.filter_cons_of_pos (decide_eq_true ha)

/-- What was stored is read under its number. -/
theorem response_getSave (hk : bootstrap site = some k) (as bs : List Arrival) {a : Arrival}
    (ha : StoresSave site a) {n : Nat} (hn : n = (saves site as).length + 1) (hfits : n < 2 ^ 63)
    {req : Request} (hmethod : req.method = bytes "GET")
    (hpath : req.path = savePath (natToString n)) (clock : Int64) :
    (handle k req ⟨serveAll k seeded (as ++ a :: bs), clock⟩).response =
      responseBytes a.req.body := by
  rw [getSave_of_run hk (as ++ a :: bs) hmethod hpath (natToString_ne_nil n)
    (not_mem_natToString (by decide) n)]
  have hread : (stoll (natToString n)).map Int64.toInt = some (n : Int) :=
    stoll_of_inInt64 (v := n) ⟨by omega, by omega⟩
  obtain ⟨id, hid, hvalue⟩ := Option.map_eq_some_iff.mp hread
  -- It is the one after those that were there before.
  have hsaves : saves site (as ++ a :: bs) = saves site as ++ a :: saves site bs := by
    rw [saves_append, saves_cons ha]
  have hsave : saveOf (saves site (as ++ a :: bs)) id.toInt = some a := by
    have hindex : (((n : Nat) : Int) - 1).toNat = (saves site as).length := by omega
    rw [hvalue, saveOf, if_pos (by omega), hindex, hsaves,
      List.getElem?_append_right (le_refl _), Nat.sub_self]
    rfl
  rw [answerSave, hid]
  dsimp only
  rw [hsave]

/-- **A save-state is given back byte for byte, for ever.** Whatever has arrived before, a request
that may store a body is answered with the number after the last; and whatever arrives then, with
any tokens, in any order and at any time, a `GET` with that number is answered with its body. -/
theorem save_returned (hk : bootstrap site = some k) (as bs : List Arrival) {a : Arrival}
    (ha : StoresSave site a) {n : Nat} (hn : n = (saves site as).length + 1) (hfits : n < 2 ^ 63)
    {req : Request} (hmethod : req.method = bytes "GET")
    (hpath : req.path = savePath (natToString n)) (clock : Int64) :
    (handle k a.req ⟨serveAll k seeded as, a.clock⟩).response =
        Response.json (bytes "\x7b\"id\":" ++ natToString n ++ bytes "\x7d") 201 ∧
      (handle k req ⟨serveAll k seeded (as ++ a :: bs), clock⟩).response =
        responseBytes a.req.body :=
  ⟨hn ▸ response_postSave hk as ha, response_getSave hk as bs ha hn hfits hmethod hpath clock⟩

/-! ### The items -/

/-- The text of one item. -/
def itemText (name : Bytes) (n : Nat) : Bytes :=
  bytes "\x7b\"id\":" ++ natToString (n + 1) ++ bytes ",\"name\":\"" ++ jsonEscape name
    ++ bytes "\"\x7d"

theorem itemJson_numbered (name : Bytes) (n : Nat) :
    itemJson ((itemRow name).set (bytes "id") (.int (n + 1 : Nat))) = some (itemText name n) := by
  have hid : bytes "name" ≠ bytes "id" := by decide
  rw [itemJson, Row.getInt, Row.get?_set, if_pos rfl, Row.getString, Row.get?_set, if_neg hid,
    itemRow, Row.get?_set, if_pos rfl]
  rfl

/-- The loop does not throw. -/
theorem itemsJson_eq (items : List (Bytes × Nat)) (first : Bool) :
    itemsJson (items.map fun x => (itemRow x.1).set (bytes "id") (.int (x.2 + 1 : Nat))) first =
      some ((if first ∨ items = [] then [] else bytes ",")
        ++ (bytes ",").intercalate (items.map fun x => itemText x.1 x.2)) := by
  induction items generalizing first with
  | nil => cases first <;> rfl
  | cons x items ih =>
    rw [List.map_cons, itemsJson, itemJson_numbered, Option.bind_some, ih, Option.map_some]
    cases items with
    | nil => cases first <;> simp
    | cons y items => cases first <;> simp [List.intercalate_cons_cons]

theorem numbered_names (names : List Bytes) : numbered (names.map itemRow) =
    names.zipIdx.map fun x => (itemRow x.1).set (bytes "id") (.int (x.2 + 1 : Nat)) := by
  rw [numbered, List.zipIdx_map, List.map_map]
  rfl

theorem listItems_eq {names : List Bytes} {req : Request} {w : World}
    (h : Holds (bytes "items") (names.map itemRow) w.db) :
    listItems site req w = (.ok (Response.json (bytes "[" ++ (bytes ",").intercalate
      ((names.zipIdx.take (limit req names.length)).map fun x => itemText x.1 x.2)
        ++ bytes "]") 200), req, w) := by
  rw [listItems, pureHandler, MemoryConnection.all, h.tables, numbered_names]
  dsimp only
  rw [List.length_map, List.length_zipIdx, ← List.map_take, itemsJson_eq]
  rfl

/-- **The list of items**: after any run, the first of the names in the order in which they were
created, as many as the query asks for, each under its number. -/
theorem items_of_run (hk : bootstrap site = some k) (as : List Arrival) {req : Request}
    (hmethod : req.method = bytes "GET") (hpath : req.path = bytes "/api/items") (clock : Int64) :
    (handle k req ⟨serveAll k seeded as, clock⟩).response =
      Response.json (bytes "[" ++ (bytes ",").intercalate
        (((names site as).zipIdx.take (limit req (names site as).length)).map fun x =>
          itemText x.1 x.2) ++ bytes "]") 200 := by
  obtain ⟨hglobals, hmakes⟩ := makes_of_bootstrap hk
  have hbefore : ∀ q ∈ (entries site).take 2, ∀ σ, ¬ q.Answers req σ := by
    refine List.forall_mem_cons.mpr ⟨not_answers_plain ?_, List.forall_mem_cons.mpr ⟨?_,
      List.forall_mem_nil _⟩⟩
    · rw [hpath]
      decide
    · intro σ hσ
      have htake : bytes "/api/i" = bytes "/asset" :=
        congrArg (List.take 6) (hpath.symm.trans hσ.path)
      revert htake
      decide
  obtain ⟨params, -, h⟩ := handle_of_answers ((entries site).drop 3) hmakes hbefore
    (answers_plain hmethod hpath) ⟨serveAll k seeded as, clock⟩
  rw [h, hglobals]
  show (respond (listItems site _ _)).response = _
  rw [listItems_eq (holds_serveAll hk as).2]
  rfl

/-! ### Tokens -/

/-- The token that a request presents. -/
def Arrival.token (site : Site) (a : Arrival) : Bytes :=
  bearerToken (site.order a.req.headers)

/-- A request that is let through shows a token that was signed with the ability. -/
theorem exists_signed_of_authorised {issued : Claims → Prop} {ability : Bytes} {a : Arrival}
    (hunforged : Unforged site.sha256 issued site.tokenSecret (a.token site))
    (h : Authorised site ability a) :
    ∃ c, issued c ∧ (ability ∈ c.abilities ∨ bytes "*" ∈ c.abilities) ∧
      a.token site = sign site.sha256 c site.tokenSecret := by
  rw [Authorised, Option.isNone_iff_eq_none, CppLaravel.Token.requiresAbility] at h
  split at h
  · cases h
  · rename_i read hverify
    split at h
    · rename_i hcan
      obtain ⟨c, hissued, htoken⟩ := eq_sign_of_verify site.sha256 hunforged hverify
      have hsigned : bearerToken (site.order a.req.headers) = _ := htoken
      rw [hsigned] at hverify
      have hread := read_of_verify_sign site.sha256 hverify
      rw [hread, Claims.can, List.any_eq_true] at hcan
      obtain ⟨x, hx, hable⟩ := hcan
      have hx := CppLaravel.Token.parsed_abilities_subset c hx
      rw [Bool.or_eq_true, decide_eq_true_eq, decide_eq_true_eq] at hable
      refine ⟨c, hissued, ?_, htoken⟩
      rcases hable with rfl | rfl
      · exact .inl hx
      · exact .inr hx
    · cases h

theorem mem_numbered {rows : List Row} {row : Row} (h : row ∈ numbered rows) :
    ∃ row' ∈ rows, ∃ n : Nat, row = row'.set (bytes "id") (.int (n + 1 : Nat)) := by
  obtain ⟨⟨row', n⟩, hmem, rfl⟩ := List.mem_map.mp h
  exact ⟨row', (List.mem_zipIdx hmem).2.2 ▸ List.getElem_mem _, n, rfl⟩

/-- **Nothing is stored without a signature.** If no token that is presented in a run is forged,
every save-state after it was sent with a token that was issued for that, or for everything. -/
theorem saved_with_token (hk : bootstrap site = some k) {issued : Claims → Prop}
    {as : List Arrival}
    (hunforged : ∀ a ∈ as, Unforged site.sha256 issued site.tokenSecret (a.token site))
    {row : Row} (hrow : row ∈ (serveAll k seeded as).all (bytes "savestates")) :
    ∃ a ∈ as, row.getString (bytes "data") = some a.req.body ∧ ∃ c, issued c ∧
      (bytes "saves:write" ∈ c.abilities ∨ bytes "*" ∈ c.abilities) ∧
      a.token site = sign site.sha256 c site.tokenSecret := by
  rw [MemoryConnection.all, (holds_serveAll hk as).1.tables] at hrow
  obtain ⟨_, hmem, n, rfl⟩ := mem_numbered hrow
  obtain ⟨a, ha, rfl⟩ := List.mem_map.mp hmem
  obtain ⟨ha, hstores⟩ := List.mem_filter.mp ha
  exact ⟨a, ha, getString_saveRow a.req _,
    exists_signed_of_authorised (hunforged a ha) (of_decide_eq_true hstores).2.2.2⟩

/-! ### One site -/

section
variable (sha256 : Bytes → Bytes)

/-- Without files, and with one header of a request to look at. -/
def demo : Site where
  publicDir := bytes "public"
  tokenSecret := bytes "secret"
  fs := fun _ => none
  files := fun _ => none
  sha256 := sha256
  order := fun headers =>
    ((headers.lookup (bytes "Authorization")).map (bytes "Authorization", ·)).toList
  outOfRange := bytes "_Map_base::at"

def saver : Claims := ⟨bytes "u", [bytes "saves:write"], 0, 0⟩

/-- A body that is sent with a token. -/
def upload (body : Bytes) : Arrival where
  req :=
    { method := bytes "POST"
      path := bytes "/api/savestates"
      headers := Finmap.singleton (bytes "Authorization")
        (bytes "Bearer " ++ sign sha256 saver (bytes "secret"))
      body := body }
  clock := 0

theorem token_upload (body : Bytes) : (upload sha256 body).token (demo sha256) =
    sign sha256 saver (bytes "secret") := by
  have horder : (demo sha256).order (upload sha256 body).req.headers =
      [(bytes "Authorization", bytes "Bearer " ++ sign sha256 saver (bytes "secret"))] := by
    simp [demo, upload]
  rw [Arrival.token, horder]
  exact CppLaravel.Token.bearerToken_singleton (by rw [CppLaravel.Token.sign_eq]; simp)

/-- The token lets its bearer save. -/
theorem authorised_saver {site : Site} {a : Arrival}
    (h : a.token site = sign site.sha256 saver site.tokenSecret) :
    Authorised site (bytes "saves:write") a := by
  have hexp : (parseClaims (claimsJson saver)).exp = 0 := by
    rw [parseClaims, CppLaravel.Token.extractInt_exp]
    rfl
  have habilities : (parseClaims (claimsJson saver)).abilities = [bytes "saves:write"] := by
    rw [parseClaims, CppLaravel.Token.extractStringArray_abilities]
    rfl
  rw [Arrival.token] at h
  rw [Authorised, CppLaravel.Token.requiresAbility, h,
    CppLaravel.Token.verify_sign_of_exp_zero site.sha256 hexp]
  dsimp only
  rw [Claims.can, habilities]
  rfl

theorem storesSave_upload {body : Bytes} (h : body ≠ []) :
    StoresSave (demo sha256) (upload sha256 body) :=
  ⟨rfl, rfl, h, authorised_saver (token_upload sha256 body)⟩

/-- A request without a body or a token. -/
def get (path : Bytes) : Request where
  method := bytes "GET"
  path := path
  headers := ∅
  body := []

theorem saves_upload {body : Bytes} (h : body ≠ []) :
    saves (demo sha256) [upload sha256 body] = [upload sha256 body] :=
  List.filter_cons_of_pos (decide_eq_true (storesSave_upload sha256 h))

theorem bootstrap_demo : ∃ k, bootstrap (demo sha256) = some k :=
  (exists_bootstrap (demo sha256)).imp fun _ h => h.1

end

theorem tables_of_run_upload : ([0, 255] : Bytes) ≠ [] ∧ ∀ sha256, ∃ k,
    bootstrap (demo sha256) = some k ∧
    (serveAll k seeded [upload sha256 [0, 255]]).all (bytes "savestates") =
      numbered [saveRow (upload sha256 [0, 255]).req] := by
  refine ⟨by decide, fun sha256 => ?_⟩
  obtain ⟨k, hk⟩ := bootstrap_demo sha256
  have h := (tables_of_run hk [upload sha256 [0, 255]]).1
  rw [saves_upload sha256 (by decide)] at h
  exact ⟨k, hk, h⟩

/-- Two bodies, and the second again. -/
theorem save_returned_upload : natToString 2 = bytes "2" ∧ ∀ sha256, ∃ k,
    bootstrap (demo sha256) = some k ∧
    (handle k (get (savePath (natToString 2))) ⟨serveAll k seeded ([upload sha256 [0, 255]] ++
      upload sha256 [7] :: [upload sha256 [1]]), 0⟩).response = responseBytes [7] := by
  refine ⟨rfl, fun sha256 => ?_⟩
  obtain ⟨k, hk⟩ := bootstrap_demo sha256
  have hn : 2 = (saves (demo sha256) [upload sha256 [0, 255]]).length + 1 := by
    rw [saves_upload sha256 (by decide)]
    rfl
  exact ⟨k, hk, (save_returned hk [upload sha256 [0, 255]] [upload sha256 [1]]
    (storesSave_upload sha256 (List.cons_ne_nil 7 [])) hn (by decide) rfl rfl 0).2⟩

theorem items_of_run_upload : bytes "GET" ≠ bytes "POST" ∧ ∀ sha256, ∃ k,
    bootstrap (demo sha256) = some k ∧
    (handle k (get (bytes "/api/items")) ⟨serveAll k seeded [], 0⟩).response =
      Response.json (bytes "[" ++ itemText (bytes "first") 0 ++ bytes ","
        ++ itemText (bytes "second") 1 ++ bytes "]") 200 := by
  refine ⟨by decide, fun sha256 => ?_⟩
  obtain ⟨k, hk⟩ := bootstrap_demo sha256
  exact ⟨k, hk, items_of_run hk [] rfl rfl 0⟩

theorem saved_with_token_upload : bytes "saves:write" ≠ bytes "*" ∧ ∀ sha256, ∃ k,
    bootstrap (demo sha256) = some k ∧
    ∀ row ∈ (serveAll k seeded [upload sha256 [0, 255]]).all (bytes "savestates"),
      ∃ a ∈ [upload sha256 [0, 255]], row.getString (bytes "data") = some a.req.body := by
  refine ⟨by decide, fun sha256 => ?_⟩
  obtain ⟨k, hk⟩ := bootstrap_demo sha256
  refine ⟨k, hk, fun row hrow => ?_⟩
  have hunforged : ∀ a ∈ [upload sha256 [0, 255]],
      Unforged sha256 (· = saver) (bytes "secret") (a.token (demo sha256)) := by
    intro a ha
    rw [List.mem_singleton.mp ha, token_upload]
    exact CppLaravel.Token.unforged_sign sha256 saver _
  obtain ⟨a, ha, hbody, -⟩ := saved_with_token hk hunforged hrow
  exact ⟨a, ha, hbody⟩

end CppLaravel.CocoWeb
