import CppLaravel.Proofs.CocoWeb.App
import CppLaravel.Proofs.Http.HandleClient

/-!
# `CppLaravel.Proofs.CocoWeb.Wire`: save-states over sockets

`upload_download`: what one client uploads, another downloads, through the server, its reading of
requests, the router, the token and the database, whatever other clients send before, between and
after.
-/

set_option autoImplicit false

namespace CppLaravel.CocoWeb

open CppLaravel.Database CppLaravel.Http CppLaravel.Lib CppLaravel.Routing

variable {site : Site} {k : Kernel World}

theorem serveAll_append (k : Kernel World) (db : MemoryConnection) (as bs : List Arrival) :
    serveAll k db (as ++ bs) = serveAll k (serveAll k db as) bs := List.foldl_append ..

variable (site k) in
/-- Whatever a client sends, the database is changed by a request of the kernel, if at all. -/
theorem exists_arrivals (db : MemoryConnection) (c : Client) :
    ∃ as : List Arrival, (c.served (server site k) db).world.db = serveAll k db as := by
  rcases (server site k).world_handleClient c.remoteAddr c.recvs c.sends ⟨db, c.clock⟩ with
    h | ⟨req, h | ⟨handler, hhandler, h⟩⟩
  · exact ⟨[], congrArg World.db h⟩
  · exact ⟨[⟨req, c.clock⟩], congrArg World.db h⟩
  · -- The terminal leaves it.
    refine ⟨[], ?_⟩
    rw [Client.served, h]
    simp only [server] at hhandler
    split at hhandler
    · cases hhandler
      rfl
    · cases hhandler

variable (site k) in
/-- Clients are requests, as many as reach the kernel. -/
theorem serveClients_eq (db : MemoryConnection) (cs : List Client) :
    ∃ as : List Arrival, serveClients (server site k) db cs = serveAll k db as := by
  induction cs generalizing db with
  | nil => exact ⟨[], rfl⟩
  | cons c cs ih =>
    obtain ⟨as, has⟩ := exists_arrivals site k db c
    obtain ⟨bs, hbs⟩ := ih (serveAll k db as)
    refine ⟨as ++ bs, ?_⟩
    rw [serveAll_append, ← hbs, ← has]
    rfl

/-- A client that takes a response in full. -/
def Client.Takes (site : Site) (c : Client) (res : Response) : Prop :=
  Http.Takes c.sends (formatHttpResponse res (site.order res.headers)).length

/-- What a client has read of a response. -/
def readBack (site : Site) (res : Response) : Received :=
  ⟨res.status, site.order res.headers ++ framing res, res.body⟩

/-- The answer to an upload. -/
def stored (n : Nat) : Response :=
  Response.json (bytes "\x7b\"id\":" ++ natToString n ++ bytes "\x7d") 201

theorem lookup_insert_contentType {value name v : Bytes}
    (h : (({} : Response).headers.insert (bytes "Content-Type") value).lookup name = some v) :
    name = bytes "Content-Type" ∧ v = value := by
  by_cases hname : name = bytes "Content-Type"
  · rw [hname, Finmap.lookup_insert] at h
    exact ⟨hname, (Option.some.inj h).symm⟩
  · rw [Finmap.lookup_insert_of_ne _ hname] at h
    exact absurd ((Finmap.mem_singleton _ _ _).mp (Finmap.mem_of_lookup_eq_some h)) hname

theorem plainHeaders_stored (n : Nat) : PlainHeaders (stored n) := by
  intro name v h
  obtain ⟨rfl, rfl⟩ := lookup_insert_contentType h
  exact ⟨⟨⟨by decide, by decide, by decide⟩, by decide, ⟨by decide, by decide, by decide⟩⟩,
    fun hlength => absurd hlength (by decide)⟩

theorem plainHeaders_responseBytes (data : Bytes) : PlainHeaders (responseBytes data) := by
  intro name v h
  obtain ⟨rfl, rfl⟩ := lookup_insert_contentType h
  exact ⟨⟨⟨by decide, by decide, by decide⟩, by decide, ⟨by decide, by decide, by decide⟩⟩,
    fun hlength => absurd hlength (by decide)⟩

theorem keeps_of_path {req : Request} (h : req.path ≠ bytes "/terminal") :
    (server site k).Keeps req := fun _ => if_neg h

/-- What a client is answered. -/
theorem receive_served (horder : ∀ m, Visits (site.order m) m) {c : Client} {req : Request}
    (hasks : Asks {} c.recvs req) (hpath : req.path ≠ bytes "/terminal") {db : MemoryConnection}
    {res : Response}
    (hres : (handle k { req.bare with remoteAddr := c.remoteAddr } ⟨db, c.clock⟩).response = res)
    (hplain : PlainHeaders res) (htakes : c.Takes site res) :
    receive (c.served (server site k) db).sent = some (readBack site res) ∧
      (c.served (server site k) db).world =
        (handle k { req.bare with remoteAddr := c.remoteAddr } ⟨db, c.clock⟩).world := by
  obtain ⟨stderr, h⟩ := HttpServer.handleClient_of_asks (s := server site k) hasks
    (keeps_of_path hpath) c.remoteAddr c.sends (w := ⟨db, c.clock⟩) rfl
  rw [Client.served, h]
  subst hres
  exact ⟨HttpServer.receive_respond (s := server site k) (horder _) hplain htakes stderr _, rfl⟩

/-- **What one client uploads, another downloads.** Whatever clients have sent before, a client
that uploads a body with a token for it reads the number of its save-state; and whatever clients
send then, one that asks for this number reads the body, byte for byte, in however many pieces all
of it is sent. -/
theorem upload_download (hk : bootstrap site = some k) (horder : ∀ m, Visits (site.order m) m)
    (before after : List Client) (up down : Client) {req req' : Request} {n : Nat}
    (hn : n = ((serveClients (server site k) seeded before).all (bytes "savestates")).length + 1)
    (hfits : n < 2 ^ 63) (hup : Asks {} up.recvs req) (hstores : StoresSave site ⟨req, up.clock⟩)
    (huptakes : up.Takes site (stored n)) (hdown : Asks {} down.recvs req')
    (hmethod : req'.method = bytes "GET") (hpath : req'.path = savePath (natToString n))
    (hdowntakes : down.Takes site (responseBytes req.body)) :
    let s := server site k
    let db := serveClients s seeded before
    receive (up.served s db).sent = some (readBack site (stored n)) ∧
      receive (down.served s (serveClients s (up.served s db).world.db after)).sent =
        some (readBack site (responseBytes req.body)) := by
  intro s db
  obtain ⟨as, has⟩ := serveClients_eq site k seeded before
  have hcount : ((serveAll k seeded as).all (bytes "savestates")).length =
      (saves site as).length := by
    rw [MemoryConnection.all, (holds_serveAll hk as).1.tables, numbered, List.length_map,
      List.length_zipIdx, List.length_map]
  rw [has, hcount] at hn
  -- The request as it arrives.
  let a : Arrival := ⟨{ req.bare with remoteAddr := up.remoteAddr }, up.clock⟩
  have ha : StoresSave site a := hstores
  have hresponse : (handle k a.req ⟨db, up.clock⟩).response = stored n := by
    rw [show db = _ from has, hn]
    exact response_postSave hk as ha
  have huppath : req.path ≠ bytes "/terminal" := by
    rw [show req.path = _ from hstores.2.1]
    decide
  obtain ⟨hread, hworld⟩ := receive_served horder hup huppath hresponse (plainHeaders_stored n)
    huptakes
  refine ⟨hread, ?_⟩
  have hdb : (up.served s db).world.db = serveAll k seeded (as ++ [a]) := by
    rw [hworld, serveAll_concat, ← has]
  obtain ⟨bs, hbs⟩ := serveClients_eq site k (serveAll k seeded (as ++ [a])) after
  have hdowndb : serveClients s (up.served s db).world.db after =
      serveAll k seeded (as ++ a :: bs) := by
    rw [hdb, hbs, ← serveAll_append, List.append_assoc]
    rfl
  have hdownpath : req'.path ≠ bytes "/terminal" := by
    rw [hpath]
    exact savePath_ne rfl
  let r : Request := { req'.bare with remoteAddr := down.remoteAddr }
  have hreturned := response_getSave hk as bs ha hn hfits (show r.method = _ from hmethod)
    (show r.path = _ from hpath) down.clock
  rw [hdowndb]
  exact (receive_served horder hdown hdownpath hreturned (plainHeaders_responseBytes _)
    hdowntakes).1

/-! ### One upload -/

/-- A token is found in whatever order the headers are met. -/
theorem bearerToken_of_mem {entries : List (Bytes × Bytes)} {v : Bytes}
    (hmem : (bytes "Authorization", v) ∈ entries)
    (honly : ∀ f ∈ entries, lower f.1 = bytes "authorization" → f = (bytes "Authorization", v))
    (hblank : 32 ∉ v) : CppLaravel.Token.bearerToken entries = v := by
  induction entries with
  | nil => cases hmem
  | cons f entries ih =>
    obtain ⟨hhead, hrest⟩ := List.forall_mem_cons.mp honly
    rw [CppLaravel.Token.bearerToken]
    split
    · rename_i hname
      cases hhead hname.2
      have hbearer : ¬ bytes "Bearer " <+: v := fun h => hblank (h.subset (by decide))
      exact if_neg fun h => hbearer h.2
    · rename_i hname
      have hcase : (bytes "Authorization").length = 13 ∧
          lower (bytes "Authorization") = bytes "authorization" := by decide
      exact ih ((List.mem_cons.mp hmem).resolve_left fun heq => hname (heq ▸ hcase)) hrest

/-- A digest of the length of SHA-256. -/
def digest : Bytes → Bytes := fun _ => List.replicate 32 7

def uploadToken : Bytes := CppLaravel.Token.sign digest saver (bytes "secret")

/-- The headers of an upload. -/
def uploadHeaders : List (Bytes × Bytes) :=
  [(bytes "Authorization", uploadToken), (bytes "Content-Length", bytes "2")]

def uploadRequest : Request where
  method := bytes "POST"
  path := bytes "/api/savestates"
  headers := (Finmap.singleton (bytes "Authorization") uploadToken).insert
    (bytes "Content-Length") (bytes "2")
  body := [0, 255]

def downloadRequest : Request := get (savePath (natToString 1))

/-- A site whose server meets the headers in some order. -/
noncomputable def wired : Site :=
  { demo digest with order := fun headers => (exists_visits headers).choose }

theorem visits_wired (headers : StringMap) : Visits (wired.order headers) headers :=
  (exists_visits headers).choose_spec

theorem visits_uploadHeaders : Visits uploadHeaders uploadRequest.headers :=
  (visits_singleton _ _).insert (by decide) _

/-- The text of an upload, in three pieces. -/
def uploadPieces : List Bytes :=
  [requestHead (bytes "POST") (bytes "/api/savestates") uploadHeaders, blankLine ++ [0], [255]]

def downloadPieces : List Bytes :=
  [bytes "GET /api/savest", bytes "ates/1 HTTP/1.1\r\n\r\n"]

theorem asks_upload : Asks {} uploadPieces uploadRequest := by
  refine ⟨uploadHeaders, bytes "/api/savestates", _, ?_, ?_, rfl, ?_⟩
  · exact {
      method := by decide
      path := by decide
      isTarget := .plain
      visits := visits_uploadHeaders
      plain := List.forall_mem_cons.mpr ⟨⟨⟨by decide, by decide, by decide⟩, by decide,
        ⟨by decide +kernel, by decide +kernel, by decide +kernel⟩⟩, List.forall_mem_cons.mpr
          ⟨⟨⟨by decide, by decide, by decide⟩, by decide, ⟨by decide, by decide, by decide⟩⟩,
            List.forall_mem_nil _⟩⟩
      length := by decide
      exists_length := fun _ => by decide
      not_chunked := by decide
      wire := rfl }
  · exact ⟨by decide +kernel, by decide +kernel, by decide +kernel⟩
  · decide +kernel

theorem asks_download : Asks {} downloadPieces downloadRequest := by
  refine ⟨[], savePath (natToString 1), _, ?_, ?_, rfl, ?_⟩
  · exact {
      method := by decide
      path := by decide
      isTarget := .plain
      visits := ⟨by simp [downloadRequest, get], List.nodup_nil⟩
      plain := List.forall_mem_nil _
      length := List.forall_mem_nil _
      exists_length := fun h => absurd rfl h
      not_chunked := List.forall_mem_nil _
      wire := by decide }
  · exact ⟨by decide, by decide, by decide⟩
  · decide

theorem storesSave_uploadRequest : StoresSave wired ⟨uploadRequest, 0⟩ := by
  refine ⟨rfl, rfl, by decide, authorised_saver ?_⟩
  have hvisits := visits_wired uploadRequest.headers
  refine bearerToken_of_mem ((hvisits.mem_iff _ _).mpr (by decide +kernel)) (fun f hf hname => ?_)
    (by decide +kernel)
  have hmem := (visits_uploadHeaders.mem_iff f.1 f.2).mpr ((hvisits.mem_iff _ _).mp hf)
  rcases List.mem_cons.mp hmem with h | h
  · exact h
  · have hlength : f.1 = bytes "Content-Length" := congrArg Prod.fst (List.mem_singleton.mp h)
    rw [hlength] at hname
    exact absurd hname (by decide)

/-- `send` takes all at once. -/
theorem takes_length {c : Client} {res : Response}
    (h : c.sends = [((formatHttpResponse res (wired.order res.headers)).length : Int)]) :
    c.Takes wired res := by
  have hpos : 0 < (formatHttpResponse res (wired.order res.headers)).length := by
    rw [formatHttpResponse_eq, List.flatMap_cons]
    simp [crlf]
  rw [Client.Takes, h]
  exact ⟨fun n hn => List.mem_singleton.mp hn ▸ Int.natCast_pos.mpr hpos, by simp⟩

theorem upload_download_two : natToString 1 = bytes "1" ∧ ∃ k, bootstrap wired = some k ∧
    ∃ up down : Client, up.recvs = uploadPieces ∧ down.recvs = downloadPieces ∧
      receive (down.served (server wired k) (serveClients (server wired k)
        (up.served (server wired k) seeded).world.db [])).sent =
          some (readBack wired (responseBytes [0, 255])) := by
  refine ⟨rfl, ?_⟩
  obtain ⟨k, hk, -⟩ := exists_bootstrap wired
  let up : Client := ⟨uploadPieces,
    [((formatHttpResponse (stored 1) (wired.order (stored 1).headers)).length : Int)], [], 0⟩
  let down : Client := ⟨downloadPieces, [((formatHttpResponse (responseBytes [0, 255])
    (wired.order (responseBytes [0, 255]).headers)).length : Int)], [], 0⟩
  refine ⟨k, hk, up, down, rfl, rfl, ?_⟩
  exact (upload_download hk visits_wired [] [] up down (n := 1) rfl (by decide) asks_upload
    storesSave_uploadRequest (takes_length rfl) asks_download rfl rfl (takes_length rfl)).2

end CppLaravel.CocoWeb
