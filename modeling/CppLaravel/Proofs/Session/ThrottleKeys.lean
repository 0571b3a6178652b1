import CppLaravel.Proofs.Session.Throttle

/-!
# `CppLaravel.Proofs.Session.ThrottleKeys`: whose budget a request uses

The limiter keeps one counter for each key, and the key is the path and the text of the client
with a colon between them. `Clash` says when two pairs of a path and a client have one key.

* `throttleKey_eq_iff`: the keys of two requests are equal exactly when their pairs clash.
* `throttleAll_filter`: requests with other keys change no answer.
* `isolated_iff`: every pair has a budget of its own exactly when no two pairs clash.
-/

set_option autoImplicit false

namespace CppLaravel.Session

open CppLaravel.Cache CppLaravel.Http CppLaravel.Lib

/-- A client of the limiter. -/
inductive Client where
  | peer (address : Bytes)
  | session (cookie : Bytes)
  | anonymous
deriving DecidableEq

/-- The text by which the limiter knows a client. -/
def Client.text : Client → Bytes
  | peer address => address
  | session cookie => cookie
  | anonymous => bytes "anon"

/-- Whose request it is: the peer's or, without one, that of the session cookie. -/
def clientOf (req : Request) (opts : CookieOptions) : Client :=
  if req.remoteAddr ≠ [] then .peer req.remoteAddr
  else
    match req.cookies.lookup opts.name with
    | some value => .session value
    | none => .anonymous

/-- The path and the client of a request. -/
def pairOf (opts : CookieOptions) (req : Request) : Bytes × Client :=
  (req.path, clientOf req opts)

/-- The path of `q` takes the path of `p`, a colon and a part `x` of its client; what is left of
the client of `p` after `x` and a colon is the client of `q`. -/
def Overlaps (p q : Bytes × Client) : Prop :=
  ∃ x, q.1 = p.1 ++ 58 :: x ∧ p.2.text = x ++ 58 :: q.2.text

/-- Two pairs that the limiter takes for one. -/
def Clash (p q : Bytes × Client) : Prop :=
  p.1 = q.1 ∧ p.2.text = q.2.text ∨ Overlaps p q ∨ Overlaps q p

/-- The key of a pair. -/
def pairKey (p : Bytes × Client) : Bytes :=
  bytes "throttle:" ++ (p.1 ++ 58 :: p.2.text)

theorem throttleKey_eq (req : Request) (opts : CookieOptions) :
    throttleKey req opts = pairKey (pairOf opts req) := by
  have htext : throttleClient req opts = (clientOf req opts).text := by
    unfold throttleClient clientOf
    split
    · rfl
    · cases req.cookies.lookup opts.name <;> rfl
  rw [throttleKey, htext, List.append_assoc, List.append_assoc]
  rfl

/-- Two texts around a colon. -/
theorem append_colon_eq {a b s t : Bytes} (h : a ++ 58 :: s = b ++ 58 :: t) :
    a = b ∧ s = t ∨ ∃ x, b = a ++ 58 :: x ∧ s = x ++ 58 :: t ∨ a = b ++ 58 :: x ∧
      t = x ++ 58 :: s := by
  rcases List.append_eq_append_iff.mp h with ⟨x, hb, hs⟩ | ⟨x, ha, ht⟩
  · cases x with
    | nil =>
      rw [List.nil_append, List.cons.injEq] at hs
      exact .inl ⟨by rw [hb, List.append_nil], hs.2⟩
    | cons y x =>
      rw [List.cons_append, List.cons.injEq] at hs
      obtain ⟨rfl, hs⟩ := hs
      exact .inr ⟨x, .inl ⟨hb, hs⟩⟩
  · cases x with
    | nil =>
      rw [List.nil_append, List.cons.injEq] at ht
      exact .inl ⟨by rw [ha, List.append_nil], ht.2.symm⟩
    | cons y x =>
      rw [List.cons_append, List.cons.injEq] at ht
      obtain ⟨rfl, ht⟩ := ht
      exact .inr ⟨x, .inr ⟨ha, ht⟩⟩

theorem Overlaps.pairKey_eq {p q : Bytes × Client} (h : Overlaps p q) : pairKey p = pairKey q := by
  obtain ⟨x, hpath, htext⟩ := h
  rw [pairKey, pairKey, hpath, htext]
  simp

theorem pairKey_eq_iff {p q : Bytes × Client} : pairKey p = pairKey q ↔ Clash p q := by
  constructor
  · intro h
    rcases append_colon_eq (List.append_cancel_left h) with h | ⟨x, h | h⟩
    · exact .inl h
    · exact .inr (.inl ⟨x, h⟩)
    · exact .inr (.inr ⟨x, h⟩)
  · intro h
    rcases h with ⟨hpath, htext⟩ | h | h
    · rw [pairKey, pairKey, hpath, htext]
    · exact h.pairKey_eq
    · exact h.pairKey_eq.symm

/-- Two requests use one counter exactly when their pairs clash. -/
theorem throttleKey_eq_iff {opts : CookieOptions} {r r' : Request} :
    throttleKey r opts = throttleKey r' opts ↔ Clash (pairOf opts r) (pairOf opts r') := by
  rw [throttleKey_eq, throttleKey_eq, pairKey_eq_iff]

/-! ### One counter for each key -/

section Frame

variable {max window : Int} {opts : CookieOptions}

variable (max window) in
/-- The answer, and what is cached under the key, depend only on what was cached under the key. -/
theorem throttle_congr {cache cache' : ArrayCache} {req : Request}
    (h : cache.items (throttleKey req opts) = cache'.items (throttleKey req opts))
    (clock : Readings) :
    (throttle cache max window opts req clock).1 = (throttle cache' max window opts req clock).1 ∧
      (throttle cache max window opts req clock).2.items (throttleKey req opts) =
        (throttle cache' max window opts req clock).2.items (throttleKey req opts) := by
  have hget := ArrayCache.get_congr h clock.get
  rw [throttle_eq, throttle_eq]
  dsimp only
  rw [hget]
  exact ⟨rfl, by simp only [ArrayCache.items_put, if_true]⟩

/-- Under another key nothing changes. -/
theorem items_throttle_of_ne (cache : ArrayCache) {req : Request} {key : Bytes}
    (h : key ≠ throttleKey req opts) (clock : Readings) :
    (throttle cache max window opts req clock).2.items key = cache.items key := by
  rw [throttle_eq]
  dsimp only
  rw [ArrayCache.items_put, if_neg h, ArrayCache.items_get_of_ne h]

variable (max window) in
/-- The requests with one property are answered as they would be without the others, if no other
request has the key of one of them. -/
theorem throttleAll_filter {arrivals : List Arrival} {own : Arrival → Bool} {key : Bytes}
    (hown : ∀ a ∈ arrivals, own a → throttleKey a.req opts = key)
    (hother : ∀ a ∈ arrivals, ¬ own a → throttleKey a.req opts ≠ key)
    {cache cache' : ArrayCache} (h : cache.items key = cache'.items key) :
    ((arrivals.zip (throttleAll max window opts cache arrivals)).filter
        fun x => own x.1).map Prod.snd =
      throttleAll max window opts cache' (arrivals.filter own) := by
  induction arrivals generalizing cache cache' with
  | nil => rfl
  | cons a arrivals ih =>
    rw [List.forall_mem_cons] at hown hother
    show ((((a, (throttle cache max window opts a.req a.clock).1) ::
      arrivals.zip (throttleAll max window opts (throttle cache max window opts a.req a.clock).2
        arrivals)).filter fun x => own x.1).map Prod.snd) = _
    by_cases ha : own a
    · obtain rfl := hown.1 ha
      obtain ⟨hanswer, hitems⟩ := throttle_congr max window h a.clock
      simp only [List.filter_cons, ha, if_true, List.map_cons]
      rw [hanswer, ih hown.2 hother.2 hitems]
      rfl
    · have hne := hother.1 ha
      simp only [List.filter_cons, ha, if_false, Bool.false_eq_true]
      refine ih hown.2 hother.2 ?_
      rw [items_throttle_of_ne cache hne.symm, h]

end Frame

/-! ### A budget for each pair -/

section Budget

variable {opts : CookieOptions} {S : Set Request}

/-- No two pairs of requests of a set clash. -/
def NoClash (opts : CookieOptions) (S : Set Request) : Prop :=
  ∀ r ∈ S, ∀ r' ∈ S, Clash (pairOf opts r) (pairOf opts r') → pairOf opts r = pairOf opts r'

/-- Whatever requests of a set come, at whatever times: those of one pair are admitted as they
would be if no others came. -/
def Isolated (max window : Int) (opts : CookieOptions) (S : Set Request) : Prop :=
  ∀ (cache : ArrayCache) (arrivals : List Arrival), (∀ a ∈ arrivals, a.req ∈ S) → ∀ r ∈ S,
    ((arrivals.zip (throttleAll max window opts cache arrivals)).filter
        fun x => pairOf opts x.1.req = pairOf opts r).map (fun x => x.2.isNone) =
      (throttleAll max window opts cache
        (arrivals.filter fun a => pairOf opts a.req = pairOf opts r)).map Option.isNone

theorem isolated_of_noClash (max window : Int) (h : NoClash opts S) :
    Isolated max window opts S := by
  intro cache arrivals hS r hr
  have hown : ∀ a ∈ arrivals, decide (pairOf opts a.req = pairOf opts r) →
      throttleKey a.req opts = throttleKey r opts := by
    intro a _ hpair
    rw [throttleKey_eq, throttleKey_eq, of_decide_eq_true hpair]
  have hother : ∀ a ∈ arrivals, ¬ decide (pairOf opts a.req = pairOf opts r) →
      throttleKey a.req opts ≠ throttleKey r opts := by
    intro a ha hpair hkey
    exact hpair (decide_eq_true (h _ (hS a ha) r hr (throttleKey_eq_iff.mp hkey)))
  have hanswers := throttleAll_filter max window hown hother
    (rfl : cache.items _ = cache.items _)
  rw [← hanswers, List.map_map]
  rfl

/-- A request at the time `0` of the clock. -/
def atZero (req : Request) : Arrival := ⟨req, 0, 0, 0⟩

/-- Requests that come at once come in order. -/
theorem arriving_atZero {window : Int} (hwindow : 1 ≤ window) {arrivals : List Arrival}
    (h : ∀ a ∈ arrivals, a.clock = ⟨0, 0, 0⟩) : Arriving window arrivals where
  clock a ha := by
    rw [h a ha]
    exact ⟨Int.le_refl 0, by decide⟩
  reads a ha := by
    rw [h a ha]
    exact ⟨Int.le_refl 0, Int.le_refl 0⟩
  prompt a ha := by
    rw [h a ha]
    show (0 : Int) ≤ 0 + window * second
    unfold second
    omega
  inOrder := by
    refine List.pairwise_of_forall_mem_list fun a ha b hb => ?_
    rw [h a ha, h b hb]

/-- When a budget of requests with one key comes at once, and one more, this one is refused. -/
theorem throttleAll_budget {max window : Int} (hmax : 1 ≤ max) (hbound : max < 2 ^ 31 - 1)
    (hwindow : 1 ≤ window) {r r' : Request} (hkey : throttleKey r' opts = throttleKey r opts) :
    ∃ answers res, answers.length = max.toNat ∧
      throttleAll max window opts .empty
        (List.replicate max.toNat (atZero r') ++ [atZero r]) = answers ++ [some res] := by
  let arrivals := List.replicate max.toNat (atZero r') ++ [atZero r]
  have hmem : ∀ a ∈ arrivals, a = atZero r' ∨ a = atZero r := by
    intro a ha
    rcases List.mem_append.mp ha with ha | ha
    · exact .inl (List.eq_of_mem_replicate ha)
    · exact .inr (List.mem_singleton.mp ha)
  have harriving : Arriving window arrivals := by
    refine arriving_atZero hwindow fun a ha => ?_
    rcases hmem a ha with rfl | rfl <;> rfl
  have hseconds : arrivals.map Arrival.seconds = List.replicate max.toNat 0 ++ [0] := by
    simp only [arrivals, List.map_append, List.map_replicate, List.map_cons, List.map_nil]
    rfl
  -- The counter stays below the range of `int`, so it counts.
  have hfew : ∀ c ∈ Window.counts window none (arrivals.map Arrival.seconds),
      c.count < 2 ^ 31 := by
    intro c hc
    have hle : c.count ≤ 0 + (arrivals.map Arrival.seconds).length :=
      Window.count_le_of_mem_counts hc
    rw [hseconds, List.length_append, List.length_replicate, List.length_singleton] at hle
    omega
  have hanswers : throttleAll max window opts .empty arrivals = _ :=
    throttleAll_eq max hwindow (throttleKey r opts) (c := none)
      (fun a ha => by rcases hmem a ha with rfl | rfl; exacts [hkey, rfl]) harriving 0 rfl
      (fun a ha => (harriving.clock a ha).1) hfew
  -- The last request is the one too many.
  have hover : ¬ ((⟨0, max.toNat + 1⟩ : Window).count : Int) ≤ max := by
    show ¬ ((max.toNat + 1 : Nat) : Int) ≤ max
    omega
  refine ⟨List.zipWith (answer max window) (Window.counts window none
    (List.replicate max.toNat 0)) (List.replicate max.toNat 0), tooMany (0 + window - 0), ?_, ?_⟩
  · rw [List.length_zipWith, Window.length_counts, Nat.min_self, List.length_replicate]
  · rw [hanswers, hseconds, Window.counts_append,
      List.zipWith_append (by rw [Window.length_counts])]
    show _ ++ [answer max window (Window.hit window (Window.after window none
      (List.replicate max.toNat 0)) 0) 0] = _
    rw [Window.hit_after_replicate (by omega), answer, if_neg hover]

theorem noClash_of_isolated {max window : Int} (hmax : 1 ≤ max) (hbound : max < 2 ^ 31 - 1)
    (hwindow : 1 ≤ window) (h : Isolated max window opts S) : NoClash opts S := by
  intro r hr r' hr' hclash
  by_contra hne
  obtain ⟨answers, res, hlength, hanswers⟩ :=
    throttleAll_budget hmax hbound hwindow (throttleKey_eq_iff.mpr hclash).symm
  have hS : ∀ a ∈ List.replicate max.toNat (atZero r') ++ [atZero r], a.req ∈ S := by
    intro a ha
    rcases List.mem_append.mp ha with ha | ha
    · rw [List.eq_of_mem_replicate ha]
      exact hr'
    · rw [List.mem_singleton.mp ha]
      exact hr
  have hcut := h .empty _ hS r hr
  -- Only the last request is of this pair.
  have hfront : ∀ l : List (Option Response),
      ((List.replicate max.toNat (atZero r')).zip l).filter
        (fun x => pairOf opts x.1.req = pairOf opts r) = [] := by
    intro l
    refine List.filter_eq_nil_iff.mpr fun x hx => ?_
    rw [List.eq_of_mem_replicate (List.of_mem_zip hx).1]
    exact fun hpair => hne (of_decide_eq_true hpair).symm
  have hown : (List.replicate max.toNat (atZero r') ++ [atZero r]).filter
      (fun a => pairOf opts a.req = pairOf opts r) = [atZero r] := by
    simp [List.filter_append, atZero, Ne.symm hne]
  rw [hanswers, List.zip_append (by rw [List.length_replicate, hlength]), List.filter_append,
    hfront, hown] at hcut
  have hadmitted : (throttleAll max window opts .empty [atZero r]).map Option.isNone = [true] := by
    have harriving : Arriving window [atZero r] :=
      arriving_atZero hwindow (by simp [atZero])
    have hfew : ∀ c ∈ Window.counts window none ([atZero r].map Arrival.seconds),
        c.count < 2 ^ 31 := by
      simp [Window.counts, Window.hit]
    have hanswer : throttleAll max window opts .empty [atZero r] = [answer max window ⟨0, 1⟩ 0] :=
      throttleAll_eq max hwindow (throttleKey r opts) (c := none) (by simp [atZero])
        harriving 0 rfl (by simp [atZero]) hfew
    rw [hanswer, List.map_singleton, isNone_answer]
    exact congrArg (fun b => [b]) (decide_eq_true hmax)
  rw [hadmitted] at hcut
  simp [atZero] at hcut

/-- **Every pair of a path and a client has a budget of its own** exactly when the pairs that come
have no key in common. -/
theorem isolated_iff (max window : Int) (opts : CookieOptions) (S : Set Request) :
    (NoClash opts S → Isolated max window opts S) ∧
      (1 ≤ max → max < 2 ^ 31 - 1 → 1 ≤ window → Isolated max window opts S → NoClash opts S) :=
  ⟨isolated_of_noClash max window, fun hmax hbound hwindow =>
    noClash_of_isolated hmax hbound hwindow⟩

/-- A request for `/a:b` with the cookie `c` uses the budget of one for `/a` with the cookie
`b:c`. -/
theorem colon_shares_budget :
    let request (path cookie : Bytes) : Request :=
      { method := bytes "GET", path := path, headers := ∅, body := [],
        cookies := (∅ : StringMap).insert (bytes "lwsid") cookie }
    let r := request (bytes "/a") (bytes "b:c")
    let r' := request (bytes "/a:b") (bytes "c")
    pairOf {} r' ≠ pairOf {} r ∧
      (throttleAll 1 60 {} .empty [atZero r]).map Option.isNone = [true] ∧
        (throttleAll 1 60 {} .empty [atZero r', atZero r]).map Option.isNone = [true, false] ∧
          ¬ Isolated 1 60 {} {r, r'} := by
  intro request r r'
  have hne : pairOf {} r' ≠ pairOf {} r := by decide
  have hclash : Clash (pairOf {} r') (pairOf {} r) :=
    .inr (.inr ⟨bytes "b", by decide, by decide⟩)
  refine ⟨hne, by decide, by decide, fun h => hne ?_⟩
  exact noClash_of_isolated (by decide) (by decide) (by decide) h r' (.inr rfl) r (.inl rfl) hclash

end Budget

end CppLaravel.Session
