import CppLaravel.Lib.FixedWindow
import CppLaravel.Session.Throttle

/-!
# `CppLaravel.Proofs.Session.Throttle`: the rate limiter counts in fixed windows

The limiter for one client and one path is a counter of `Lib.FixedWindow`, with its hits in whole
seconds of the clock. `Holds` says how the cache keeps the counter: as text, in an entry that lives
for two windows after the last hit. An entry that has expired and one that is older than a window
read alike, since both begin a new window.
-/

set_option autoImplicit false

namespace CppLaravel.Session

open CppLaravel.Cache CppLaravel.Http CppLaravel.Lib

/-- When a request comes, in whole seconds of the clock. -/
def Arrival.seconds (a : Arrival) : Int := a.clock.now / second

/-- The answer over budget. -/
def tooMany (retry : Int) : Response :=
  let r := Response.json (bytes "\x7b\"error\":\"too many requests\"\x7d") 429
  { r with headers := r.headers.insert (bytes "Retry-After") (intToString retry) }

/-- The answer to a hit at the time `now` that leaves the counter `c`. -/
def answer (max window : Int) (c : Window) (now : Int) : Option Response :=
  if c.count ≤ max then none else some (tooMany (c.start + window - now))

/-- The value that is cached for a counter. -/
def windowText (c : Window) : Bytes := natToString c.count ++ bytes "|" ++ intToString c.start

/-- Requests in the order of their coming, at times that the clock can read. A request may be held
up between its readings, but reads the cache within the length of a window; one that takes no time
reads the same three times. -/
structure Arriving (window : Int) (arrivals : List Arrival) : Prop where
  clock : ∀ a ∈ arrivals, 0 ≤ a.clock.now ∧ a.clock.now < 2 ^ 63
  reads : ∀ a ∈ arrivals, a.clock.now ≤ a.clock.get ∧ a.clock.get ≤ a.clock.put
  prompt : ∀ a ∈ arrivals, a.clock.get ≤ a.clock.now + window * second
  inOrder : arrivals.Pairwise fun a b => a.clock.put ≤ b.clock.now

/-- The cache holds the counter under the key, after a last hit that ended at the time `last`. -/
def Holds (cache : ArrayCache) (key : Bytes) (window last : Int) : Option Window → Prop
  | none => cache.items key = none
  | some c => cache.items key = some ⟨windowText c, some (last + window * second * 2)⟩ ∧
      0 ≤ c.start ∧ c.start ≤ last / second ∧ c.start < 2 ^ 63 ∧ c.count < 2 ^ 31

/-- The value of a counter is read back. -/
theorem parseWindow_windowText {c : Window} (hcount : c.count < 2 ^ 31)
    (hstart : inInt64 c.start) :
    parseWindow (windowText c) = some ((c.count : Int), c.start) := by
  have hsep : windowText c = natToString c.count ++ 124 :: intToString c.start := by
    simp [windowText, bytes]
  have hfind : find (windowText c) [124] 0 = some (natToString c.count).length := by
    rw [find_zero, hsep]
    exact firstAt_single (not_mem_natToString rfl c.count) _
  have hleft : substr (windowText c) 0 (natToString c.count).length = natToString c.count := by
    rw [substr, List.drop_zero, hsep, List.take_left]
  have hright : (windowText c).drop ((natToString c.count).length + 1) = intToString c.start := by
    rw [hsep]
    exact List.drop_length_add_append 1
  obtain ⟨start, hread, hvalue⟩ := Option.map_eq_some_iff.mp (stoll_of_inInt64 hstart)
  simp only [parseWindow, hfind, hleft, hright, stoi_natToString hcount, hread, hvalue]

/-- The count and the start after a request, from what `get` has answered. -/
def nextWindow (window now : Int) (current : Option Bytes) : Int × Int :=
  let x := (current.bind parseWindow).getD (0, now)
  if now - x.2 ≥ window then (1, now) else (x.1 + 1, x.2)

/-- `throttle` in one piece. -/
theorem throttle_eq (cache : ArrayCache) (max window : Int) (opts : CookieOptions) (req : Request)
    (clock : Readings) :
    throttle cache max window opts req clock =
      let found := cache.get (throttleKey req opts) clock.get
      let now := clock.now.tdiv second
      let y := nextWindow window now found.1
      (if y.1 > max then
          some (tooMany (if y.2 + window - now > 0 then y.2 + window - now else window))
        else none,
        found.2.put (throttleKey req opts) (intToString y.1 ++ bytes "|" ++ intToString y.2)
          (window * second * 2) clock.put) := by
  unfold throttle nextWindow
  dsimp only
  split
  · -- A new window begins.
    rw [Int.zero_add]
    split <;> rfl
  · split <;> rfl

section Step

variable {cache : ArrayCache} {max window last : Int} {opts : CookieOptions} {a : Arrival}
  {c : Option Window}

/-- A counter that is cached has a start that `stoll` reads. -/
theorem Holds.parse {w : Window} {key : Bytes} (h : Holds cache key window last (some w)) :
    parseWindow (windowText w) = some ((w.count : Int), w.start) := by
  obtain ⟨-, hpos, -, hstart, hcount⟩ := h
  exact parseWindow_windowText hcount ⟨by omega, hstart⟩

/-- The limiter goes on from the counter that is cached, or from a new one where that is over. -/
theorem nextWindow_eq (hwindow : 1 ≤ window)
    (h : Holds cache (throttleKey a.req opts) window last c)
    (hprompt : a.clock.get ≤ a.clock.now + window * second) :
    nextWindow window a.seconds (cache.get (throttleKey a.req opts) a.clock.get).1 =
      (((Window.hit window c a.seconds).count : Int), (Window.hit window c a.seconds).start) := by
  cases c with
  | none =>
    have hitems : cache.items (throttleKey a.req opts) = none := h
    have hnot : ¬ a.seconds - a.seconds ≥ window := by omega
    rw [ArrayCache.get, hitems]
    exact if_neg hnot
  | some w =>
    have hparse := h.parse
    obtain ⟨hitems, -, hstart, -, -⟩ := h
    by_cases hexpired : a.clock.get ≥ last + window * second * 2
    · -- The entry is gone, and its window is over as well.
      have hgone : (cache.get (throttleKey a.req opts) a.clock.get).1 = none := by
        simp only [ArrayCache.get, hitems, ArrayCache.expired, hexpired, decide_true, if_true]
      have hnot : ¬ a.seconds - a.seconds ≥ window := by omega
      have hover : w.start + window ≤ a.seconds := by
        unfold Arrival.seconds second at *
        omega
      rw [hgone, Window.hit_of_le hover]
      exact if_neg hnot
    · have hthere : (cache.get (throttleKey a.req opts) a.clock.get).1 = some (windowText w) := by
        simp only [ArrayCache.get, hitems, ArrayCache.expired, hexpired, decide_false,
          Bool.false_eq_true, if_false]
      rw [hthere, nextWindow, Option.bind_some, hparse, Option.getD_some]
      unfold Window.hit
      dsimp only
      split
      · rfl
      · exact Prod.ext (by simp) rfl

variable (max) in
/-- One request: the limiter answers as the counter says, and the cache holds the counter. -/
theorem throttle_step (hwindow : 1 ≤ window)
    (h : Holds cache (throttleKey a.req opts) window last c) (hlast : last ≤ a.clock.now)
    (hclock : 0 ≤ a.clock.now ∧ a.clock.now < 2 ^ 63)
    (hreads : a.clock.now ≤ a.clock.get ∧ a.clock.get ≤ a.clock.put)
    (hprompt : a.clock.get ≤ a.clock.now + window * second)
    (hfew : (Window.hit window c a.seconds).count < 2 ^ 31) :
    (throttle cache max window opts a.req a.clock).1 =
        answer max window (Window.hit window c a.seconds) a.seconds ∧
      Holds (throttle cache max window opts a.req a.clock).2 (throttleKey a.req opts) window
        a.clock.put (some (Window.hit window c a.seconds)) := by
  have hseconds : a.clock.now.tdiv second = a.seconds := Int.tdiv_eq_ediv_of_nonneg hclock.1
  have hnext := nextWindow_eq hwindow h hprompt
  have hlt : a.seconds < (Window.hit window c a.seconds).start + window :=
    Window.lt_start_hit (by omega) c a.seconds
  -- The window began with this request or an earlier one.
  have hstart : 0 ≤ (Window.hit window c a.seconds).start ∧
      (Window.hit window c a.seconds).start ≤ a.clock.put / second ∧
      (Window.hit window c a.seconds).start < 2 ^ 63 := by
    have hnew : 0 ≤ a.seconds ∧ a.seconds ≤ a.clock.put / second ∧ a.seconds < 2 ^ 63 := by
      unfold Arrival.seconds second
      omega
    cases c with
    | none => exact hnew
    | some w =>
      obtain ⟨-, hpos, hle, hbound, -⟩ := h
      have hlast' : last / second ≤ a.clock.put / second := by
        unfold second
        omega
      unfold Window.hit
      dsimp only
      split
      · exact hnew
      · exact ⟨hpos, hle.trans hlast', hbound⟩
  generalize Window.hit window c a.seconds = w at *
  rw [throttle_eq, hseconds]
  dsimp only
  rw [hnext]
  dsimp only
  have hretry : w.start + window - a.seconds > 0 := by omega
  have hheld : Holds ((cache.get (throttleKey a.req opts) a.clock.get).2.put
      (throttleKey a.req opts) (windowText w) (window * second * 2) a.clock.put)
      (throttleKey a.req opts) window a.clock.put (some w) :=
    ⟨by simp, hstart.1, hstart.2.1, hstart.2.2, hfew⟩
  rw [if_pos hretry]
  unfold answer
  by_cases hover : (w.count : Int) > max
  · rw [if_pos hover, if_neg (by omega)]
    exact ⟨rfl, hheld⟩
  · rw [if_neg hover, if_pos (by omega)]
    exact ⟨rfl, hheld⟩

end Step

section Run

variable {max window : Int} {opts : CookieOptions} {arrivals : List Arrival}

variable (max) in
/-- A run answers as the counter says. -/
theorem throttleAll_eq (hwindow : 1 ≤ window) (key : Bytes)
    (hkey : ∀ a ∈ arrivals, throttleKey a.req opts = key) (harriving : Arriving window arrivals)
    {cache : ArrayCache} {c : Option Window} (last : Int) (h : Holds cache key window last c)
    (hlast : ∀ a ∈ arrivals, last ≤ a.clock.now)
    (hfew : ∀ c' ∈ Window.counts window c (arrivals.map Arrival.seconds), c'.count < 2 ^ 31) :
    throttleAll max window opts cache arrivals =
      List.zipWith (answer max window) (Window.counts window c (arrivals.map Arrival.seconds))
        (arrivals.map Arrival.seconds) := by
  induction arrivals generalizing cache c last with
  | nil => rfl
  | cons a arrivals ih =>
    obtain ⟨hclock, hreads, hprompt, hinOrder⟩ := harriving
    rw [List.forall_mem_cons] at hkey hclock hreads hprompt hlast
    obtain ⟨hafter, hinOrder⟩ := List.pairwise_cons.mp hinOrder
    obtain ⟨rfl, hkey⟩ := hkey
    simp only [List.map_cons, Window.counts, List.forall_mem_cons] at hfew ⊢
    obtain ⟨hanswer, hheld⟩ := throttle_step max hwindow h hlast.1 hclock.1 hreads.1
      hprompt.1 hfew.1
    show (throttle cache max window opts a.req a.clock).1 ::
      throttleAll max window opts (throttle cache max window opts a.req a.clock).2 arrivals = _
    rw [hanswer, List.zipWith_cons_cons]
    exact congrArg _ (ih hkey ⟨hclock.2, hreads.2, hprompt.2, hinOrder⟩ _ hheld hafter hfew.2)

theorem isNone_answer (c : Window) (now : Int) :
    (answer max window c now).isNone = decide (c.count ≤ max) := by
  unfold answer
  split
  · rename_i h
    simp [h]
  · rename_i h
    simp [h]

/-! ### What is answered at given times -/

variable (max window) in
/-- What the counter answers at these times. -/
def answersAt (nows : List Int) : List (Option Response) :=
  List.zipWith (answer max window) (Window.counts window none nows) nows

theorem getElem?_answersAt (before : List Int) (now : Int) (after : List Int) :
    (answersAt max window (before ++ now :: after))[before.length]? =
      some (answer max window (Window.hit window (Window.after window none before) now) now) := by
  have hcounter := Window.getElem?_counts window none before now after
  rw [answersAt, List.getElem?_zipWith, hcounter]
  simp

theorem isNone_answersAt (nows : List Int) :
    (answersAt max window nows).map Option.isNone =
      (Window.counts window none nows).map fun c => decide (c.count ≤ max) := by
  have hlength : (Window.counts window none nows).length = nows.length :=
    Window.length_counts none nows
  refine List.ext_getElem (by simp [answersAt, hlength]) fun i hi hi' => ?_
  simp [answersAt, isNone_answer]

/-- In no window do more than `max` requests pass. -/
theorem length_passed_le (hmax : 1 ≤ max) (hwindow : 1 ≤ window) (nows : List Int) (start : Int) :
    (((answersAt max window nows).zip (Window.counts window none nows)).filter
      fun x => x.1.isNone ∧ x.2.start = start).length ≤ max.toNat := by
  have hadmitted : (answersAt max window nows).map Option.isNone =
      (Window.counts window none nows).map fun c => decide (c.count ≤ max) := isNone_answersAt nows
  have hlength : (Window.counts window none nows).length = nows.length :=
    Window.length_counts none nows
  have hzip : ((answersAt max window nows).zip (Window.counts window none nows)).map Prod.snd =
      Window.counts window none nows :=
    List.map_snd_zip (by rw [answersAt, List.length_zipWith, hlength, Nat.min_self])
  -- What passes are the hits within the budget.
  have hfilter : ((answersAt max window nows).zip (Window.counts window none nows)).filter
      (fun x => x.1.isNone ∧ x.2.start = start) =
        ((answersAt max window nows).zip (Window.counts window none nows)).filter
          ((fun c => c.start = start ∧ c.count ≤ max.toNat) ∘ Prod.snd) := by
    refine List.filter_congr fun x hx => ?_
    obtain ⟨i, hi, rfl⟩ := List.getElem_of_mem hx
    rw [List.length_zip] at hi
    have hi' : i < ((answersAt max window nows).map Option.isNone).length := by
      rw [List.length_map]
      omega
    have hcount := List.getElem_of_eq hadmitted hi'
    rw [List.getElem_map, List.getElem_map] at hcount
    rw [List.getElem_zip]
    simp only [hcount, Function.comp, decide_eq_true_eq, decide_eq_decide]
    omega
  have hle := Window.length_admitted_le (by omega : 0 < window) max.toNat none nows start
  rw [hfilter, ← List.length_map Prod.snd, ← List.filter_map, hzip]
  exact hle

/-- A refusal tells when its window is over. -/
theorem retry_of_answer {c : Window} {now retry : Int} {res : Response}
    (hres : answer max window c now = some res)
    (hretry : res.headers.lookup (bytes "Retry-After") = some (intToString retry)) :
    retry = c.start + window - now := by
  unfold answer at hres
  split at hres
  · cases hres
  · obtain rfl := Option.some.inj hres
    have htext : intToString (c.start + window - now) = intToString retry := by
      simpa [tooMany, Finmap.lookup_insert] using hretry
    rw [← atoi_intToString retry, ← htext, atoi_intToString]

/-- A client that is told to come back after some seconds passes then. -/
theorem passes_after_retry (hmax : 1 ≤ max) {before between after : List Int} {a b retry : Int}
    {res : Response}
    (hres : (answersAt max window (before ++ a :: (between ++ b :: after)))[before.length]? =
      some (some res))
    (hretry : res.headers.lookup (bytes "Retry-After") = some (intToString retry))
    (hbetween : ∀ now ∈ between, now < a + retry) (hback : a + retry ≤ b) :
    (answersAt max window (before ++ a :: (between ++ b :: after)))[
      before.length + (1 + between.length)]? = some none := by
  let c := Window.hit window (Window.after window none before) a
  have hretry' : retry = c.start + window - a := by
    rw [getElem?_answersAt, Option.some.injEq] at hres
    exact retry_of_answer hres hretry
  -- Nothing in between opens a new window.
  have hwithin : ∀ now ∈ between, now < c.start + window := by
    intro now hnow
    have hlt := hbetween now hnow
    omega
  have hafter : Window.after window none (before ++ a :: between) =
      some ⟨c.start, c.count + between.length⟩ := by
    rw [← Window.after_within c between hwithin]
    simp [Window.after, c]
  have hover : (⟨c.start, c.count + between.length⟩ : Window).start + window ≤ b :=
    (by omega : c.start + window ≤ b)
  have hindex : before.length + (1 + between.length) = (before ++ a :: between).length := by
    simp only [List.length_append, List.length_cons]
    omega
  have hsplit : before ++ a :: (between ++ b :: after) =
      (before ++ a :: between) ++ b :: after := by
    rw [List.append_assoc, List.cons_append]
  have hfirst : answer max window ⟨b, 1⟩ b = none := if_pos hmax
  rw [hindex, hsplit, getElem?_answersAt, hafter, Window.hit_of_le hover, hfirst]

/-- A request is one of the client for the path. -/
def ForPair (path client : Bytes) (opts : CookieOptions) (a : Arrival) : Prop :=
  a.req.path = path ∧ throttleClient a.req opts = client

theorem ForPair.key {path client : Bytes} {a : Arrival} (h : ForPair path client opts a) :
    throttleKey a.req opts = bytes "throttle:" ++ path ++ bytes ":" ++ client := by
  rw [throttleKey, h.1, h.2]

end Run

end CppLaravel.Session
