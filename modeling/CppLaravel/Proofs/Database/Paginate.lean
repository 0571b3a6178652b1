import CppLaravel.Database.QueryBuilder
import CppLaravel.Lib.Pages
import Mathlib.Data.UInt

/-!
# `CppLaravel.Proofs.Database.Paginate`: the pages of a query

A page is selected with an offset and a limit, and the number of all rows is counted apart. Both
selections filter alike, so a page is a cut of the unpaged result (`paginate_eq`). The offset and
the sum behind the last page are computed modulo `2 ^ 64`: `paginates_iff` says when this does no
harm.
-/

set_option autoImplicit false

namespace CppLaravel.Database

open CppLaravel.Lib

variable {T : Type} {M : Mapper T} {c : MemoryConnection} {query : Query}

/-! ### Selecting -/

theorem length_inOrder {order : Option OrderClause} {rows rows' : List Row}
    (h : inOrder order rows = some rows') : rows'.length = rows.length := by
  cases order with
  | none =>
    obtain rfl := Option.some.inj h
    rfl
  | some oc =>
    rw [inOrder] at h
    split at h
    · cases h
    · obtain rfl := Option.some.inj h
      exact List.length_mergeSort rows

namespace MemoryConnection

theorem count_eq (c : MemoryConnection) (table : Bytes) (query : Query) :
    c.count table query = (c.filtered table query.wheres).length := rfl

/-- Without a limit and an offset the rows are the ones in order. -/
theorem selectQuery_unpaged (c : MemoryConnection) (table : Bytes) (query : Query) :
    c.selectQuery table (QueryBuilder.unpaged query) =
      inOrder query.order (c.filtered table query.wheres) := by
  rw [selectQuery]
  show (inOrder query.order (c.filtered table query.wheres)).map id = _
  rw [Option.map_id, id]

/-- An offset and a limit cut the rows. -/
theorem selectQuery_cut (c : MemoryConnection) (table : Bytes) (query : Query) (n o : Nat) :
    c.selectQuery table { QueryBuilder.unpaged query with limit := some n, offset := some o } =
      (c.selectQuery table (QueryBuilder.unpaged query)).map fun rows => (rows.drop o).take n := by
  rw [selectQuery_unpaged, selectQuery]
  congr 1
  funext rows
  show (if rows.length ≤ o then [] else rows.drop o).take n = (rows.drop o).take n
  split
  · rename_i hle
    rw [List.drop_eq_nil_of_le hle]
  · rfl

end MemoryConnection

/-! ### Hydrating -/

theorem hydrateAll_eq_some_iff {rows : List Row} {all : List T} :
    Repository.hydrateAll M rows = some all ↔
      List.Forall₂ (fun r a => M.hydrate r = some a) rows all := by
  induction rows generalizing all with
  | nil =>
    rw [Repository.hydrateAll, Option.some.injEq, List.forall₂_nil_left_iff]
    exact eq_comm
  | cons r rows ih =>
    rw [Repository.hydrateAll, List.forall₂_cons_left_iff]
    cases hr : M.hydrate r with
    | none => simp
    | some a =>
      simp only [Option.map_eq_some_iff, ih, Option.some.injEq]
      constructor
      · rintro ⟨as, has, rfl⟩
        exact ⟨a, as, rfl, has, rfl⟩
      · rintro ⟨a', as, rfl, has, rfl⟩
        exact ⟨as, has, rfl⟩

/-- The models of a cut are the cut of the models. -/
theorem hydrateAll_cut {rows : List Row} {all : List T}
    (h : Repository.hydrateAll M rows = some all) (n o : Nat) :
    Repository.hydrateAll M ((rows.drop o).take n) = some ((all.drop o).take n) :=
  hydrateAll_eq_some_iff.mpr (List.forall₂_take n (List.forall₂_drop o
    (hydrateAll_eq_some_iff.mp h)))

namespace QueryBuilder

/-- The rows of a result, and their number. -/
theorem rows_of_get {all : List T} (h : get M c (unpaged query) = some all) :
    ∃ rows, c.selectQuery M.table (unpaged query) = some rows ∧
      Repository.hydrateAll M rows = some all ∧
      c.count M.table (unpaged query) = all.length := by
  obtain ⟨rows, hrows, hall⟩ := Option.bind_eq_some_iff.mp h
  refine ⟨rows, hrows, hall, ?_⟩
  rw [MemoryConnection.selectQuery_unpaged] at hrows
  rw [MemoryConnection.count_eq, ← (hydrateAll_eq_some_iff.mp hall).length_eq]
  exact (length_inOrder hrows).symm

/-- A page is a cut of the unpaged result, by the numbers that are computed for it. -/
theorem paginate_eq {all : List T} (h : get M c (unpaged query) = some all)
    {page perPage : UInt64} (hpage : 1 ≤ page) (hper : 1 ≤ perPage) :
    paginate M c query page perPage =
      some ⟨(all.drop ((page - 1) * perPage).toNat).take perPage.toNat, UInt64.ofNat all.length,
        page, perPage, (UInt64.ofNat all.length + perPage - 1) / perPage⟩ := by
  obtain ⟨rows, hrows, hall, hcount⟩ := rows_of_get h
  have hpage0 : page ≠ 0 := by
    rintro rfl
    exact absurd hpage (by decide)
  have hper0 : perPage ≠ 0 := by
    rintro rfl
    exact absurd hper (by decide)
  rw [paginate, if_neg hpage0, if_neg hper0, hcount, MemoryConnection.selectQuery_cut, hrows,
    Option.map_some, Option.bind_some, hydrateAll_cut hall]
  rfl

/-- A page of a result, in exact arithmetic. Behind the last page it is empty. -/
structure Shows (all : List T) (page perPage : UInt64) (p : Page T) : Prop where
  items : p.items = Lib.page perPage.toNat all (page.toNat - 1)
  total : p.total.toNat = all.length
  page_eq : p.page = page
  perPage_eq : p.perPage = perPage
  lastPage : p.lastPage.toNat = all.length ⌈/⌉ perPage.toNat
  empty_behind : p.lastPage < page → p.items = []

/-- Where a cut begins behind `2 ^ 64`, it is cut somewhere else, unless the list ends before
there too. -/
theorem cut_eq_page_iff {all : List T} (hall : all.length < 2 ^ 64) {n k : Nat} (hn : 0 < n) :
    (all.drop (k * n % 2 ^ 64)).take n = page n all k ↔
      k * n < 2 ^ 64 ∨ all.length ≤ k * n % 2 ^ 64 := by
  rcases Nat.lt_or_ge (k * n) (2 ^ 64) with hlt | hge
  · rw [Nat.mod_eq_of_lt hlt]
    exact iff_of_true rfl (.inl hlt)
  · have hend : page n all k = [] := by
      rw [page, List.drop_eq_nil_of_le (by omega), List.take_nil]
    rw [hend, List.take_eq_nil_iff, List.drop_eq_nil_iff]
    constructor
    · exact fun h => .inr (h.resolve_left (Nat.ne_of_gt hn))
    · exact fun h => .inr (h.resolve_left (Nat.not_lt.mpr hge))

/-- The number of pages is right unless the sum behind it does not fit. -/
theorem lastPage_eq_iff {total n : Nat} (htotal : total < 2 ^ 64) (hn : 0 < n) (hn' : n < 2 ^ 64) :
    (total + n - 1) % 2 ^ 64 / n = total ⌈/⌉ n ↔ total + n - 1 < 2 ^ 64 := by
  rw [Nat.ceilDiv_eq_add_pred_div]
  rcases Nat.lt_or_ge (total + n - 1) (2 ^ 64) with hlt | hge
  · rw [Nat.mod_eq_of_lt hlt]
    exact iff_of_true rfl hlt
  · -- The residue is below the page size, and there is a page.
    have hresidue : (total + n - 1) % 2 ^ 64 / n = 0 := by
      rw [Nat.mod_eq_sub_mod hge, Nat.mod_eq_of_lt (by omega)]
      exact Nat.div_eq_of_lt (by omega)
    have hpos : 0 < (total + n - 1) / n := Nat.div_pos (by omega) hn
    rw [hresidue]
    exact iff_of_false (Nat.ne_of_lt hpos) (Nat.not_lt.mpr hge)

theorem toNat_offset {page perPage : UInt64} (hpage : 1 ≤ page) :
    ((page - 1) * perPage).toNat = (page.toNat - 1) * perPage.toNat % 2 ^ 64 := by
  rw [UInt64.toNat_mul, UInt64.toNat_sub_of_le _ _ hpage]
  rfl

theorem toNat_lastPage {total perPage : UInt64} (hper : 1 ≤ perPage) :
    ((total + perPage - 1) / perPage).toNat =
      (total.toNat + perPage.toNat - 1) % 2 ^ 64 / perPage.toNat := by
  have hone : 1 ≤ perPage.toNat := UInt64.le_iff_toNat_le.mp hper
  rw [UInt64.toNat_div, UInt64.toNat_sub, UInt64.toNat_add]
  have h1 : (1 : UInt64).toNat = 1 := rfl
  rw [h1]
  congr 1
  omega

/-- The items of a page; none if there is no page. -/
def itemsOf (M : Mapper T) (c : MemoryConnection) (query : Query) (page perPage : UInt64) :
    List T :=
  ((paginate M c query page perPage).map Page.items).getD []

theorem length_lt_of_get {all : List T} (hsize : (c.tables M.table).length < 2 ^ 64)
    (hall : get M c (unpaged query) = some all) : all.length < 2 ^ 64 := by
  obtain ⟨rows, -, -, hcount⟩ := rows_of_get hall
  rw [← hcount, MemoryConnection.count_eq]
  exact (List.length_filter_le _ _).trans_lt hsize

/-- The pages up to the last one begin inside the result, so they are not wrapped. -/
theorem flatMap_itemsOf {all : List T} (hsize : (c.tables M.table).length < 2 ^ 64)
    (hall : get M c (unpaged query) = some all) {perPage : UInt64} (hper : 1 ≤ perPage) :
    ((List.range (all.length ⌈/⌉ perPage.toNat)).flatMap fun k =>
      itemsOf M c query (UInt64.ofNat (k + 1)) perPage) = all := by
  have hlen := length_lt_of_get hsize hall
  have hn : 0 < perPage.toNat := UInt64.le_iff_toNat_le.mp hper
  refine Eq.trans ?_ (flatMap_page hn all)
  refine List.flatMap_congr fun k hk => ?_
  have hinside : k * perPage.toNat < all.length := by
    have hlt := List.mem_range.mp hk
    rw [← Nat.not_le, ceilDiv_le_iff_le_mul hn, Nat.not_le, Nat.mul_comm] at hlt
    exact hlt
  have hk' : k + 1 < 2 ^ 64 := by
    have := Nat.le_mul_of_pos_right k hn
    omega
  have hpage : (UInt64.ofNat (k + 1)).toNat = k + 1 := UInt64.toNat_ofNat_of_lt' hk'
  have hone : 1 ≤ UInt64.ofNat (k + 1) := by
    rw [UInt64.le_iff_toNat_le, hpage]
    exact Nat.succ_pos k
  rw [itemsOf, paginate_eq hall hone hper, Option.map_some, Option.getD_some, toNat_offset hone,
    hpage, Nat.add_sub_cancel, Nat.mod_eq_of_lt (by omega)]
  rfl

/-- **When a page is right**: a page shows what stands there in the unpaged result, and the number
of pages is the right one, iff its first position fits into a `size_t`, or is behind the result
modulo `2 ^ 64` too, and the sum behind the number of pages fits. The pages from the first to the
last one that there should be make up the result. -/
theorem paginates_iff {all : List T} (hsize : (c.tables M.table).length < 2 ^ 64)
    (hall : get M c (unpaged query) = some all) {page perPage : UInt64} (hpage : 1 ≤ page)
    (hper : 1 ≤ perPage) :
    ((∃ p, paginate M c query page perPage = some p ∧ Shows all page perPage p) ↔
      ((page.toNat - 1) * perPage.toNat < 2 ^ 64 ∨
        all.length ≤ (page.toNat - 1) * perPage.toNat % 2 ^ 64) ∧
      all.length + perPage.toNat - 1 < 2 ^ 64) ∧
    ((List.range (all.length ⌈/⌉ perPage.toNat)).flatMap fun k =>
      itemsOf M c query (UInt64.ofNat (k + 1)) perPage) = all := by
  refine ⟨?_, flatMap_itemsOf hsize hall hper⟩
  have hlen := length_lt_of_get hsize hall
  have htotal : (UInt64.ofNat all.length).toNat = all.length := UInt64.toNat_ofNat_of_lt' hlen
  have hn : 0 < perPage.toNat := UInt64.le_iff_toNat_le.mp hper
  rw [paginate_eq hall hpage hper, ← cut_eq_page_iff hlen hn, ← lastPage_eq_iff hlen hn
    perPage.toNat_lt, ← toNat_offset hpage, ← htotal, ← toNat_lastPage hper, htotal]
  constructor
  · rintro ⟨p, hp, hshows⟩
    obtain rfl := Option.some.inj hp
    exact ⟨hshows.items, hshows.lastPage⟩
  · intro ⟨hitems, hlast⟩
    refine ⟨_, rfl, hitems, htotal, rfl, rfl, hlast, fun hbehind => ?_⟩
    -- The page is behind the number of pages that there are.
    have hlt := UInt64.lt_iff_toNat_lt.mp hbehind
    rw [hlast] at hlt
    exact hitems.trans ((page_eq_nil_iff hn).mpr (by omega))

/-! ### Two rows -/

/-- Rows as models. -/
def rowMapper : Mapper Row := ⟨bytes "t", some, id, fun _ => 0, fun r _ => r⟩

/-- A table with two rows. -/
def twoRows : MemoryConnection :=
  ((MemoryConnection.empty.insert (bytes "t") .empty).2.insert (bytes "t") .empty).2

/-- The rows as they are stored. -/
def storedRows : List Row :=
  [Row.empty.set (bytes "id") (.int 1), Row.empty.set (bytes "id") (.int 2)]

theorem get_twoRows : get rowMapper twoRows (unpaged .all) = some storedRows := by
  decide

/-- The second of two pages with one row each. -/
theorem paginates_iff_applies :
    ((∃ p, paginate rowMapper twoRows .all 2 1 = some p ∧ Shows storedRows 2 1 p) ↔
      (((2 : UInt64).toNat - 1) * (1 : UInt64).toNat < 2 ^ 64 ∨
        storedRows.length ≤ ((2 : UInt64).toNat - 1) * (1 : UInt64).toNat % 2 ^ 64) ∧
      storedRows.length + (1 : UInt64).toNat - 1 < 2 ^ 64) ∧
    ((List.range (storedRows.length ⌈/⌉ (1 : UInt64).toNat)).flatMap fun k =>
      itemsOf rowMapper twoRows .all (UInt64.ofNat (k + 1)) 1) = storedRows :=
  paginates_iff (by decide) get_twoRows (by decide) (by decide)

/-- The page `2 ^ 63 + 1` with two rows a page: it shows the first two rows again. -/
theorem far_page_shows_first_rows :
    get rowMapper twoRows (unpaged .all) = some storedRows ∧
      ¬ ∃ p, paginate rowMapper twoRows .all (2 ^ 63 + 1) 2 = some p ∧
        Shows storedRows (2 ^ 63 + 1) 2 p := by
  refine ⟨get_twoRows, ?_⟩
  rintro ⟨p, hp, hshows⟩
  have hfirst : (paginate rowMapper twoRows .all (2 ^ 63 + 1) 2).map Page.items =
      some storedRows := by decide +kernel
  rw [hp, Option.map_some, Option.some.injEq, hshows.items] at hfirst
  exact absurd hfirst (by decide +kernel)

end QueryBuilder

end CppLaravel.Database
