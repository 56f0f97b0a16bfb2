import Mathlib.Data.Finset.Card
import Mathlib.Data.List.Sort
import Mathlib.Order.WithBot

/-!
# Pages below a cursor

A table is listed page by page in the descending order of a key. Each page but the first asks
for the rows below the key of the last row it has seen, while rows come and go between the
pages. The probe for one row more than the page holds tells whether a further page is needed.
-/

namespace Tracewake.Pagination

/-- A page, and the cursor of the next one if there is one. -/
structure Page (α C : Type) where
  items : List α
  next : Option C

section Walks

variable {α S C : Type}

/-- The items of a sequence of requests that follow the cursors they are given, until a page
comes without one. -/
inductive Walk (fetch : S → C → Option (Page α C)) : List S → C → List α → Prop
  | last {request : S} {cursor : C} {items : List α} :
      fetch request cursor = some ⟨items, none⟩ → Walk fetch [request] cursor items
  | more {request : S} {cursor next : C} {items : List α} {requests : List S} {rest : List α} :
      fetch request cursor = some ⟨items, some next⟩ → Walk fetch requests next rest →
      Walk fetch (request :: requests) cursor (items ++ rest)

variable {D : Type} {fetch : S → C → Option (Page α C)} {inner : S → D → Option (Page α D)}
  {read : C → Option D}

/-- Requests with cursors of one kind are answered as those with cursors of another that the
first ones are read as. -/
def ReadsAs (fetch : S → C → Option (Page α C)) (inner : S → D → Option (Page α D))
    (read : C → Option D) : Prop :=
  ∀ request cursor position, read cursor = some position → ∃ items next place,
    fetch request cursor = some ⟨items, next⟩ ∧ inner request position = some ⟨items, place⟩ ∧
      next.map read = place.map some

/-- A walk along cursors is one along what they are read as. -/
theorem ReadsAs.walk (hreads : ReadsAs fetch inner read) {requests : List S} {cursor : C}
    {position : D} {items : List α} (hread : read cursor = some position)
    (hwalk : Walk fetch requests cursor items) : Walk inner requests position items := by
  induction hwalk generalizing position with
  | @last request cursor items hfetch =>
    obtain ⟨_, _, place, hfetched, hinner, hnext⟩ := hreads request cursor position hread
    obtain ⟨rfl, rfl⟩ := Page.mk.inj (Option.some.inj (hfetched.symm.trans hfetch))
    cases place with
    | none => exact .last hinner
    | some place => simp at hnext
  | @more request cursor next items requests rest hfetch _ ih =>
    obtain ⟨_, _, place, hfetched, hinner, hnext⟩ := hreads request cursor position hread
    obtain ⟨rfl, rfl⟩ := Page.mk.inj (Option.some.inj (hfetched.symm.trans hfetch))
    cases place with
    | none => simp at hnext
    | some place => exact .more hinner (ih (Option.some.inj hnext))

/-- Where there is a walk along the readings, there is one along the cursors. -/
theorem ReadsAs.walk_of_inner (hreads : ReadsAs fetch inner read) {requests : List S}
    {cursor : C} {position : D} {items : List α} (hread : read cursor = some position)
    (hwalk : Walk inner requests position items) : Walk fetch requests cursor items := by
  induction hwalk generalizing cursor with
  | @last request position items hinner =>
    obtain ⟨_, next, _, hfetch, hfetched, hnext⟩ := hreads request cursor position hread
    obtain ⟨rfl, rfl⟩ := Page.mk.inj (Option.some.inj (hfetched.symm.trans hinner))
    cases next with
    | none => exact .last hfetch
    | some next => simp at hnext
  | @more request position place items requests rest hinner _ ih =>
    obtain ⟨_, next, _, hfetch, hfetched, hnext⟩ := hreads request cursor position hread
    obtain ⟨rfl, rfl⟩ := Page.mk.inj (Option.some.inj (hfetched.symm.trans hinner))
    cases next with
    | none => simp at hnext
    | some next => exact .more hfetch (ih (Option.some.inj hnext))

end Walks

section Pages

variable {α K : Type} [LinearOrder K]

/-- The greatest rows below a bound. -/
def select (key : α → K) (below : WithTop K) (count : ℕ) (rows : List α) : List α :=
  ((rows.filter fun row => (key row : WithTop K) < below).mergeSort
    fun a b => key b ≤ key a).take count

/-- The page of the rows below a bound. -/
def keysetPage (key : α → K) (limit : ℕ) (below : WithTop K) (rows : List α) :
    Page α (WithTop K) :=
  let result := select key below (limit + 1) rows
  if limit < result.length then
    ⟨result.take limit, (result.take limit).getLast?.map fun row => (key row : WithTop K)⟩
  else ⟨result, none⟩

variable {key : α → K} {limit : ℕ} {below : WithTop K} {rows : List α}

/-- All rows below a bound in descending order. -/
theorem exists_sorted (hkeys : (rows.map key).Nodup) (below : WithTop K) :
    ∃ sorted : List α, (∀ count, select key below count rows = sorted.take count) ∧
      (∀ row, row ∈ sorted ↔ row ∈ rows ∧ (key row : WithTop K) < below) ∧
      sorted.Pairwise fun a b => key b < key a := by
  refine ⟨_, fun _ => rfl, fun row => by simp, ?_⟩
  have hperm := List.mergeSort_perm (rows.filter fun row => (key row : WithTop K) < below)
    fun a b => decide (key b ≤ key a)
  have hnodup : ((rows.filter fun row => (key row : WithTop K) < below).map key).Nodup :=
    hkeys.sublist (List.filter_sublist.map key)
  have hsorted := @List.pairwise_mergeSort _ (fun a b : α => decide (key b ≤ key a))
    (fun a b c hab hbc => decide_eq_true
      (le_trans (of_decide_eq_true hbc) (of_decide_eq_true hab)))
    (fun a b => by simpa using le_total (key b) (key a))
    (rows.filter fun row => (key row : WithTop K) < below)
  have hdistinct := List.pairwise_map.mp ((hperm.map key).nodup_iff.mpr hnodup)
  exact (hsorted.and hdistinct).imp fun ⟨hle, hne⟩ =>
    lt_of_le_of_ne (of_decide_eq_true hle) (Ne.symm hne)

/-- What a page says about the rows it was taken from. -/
structure Pages (key : α → K) (below : WithTop K) (rows : List α) (page : Page α (WithTop K)) :
    Prop where
  descending : page.items.Pairwise fun a b => key b < key a
  listed : ∀ row ∈ page.items, row ∈ rows ∧ (key row : WithTop K) < below
  /-- The cursor is the key of a listed row, and nothing above it is missing. -/
  complete : ∀ row ∈ rows, (key row : WithTop K) < below →
    (∀ next ∈ page.next, next ≤ key row) → row ∈ page.items
  above : ∀ next ∈ page.next, (∃ row ∈ page.items, next = key row) ∧
    ∀ row ∈ page.items, next ≤ (key row : WithTop K)

/-- A page lists the rows from its bound down to its cursor. -/
theorem keysetPage_pages (hlimit : 0 < limit) (hkeys : (rows.map key).Nodup) :
    Pages key below rows (keysetPage key limit below rows) := by
  obtain ⟨sorted, hselect, hmem, hsorted⟩ := exists_sorted hkeys below
  have htake : (sorted.take (limit + 1)).take limit = sorted.take limit := by
    rw [List.take_take, min_eq_left (by omega)]
  simp only [keysetPage, hselect, htake, List.length_take]
  split
  · next hmore =>
    have hlength : limit < sorted.length := by omega
    have hnonempty : sorted.take limit ≠ [] := by
      intro hnil
      have := congrArg List.length hnil
      simp only [List.length_take, List.length_nil] at this
      omega
    have hsplit := List.dropLast_append_getLast hnonempty
    have hpieces := hsorted
    rw [← List.take_append_drop limit sorted, List.pairwise_append] at hpieces
    obtain ⟨hfront, -, hacross⟩ := hpieces
    rw [List.getLast?_eq_some_getLast hnonempty]
    have hlast := List.getLast_mem hnonempty
    constructor
    · exact hfront
    · intro row hrow
      exact (hmem row).mp (List.mem_of_mem_take hrow)
    · intro row hrow hbelow hnext
      have hsome := hnext _ rfl
      have hin := (hmem row).mpr ⟨hrow, hbelow⟩
      rw [← List.take_append_drop limit sorted, List.mem_append] at hin
      rcases hin with hin | hin
      · exact hin
      · have hless := hacross _ hlast row hin
        exact absurd (WithTop.coe_le_coe.mp hsome) (not_le.mpr hless)
    · intro next hnext
      obtain rfl := Option.some.inj hnext
      constructor
      · exact ⟨_, hlast, rfl⟩
      · intro row hrow
        change row ∈ sorted.take limit at hrow
        rw [← hsplit, List.mem_append, List.mem_singleton] at hrow
        rw [← hsplit, List.pairwise_append] at hfront
        rcases hrow with hrow | rfl
        · exact WithTop.coe_le_coe.mpr
            (hfront.2.2 row hrow _ (List.mem_singleton_self _)).le
        · exact le_rfl
  · next hfew =>
    have hall : sorted.take (limit + 1) = sorted := List.take_of_length_le (by omega)
    rw [hall]
    constructor
    · exact hsorted
    · intro row hrow
      exact (hmem row).mp hrow
    · intro row hrow hbelow _
      exact (hmem row).mpr ⟨hrow, hbelow⟩
    · rintro next ⟨⟩

end Pages

section Listings

variable {α K S : Type} [LinearOrder K] {key : α → K} {rows : S → List α}
  {fetch : S → WithTop K → Option (Page α (WithTop K))}

/-- Every request is answered with a page of the rows it finds. -/
def Answers (key : α → K) (rows : S → List α)
    (fetch : S → WithTop K → Option (Page α (WithTop K))) : Prop :=
  ∀ request below, ∃ page, fetch request below = some page ∧ Pages key below (rows request) page

/-- The items of a walk descend, below the cursor it began with. -/
theorem Walk.descending (hanswers : Answers key rows fetch) {requests : List S}
    {below : WithTop K} {items : List α} (hwalk : Walk fetch requests below items) :
    (items.Pairwise fun a b => key b < key a) ∧
      ∀ row ∈ items, (key row : WithTop K) < below := by
  induction hwalk with
  | @last request below items hfetch =>
    obtain ⟨page, hpage, hpages⟩ := hanswers request below
    obtain rfl := Option.some.inj (hpage.symm.trans hfetch)
    exact ⟨hpages.descending, fun row hrow => (hpages.listed row hrow).2⟩
  | @more request below next items requests rest hfetch _ ih =>
    obtain ⟨page, hpage, hpages⟩ := hanswers request below
    obtain rfl := Option.some.inj (hpage.symm.trans hfetch)
    obtain ⟨⟨last, hlast, hnext⟩, habove⟩ := hpages.above next rfl
    constructor
    · refine List.pairwise_append.mpr ⟨hpages.descending, ih.1, fun row hrow later hlater => ?_⟩
      exact WithTop.coe_lt_coe.mp (lt_of_lt_of_le (ih.2 later hlater) (habove row hrow))
    · intro row hrow
      rcases List.mem_append.mp hrow with hrow | hrow
      · exact (hpages.listed row hrow).2
      · have hbelow := (hpages.listed last hlast).2
        rw [← hnext] at hbelow
        exact (ih.2 row hrow).trans hbelow

/-- Every item was found by one of the requests. -/
theorem Walk.listed (hanswers : Answers key rows fetch) {requests : List S}
    {below : WithTop K} {items : List α} (hwalk : Walk fetch requests below items) :
    ∀ row ∈ items, ∃ request ∈ requests, row ∈ rows request := by
  induction hwalk with
  | @last request below items hfetch =>
    obtain ⟨page, hpage, hpages⟩ := hanswers request below
    obtain rfl := Option.some.inj (hpage.symm.trans hfetch)
    exact fun row hrow => ⟨request, List.mem_singleton_self _, (hpages.listed row hrow).1⟩
  | @more request below next items requests rest hfetch _ ih =>
    obtain ⟨page, hpage, hpages⟩ := hanswers request below
    obtain rfl := Option.some.inj (hpage.symm.trans hfetch)
    intro row hrow
    rcases List.mem_append.mp hrow with hrow | hrow
    · exact ⟨request, List.mem_cons_self .., (hpages.listed row hrow).1⟩
    · obtain ⟨later, hlater, hfound⟩ := ih row hrow
      exact ⟨later, List.mem_cons_of_mem _ hlater, hfound⟩

/-- A key that every request finds below the first cursor is listed. -/
theorem Walk.complete (hanswers : Answers key rows fetch) {requests : List S}
    {below : WithTop K} {items : List α} (hwalk : Walk fetch requests below items) {k : K}
    (hk : (k : WithTop K) < below) (hfound : ∀ request ∈ requests, k ∈ (rows request).map key) :
    k ∈ items.map key := by
  induction hwalk with
  | @last request below items hfetch =>
    obtain ⟨page, hpage, hpages⟩ := hanswers request below
    obtain rfl := Option.some.inj (hpage.symm.trans hfetch)
    obtain ⟨row, hrow, rfl⟩ := List.mem_map.mp (hfound request (List.mem_singleton_self _))
    exact List.mem_map_of_mem (hpages.complete row hrow hk (by rintro next ⟨⟩))
  | @more request below next items requests rest hfetch _ ih =>
    obtain ⟨page, hpage, hpages⟩ := hanswers request below
    obtain rfl := Option.some.inj (hpage.symm.trans hfetch)
    rw [List.map_append, List.mem_append]
    rcases lt_or_ge (k : WithTop K) next with hless | hge
    · exact .inr (ih hless fun later hlater => hfound later (List.mem_cons_of_mem _ hlater))
    · obtain ⟨row, hrow, rfl⟩ := List.mem_map.mp (hfound request (List.mem_cons_self ..))
      refine .inl (List.mem_map_of_mem (hpages.complete row hrow hk ?_))
      rintro _ ⟨⟩
      exact hge

/-- The keys that a request would find below a cursor. -/
def remaining (key : α → K) (rows : List α) (below : WithTop K) : Finset K :=
  (rows.map key).toFinset.filter fun k => (k : WithTop K) < below

variable (requests : ℕ → S)

/-- While no keys are added, a walk comes to its end. -/
theorem exists_walk_of_shrinking (hanswers : Answers key rows fetch) {start : ℕ}
    (hstop : ∀ j ≥ start, ∀ k ∈ (rows (requests (j + 1))).map key,
      k ∈ (rows (requests j)).map key) {j : ℕ} (hj : start ≤ j) (below : WithTop K) :
    ∃ n items, Walk fetch ((List.range' j n).map requests) below items := by
  -- Each page takes the row of its cursor out of what remains.
  induction hcount : (remaining key (rows (requests j)) below).card using Nat.strong_induction_on
    generalizing j below with
  | _ count ih =>
    obtain ⟨⟨items, next⟩, hpage, hpages⟩ := hanswers (requests j) below
    cases next with
    | none => exact ⟨1, items, .last hpage⟩
    | some next =>
      obtain ⟨⟨last, hlast, rfl⟩, -⟩ := hpages.above next rfl
      obtain ⟨hrow, hbelow⟩ := hpages.listed last hlast
      have hfewer : remaining key (rows (requests (j + 1))) (key last) ⊂
          remaining key (rows (requests j)) below := by
        rw [Finset.ssubset_iff_of_subset]
        · refine ⟨key last, ?_, ?_⟩
          · simpa only [remaining, Finset.mem_filter, List.mem_toFinset] using
              ⟨List.mem_map_of_mem hrow, hbelow⟩
          · simp only [remaining, Finset.mem_filter, lt_self_iff_false, and_false,
              not_false_eq_true]
        · intro k hk
          simp only [remaining, Finset.mem_filter, List.mem_toFinset] at hk ⊢
          exact ⟨hstop j hj k hk.1, hk.2.trans hbelow⟩
      obtain ⟨n, rest, hwalk⟩ := ih _ (hcount ▸ Finset.card_lt_card hfewer) (by omega) _ rfl
      exact ⟨n + 1, items ++ rest, .more hpage hwalk⟩

/-- A walk comes to its end if keys are no longer added from some request on. -/
theorem exists_walk (hanswers : Answers key rows fetch) {start : ℕ}
    (hstop : ∀ j ≥ start, ∀ k ∈ (rows (requests (j + 1))).map key,
      k ∈ (rows (requests j)).map key) (j : ℕ) (below : WithTop K) :
    ∃ n items, Walk fetch ((List.range' j n).map requests) below items := by
  induction hdistance : start - j generalizing j below with
  | zero => exact exists_walk_of_shrinking requests hanswers hstop (by omega) below
  | succ distance ih =>
    obtain ⟨⟨items, next⟩, hpage, -⟩ := hanswers (requests j) below
    cases next with
    | none => exact ⟨1, items, .last hpage⟩
    | some next =>
      obtain ⟨n, rest, hwalk⟩ := ih (j + 1) next (by omega)
      exact ⟨n + 1, items ++ rest, .more hpage hwalk⟩

end Listings

end Tracewake.Pagination
