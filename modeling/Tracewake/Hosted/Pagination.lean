import Tracewake.Hosted.Listings

/-!
# Pagination

Runs and audit records are listed page by page while other transactions insert, delete and
hide rows. A cursor denotes the position of the row it was made from, and no list takes a
cursor that was made for another list or another workspace.
-/

namespace Tracewake.Hosted

open JsonText Calendar Encodings Pagination

/-! ## What the database holds -/

/-- An instant that the clock of the database shows: from the beginning of 1970 to the last
day of 9999. -/
def ClockTime (time : ℤ) : Prop := 0 ≤ time ∧ time < 253402214400 * 1000000

instance (time : ℤ) : Decidable (ClockTime time) :=
  inferInstanceAs (Decidable (0 ≤ time ∧ time < 253402214400 * 1000000))

/-- A committed state as one request finds it. Rows are created at the time of the database's
clock, and audit records are numbered with a `bigint`. -/
structure Snapshot where
  store : Store
  runTimes : ∀ id row, store.run id = some row → ClockTime row.createdAt
  auditTimes : ∀ id row, store.audit id = some row → ClockTime row.createdAt
  auditIDs : ∀ id row, store.audit id = some row → id < 2 ^ 63

/-- A request for a page: the state it finds, its limit, and the zone of the server that
answers it. -/
structure Request where
  snapshot : Snapshot
  limit : ℤ
  location : Location

/-- The items of an answer and the cursor it gives, if it gives one. -/
def answered {View : Type} : Except Err (List View × Text) → Option (Page View Text)
  | .ok (items, nextCursor) => some ⟨items, if nextCursor = [] then none else some nextCursor⟩
  | .error _ => none

/-- `ListRunPage` for a request and the cursor that it sends. -/
def runPages (workspace : Uuid) (request : Request) (cursorValue : Text) :
    Option (Page RunView Text) :=
  answered (listRunPage request.location workspace cursorValue request.limit
    request.snapshot.store)

/-- `ListAuditPage` for a request and the cursor that it sends. -/
def auditPages (workspace : Uuid) (request : Request) (cursorValue : Text) :
    Option (Page AuditView Text) :=
  answered (listAuditPage request.location workspace cursorValue request.limit
    request.snapshot.store)

/-- A run is present in a workspace and not deleted. -/
def ShowsRun (workspace : Uuid) (store : Store) (id : Uuid) (createdAt : Timestamp) : Prop :=
  ∃ row, store.run id = some row ∧ row.workspace = workspace ∧ row.state ≠ .deleted ∧
    row.createdAt = createdAt

/-- An audit record is present in a workspace. -/
def ShowsAudit (workspace : Uuid) (store : Store) (id : ℕ) (createdAt : Timestamp) : Prop :=
  ∃ row, store.audit id = some row ∧ row.workspace = workspace ∧ row.createdAt = createdAt

/-- Following the cursors from the first page on lists the rows in strictly descending order,
each row that all requests show exactly once, and comes to an end if no rows appear any more
from some request on. -/
structure ListsAll {View ID : Type} [DecidableEq ID]
    (pages : Request → Text → Option (Page View Text)) (position : View → Position)
    (id : View → ID) (Shows : Store → ID → Timestamp → Prop) : Prop where
  descending : ∀ requests items, Walk pages requests [] items →
    items.Pairwise fun a b => position b < position a
  once : ∀ requests items, Walk pages requests [] items → ∀ i createdAt,
    (∀ request ∈ requests, Shows request.snapshot.store i createdAt) →
      (items.filter fun row => id row = i).length = 1
  ends : ∀ requests : ℕ → Request,
    (∃ start, ∀ j ≥ start, ∀ i createdAt, Shows (requests (j + 1)).snapshot.store i createdAt →
      Shows (requests j).snapshot.store i createdAt) →
    ∃ n items, Walk pages ((List.range n).map requests) [] items

/-! ## Times and cursors -/

/-- A time of the clock can be written in every zone. -/
theorem exists_marshalTime {createdAt : ℤ} (h : ClockTime createdAt)
    (location : Location) : ∃ time, marshalTime location createdAt = some time := by
  obtain ⟨hlow, hhigh⟩ := h
  have hzone := location.bounded (createdAt * 1000)
  rw [marshalTime]
  generalize location.offset (createdAt * 1000) = zone at hzone
  have hyear := dateOf_year
    ((createdAt * 1000 + zone * 60 * nanosPerSecond) / nanosPerDay)
    (by simp only [nanosPerDay, nanosPerSecond]; omega)
    (by simp only [nanosPerDay, nanosPerSecond]; omega)
  simp only [formatTime]
  rw [if_pos ⟨hyear.1, hyear.2, hzone⟩]
  exact ⟨_, rfl⟩

/-- The time in a cursor is read back to the nanosecond: the database keeps microseconds. -/
theorem parseTime_marshalTime {location : Location} {createdAt : ℤ} {time : Text}
    (h : marshalTime location createdAt = some time) : parseTime time = some (createdAt * 1000) :=
  parseTime_formatTime h

/-- A character that needs no escape is no control character. -/
theorem isHTMLSafe_not_lt {c : Char} (h : isHTMLSafe c = true) : ¬ c < ' ' := by
  simp only [isHTMLSafe, Bool.and_eq_true, decide_eq_true_eq] at h
  exact not_lt.mpr h.1.1.1.1.1

/-- What the cursor's encoder writes its decoder reads, character by character. -/
theorem marshalled_reads : marshalled.Reads Results.decoder fun _ => True where
  char := readChar_escapeChar _ fun _ => isHTMLSafe_not_lt
  closes := escapeChar_head _
  number n _ := Results.number_reads n
  token n _ := isNumber_isTokenChar n.valid
  starts n _ := isNumber_head n.valid

/-- The member `kind` of a cursor is stored. -/
theorem storeField_kind (cursor : ListCursor) (kind : Text) :
    storeField cursor ("kind".toList, .str kind) = some { cursor with kind := kind } := by
  have hname : foldName "kind".toList = "KIND".toList := by decide
  simp only [storeField, hname]
  rw [if_true]
  rfl

/-- The member `workspace` of a cursor is stored. -/
theorem storeField_workspace (cursor : ListCursor) (workspace : Text) :
    storeField cursor ("workspace".toList, .str workspace) =
      some { cursor with workspace := workspace } := by
  have hname : foldName "workspace".toList = "WORKSPACE".toList := by decide
  simp only [storeField, hname]
  rw [if_neg (by decide), if_true]
  rfl

/-- The member `created_at` of a cursor is stored if it is a time. -/
theorem storeField_createdAt (cursor : ListCursor) {time : Text} {createdAt : ℤ}
    (htime : parseTime time = some createdAt) :
    storeField cursor ("created_at".toList, .str time) =
      some { cursor with createdAt := createdAt } := by
  have hname : foldName "created_at".toList = "CREATED_AT".toList := by decide
  simp only [storeField, hname]
  rw [if_neg (by decide), if_neg (by decide), if_true, storeTime, htime]
  rfl

/-- The member `id` of a cursor is stored. -/
theorem storeField_id (cursor : ListCursor) (id : Text) :
    storeField cursor ("id".toList, .str id) = some { cursor with id := id } := by
  have hname : foldName "id".toList = "ID".toList := by decide
  simp only [storeField, hname]
  rw [if_neg (by decide), if_neg (by decide), if_neg (by decide), if_true]
  rfl

/-- The object of a cursor is read back field by field. -/
theorem unmarshalCursor_object (kind workspace id : Text) {time : Text} {createdAt : ℤ}
    (htime : parseTime time = some createdAt) :
    unmarshalCursor (Utf8.encode ((cursorObject kind workspace time id).print marshalled)) =
      some ⟨kind, workspace, createdAt, id⟩ := by
  have hparse := parse_print marshalled_reads (cursorObject kind workspace time id)
    fun _ _ => trivial
  have hdepth : (cursorObject kind workspace time id).depth ≤ Results.maxNestingDepth := by
    simp only [cursorObject, Json.depth, Json.depthFields]
    decide
  rw [unmarshalCursor, Results.decode]
  simp only [Utf8.decode_encode, Option.bind_eq_bind, Option.bind_some, hparse]
  rw [if_pos hdepth, Option.bind_some]
  change List.foldlM storeField ListCursor.zero [_, _, _, _] = _
  rw [List.foldlM_cons, storeField_kind, Option.bind_eq_bind, Option.bind_some,
    List.foldlM_cons, storeField_workspace, Option.bind_eq_bind, Option.bind_some,
    List.foldlM_cons, storeField_createdAt _ htime, Option.bind_eq_bind, Option.bind_some,
    List.foldlM_cons, storeField_id, Option.bind_eq_bind, Option.bind_some, List.foldlM_nil]
  rfl

/-- What a list makes of a cursor that was written for some list. -/
theorem decode_encodeListCursor (location : Location) (kind workspace kind' workspace' : Text)
    {createdAt : ℤ} {id : Text} (hclock : ClockTime createdAt) (hid : id ≠ []) :
    decodeListCursor (encodeListCursor location kind workspace createdAt id) kind' workspace' =
      if kind = kind' ∧ workspace = workspace' then
        .ok ⟨kind, workspace, createdAt * 1000, id⟩
      else .error invalidListCursor := by
  obtain ⟨time, htime⟩ := exists_marshalTime hclock location
  have hread := unmarshalCursor_object kind workspace id
    (parseTime_marshalTime htime)
  have hset : createdAt * 1000 ≠ zeroTime := by
    have := hclock.1
    simp only [zeroTime, nanosPerSecond]
    omega
  simp only [decodeListCursor, encodeListCursor, htime, Option.map_some, Option.getD_some,
    decode_encodeBase64, Option.bind_some, hread, hset, hid, or_false]
  by_cases hsame : kind = kind' ∧ workspace = workspace'
  · rw [if_pos hsame, if_neg (by tauto)]
  · rw [if_neg hsame, if_pos (by tauto)]

/-- A cursor that names a row is not empty, so it is not taken for the request of the first
page. -/
theorem encodeListCursor_ne_nil (location : Location) (kind workspace : Text)
    {createdAt : ℤ} {id : Text} (hclock : ClockTime createdAt) (hid : id ≠ []) :
    encodeListCursor location kind workspace createdAt id ≠ [] := by
  intro hnil
  have hdecode := decode_encodeListCursor location kind workspace kind workspace hclock hid
  rw [hnil, if_pos ⟨rfl, rfl⟩] at hdecode
  have herror : decodeListCursor [] kind workspace = .error invalidListCursor := by
    simp only [decodeListCursor, show decodeBase64 [] = some [] from rfl, Option.bind_some,
      show unmarshalCursor [] = none from rfl]
  rw [herror] at hdecode
  cases hdecode

/-- A number of an audit record is read back. -/
theorem atoi_printInt {n : ℕ} (h : n < 2 ^ 63) : Results.atoi (printInt n) = some (n : ℤ) := by
  have hdigits := toDigits_all n
  have hne : Nat.toDigits 10 n ≠ [] := Nat.toDigits_ne_nil
  have hvalue := Nat.ofDigitChars_ten_toDigits (n := n)
  change Results.atoi (Nat.toDigits 10 n) = _
  generalize Nat.toDigits 10 n = digits at *
  have hhead : ∀ c rest, digits = c :: rest → c ≠ '+' ∧ c ≠ '-' := by
    rintro c rest rfl
    rw [List.all_cons, Bool.and_eq_true] at hdigits
    constructor
    · rintro rfl
      exact absurd hdigits.1 (by decide)
    · rintro rfl
      exact absurd hdigits.1 (by decide)
  unfold Results.atoi
  split
  · exact absurd rfl (hhead _ _ rfl).1
  · exact absurd rfl (hhead _ _ rfl).2
  · simp only [hne, hdigits, false_or, Bool.true_eq_false, if_false]
    rw [hvalue, if_pos (by omega)]

/-! ## Lists -/

namespace Listing

variable {View : Type} {listing : Listing View}

/-- A row's position can be written in a cursor. -/
structure Writable (listing : Listing View) (row : View) : Prop where
  clock : ClockTime (listing.createdAt row)
  written : listing.writeID row ≠ []
  read : listing.readID (listing.writeID row) = .ok (listing.id row)

/-- The cursor of a row sets its position as the bound. -/
theorem Writable.bound {row : View} (h : listing.Writable row) (location : Location)
    (workspace : Uuid) :
    listing.bound workspace (encodeListCursor location listing.kind workspace.text.toList
      (listing.createdAt row) (listing.writeID row)) = .ok (listing.position row) := by
  rw [Listing.bound, if_neg (encodeListCursor_ne_nil _ _ _ h.clock h.written),
    decode_encodeListCursor _ _ _ _ _ h.clock h.written, if_pos ⟨rfl, rfl⟩]
  simp only [bind, Except.bind, h.read, Int.mul_ediv_cancel _ (show (1000 : ℤ) ≠ 0 by decide)]
  rfl

/-- However it is asked for, a page has room for a row. -/
theorem clampLimit_pos (limit : ℤ) : 0 < clampLimit limit := by
  unfold clampLimit
  split <;> omega

/-- The pages of a list are those of the bounds that its cursors set. -/
theorem readsAs (listing : Listing View) (workspace : Uuid) (rows : Request → List View)
    (hrows : ∀ request, ∀ row ∈ rows request, listing.Writable row) :
    ReadsAs
      (fun request cursorValue => answered (listing.page request.location workspace cursorValue
        request.limit (rows request)))
      (fun request below => some (keysetPage listing.position (clampLimit request.limit) below
        (rows request)))
      fun cursorValue => (listing.bound workspace cursorValue).toOption := by
  intro request cursor below hread
  have hread : (listing.bound workspace cursor).toOption = some below := hread
  cases hbound : listing.bound workspace cursor with
  | error err =>
    rw [hbound] at hread
    cases hread
  | ok bound =>
    rw [hbound] at hread
    obtain rfl := Option.some.inj hread
    simp only [page, hbound, bind, Except.bind, keysetPage]
    split
    · generalize hitems : (select listing.position bound (clampLimit request.limit + 1)
        (rows request)).take (clampLimit request.limit) = items
      cases hlast : items.getLast? with
      | none => exact ⟨items, none, none, rfl, rfl, rfl⟩
      | some last =>
        have hmem : last ∈ rows request := by
          have hin := List.mem_of_getLast? hlast
          rw [← hitems] at hin
          have hselected := List.mem_of_mem_take (List.mem_of_mem_take hin)
          exact (List.mem_filter.mp (List.mem_mergeSort.mp hselected)).1
        have hwritable := hrows request last hmem
        refine ⟨items, some (encodeListCursor request.location listing.kind
          workspace.text.toList (listing.createdAt last) (listing.writeID last)), some _, ?_,
          rfl, ?_⟩
        · simp only [answered, pure, Except.pure]
          rw [if_neg (encodeListCursor_ne_nil _ _ _ hwritable.clock hwritable.written)]
        · rw [Option.map_some, Option.map_some, hwritable.bound]
          rfl
    · exact ⟨_, none, none, rfl, rfl, rfl⟩

/-- In a list without repetitions exactly one row has a property that only one row has. -/
theorem length_filter_eq_one {rows : List View} {row : View} {p : View → Bool}
    (hnodup : rows.Nodup) (hrow : row ∈ rows) (hp : p row = true)
    (hunique : ∀ other ∈ rows, p other = true → other = row) : (rows.filter p).length = 1 := by
  have hreplicate : rows.filter p = List.replicate (rows.filter p).length row :=
    List.eq_replicate_of_mem fun other hother =>
      hunique other (List.mem_filter.mp hother).1 (List.mem_filter.mp hother).2
  have hfiltered := hnodup.filter p
  rw [hreplicate, List.nodup_replicate] at hfiltered
  have hpos := List.length_pos_of_mem (List.mem_filter.mpr ⟨hrow, hp⟩)
  omega

/-- A list whose rows are told apart by their identifiers is listed completely. -/
theorem listsAll {ID : Type} [DecidableEq ID] {workspace : Uuid} {rows : Store → List View}
    {id : View → ID} {Shows : Store → ID → Timestamp → Prop} (number : ID → ℕ)
    (hnumber : Function.Injective number) (hid : ∀ row, listing.id row = number (id row))
    (hwritable : ∀ snapshot : Snapshot, ∀ row ∈ rows snapshot.store, listing.Writable row)
    (hdistinct : ∀ store, ((rows store).map id).Nodup)
    (hshows : ∀ store i createdAt, Shows store i createdAt ↔
      ∃ row ∈ rows store, id row = i ∧ listing.createdAt row = createdAt) :
    ListsAll (fun request cursorValue => answered (listing.page request.location workspace
      cursorValue request.limit (rows request.snapshot.store))) listing.position id Shows := by
  have hreads := readsAs listing workspace
    (fun request => rows request.snapshot.store) fun request => hwritable request.snapshot
  have hstart : (listing.bound workspace []).toOption = some ⊤ := rfl
  have hkeys : ∀ store, ((rows store).map listing.position).Nodup := by
    intro store
    refine List.Nodup.of_map (fun p => (ofLex p).2) ?_
    rw [List.map_map, show (fun p => (ofLex p).2) ∘ listing.position = number ∘ id from
      funext hid, ← List.map_map]
    exact (hdistinct store).map hnumber
  have hanswers : Answers listing.position (fun request : Request => rows request.snapshot.store)
      (fun request below => some (keysetPage listing.position (clampLimit request.limit) below
        (rows request.snapshot.store))) := fun request below =>
    ⟨_, rfl, keysetPage_pages (clampLimit_pos request.limit) (hkeys request.snapshot.store)⟩
  constructor
  · intro requests items hwalk
    exact (Walk.descending hanswers (hreads.walk hstart hwalk)).1
  · intro requests items hwalk i createdAt hall
    have hinner := hreads.walk hstart hwalk
    have hmem := Walk.complete hanswers hinner (k := toLex (createdAt, number i))
      (WithTop.coe_lt_top _) fun request hrequest => by
        obtain ⟨row, hrow, rfl, rfl⟩ := (hshows _ _ _).mp (hall request hrequest)
        exact List.mem_map.mpr ⟨row, hrow, by rw [position, hid]⟩
    obtain ⟨row, hrow, hposition⟩ := List.mem_map.mp hmem
    -- Every item with the identifier is the row that its request shows.
    have hsame : ∀ other ∈ items, id other = i → listing.position other = listing.position row := by
      intro other hother hotherid
      obtain ⟨request, hrequest, hfound⟩ := Walk.listed hanswers hinner other hother
      obtain ⟨shown, hshown, hshownid, hcreated⟩ :=
        (hshows _ _ _).mp (hall request hrequest)
      have heq : other = shown := List.inj_on_of_nodup_map (hdistinct request.snapshot.store)
        hfound hshown (hotherid.trans hshownid.symm)
      rw [hposition, heq, position, hid, hshownid, hcreated]
    have hrowid : id row = i := hnumber (by
      rw [← hid]
      exact congrArg (fun p => (ofLex p).2) hposition)
    have hdescending := (Walk.descending hanswers hinner).1
    have hpositions : (items.map listing.position).Nodup :=
      List.pairwise_map.mpr (hdescending.imp fun h => h.ne')
    exact length_filter_eq_one hpositions.of_map hrow (decide_eq_true hrowid)
      fun other hother hotherid => List.inj_on_of_nodup_map hpositions hother hrow
        (hsame other hother (of_decide_eq_true hotherid))
  · rintro requests ⟨start, hstop⟩
    obtain ⟨n, items, hwalk⟩ := exists_walk requests hanswers
      (fun j (hj : start ≤ j) p hp => by
        obtain ⟨row, hrow, rfl⟩ := List.mem_map.mp hp
        obtain ⟨earlier, hearlier, hearlierid, hcreated⟩ := (hshows _ _ _).mp
          (hstop j hj _ _ ((hshows _ _ _).mpr ⟨row, hrow, rfl, rfl⟩))
        refine List.mem_map.mpr ⟨earlier, hearlier, ?_⟩
        rw [position, position, hcreated, hid, hid, hearlierid]) 0 ⊤
    rw [← List.range_eq_range'] at hwalk
    exact ⟨n, items, hreads.walk_of_inner hstart hwalk⟩

end Listing

/-! ## Runs and audit records -/

/-- The runs of a listing are the undeleted runs of the workspace. -/
theorem mem_workspaceRuns {workspace : Uuid} {store : Store} {view : RunView} :
    view ∈ store.workspaceRuns workspace ↔ ∃ row, store.run view.id = some row ∧
      row.workspace = workspace ∧ row.state ≠ .deleted ∧ view = row.view view.id := by
  simp only [Store.workspaceRuns, Store.runs, Store.scan, List.mem_filterMap]
  constructor
  · rintro ⟨id, -, hview⟩
    obtain ⟨row, hfilter, rfl⟩ := Option.map_eq_some_iff.mp hview
    obtain ⟨hrow, hshown⟩ := Option.filter_eq_some_iff.mp hfilter
    simp only [Bool.and_eq_true, decide_eq_true_eq] at hshown
    exact ⟨row, hrow, hshown.1, hshown.2, rfl⟩
  · rintro ⟨row, hrow, hworkspace, hstate, hview⟩
    refine ⟨view.id, ⟨.run view.id, ?_, rfl⟩, ?_⟩
    · exact AList.lookup_isSome.mp (by rw [Store.run] at hrow; rw [hrow]; rfl)
    · rw [hrow, Option.filter_some, if_pos (by simp [hworkspace, hstate]), Option.map_some,
        ← hview]

/-- The records of an audit listing are the records of the workspace. -/
theorem mem_workspaceAudits {workspace : Uuid} {store : Store} {view : AuditView} :
    view ∈ store.workspaceAudits workspace ↔ ∃ row, store.audit view.id = some row ∧
      row.workspace = workspace ∧ view = row.view view.id := by
  simp only [Store.workspaceAudits, Store.audits, Store.scan, List.mem_filterMap]
  constructor
  · rintro ⟨id, -, hview⟩
    obtain ⟨row, hfilter, rfl⟩ := Option.map_eq_some_iff.mp hview
    obtain ⟨hrow, hshown⟩ := Option.filter_eq_some_iff.mp hfilter
    exact ⟨row, hrow, of_decide_eq_true hshown, rfl⟩
  · rintro ⟨row, hrow, hworkspace, hview⟩
    refine ⟨view.id, ⟨.audit view.id, ?_, rfl⟩, ?_⟩
    · exact AList.lookup_isSome.mp (by rw [Store.audit] at hrow; rw [hrow]; rfl)
    · rw [hrow, Option.filter_some, if_pos (by simp [hworkspace]), Option.map_some, ← hview]

/-- A scan whose rows carry their identifiers meets no identifier twice. -/
theorem scan_ids_nodup {ι View : Type} {store : Store} {table : Key → Option ι}
    (htable : ∀ k k' i, i ∈ table k → i ∈ table k' → k = k') {view : ι → Option View}
    {id : View → ι} (hid : ∀ i row, view i = some row → id row = i) :
    (((store.scan table).filterMap view).map id).Nodup := by
  have hscan : (store.scan table).Nodup := store.keys_nodup.filterMap htable
  refine hscan.sublist ?_
  generalize store.scan table = ids
  induction ids with
  | nil => exact List.Sublist.refl _
  | cons i ids ih =>
    cases hview : view i with
    | none =>
      rw [List.filterMap_cons_none hview]
      exact ih.cons i
    | some row =>
      rw [List.filterMap_cons_some hview, List.map_cons, hid i row hview]
      exact ih.cons_cons i

/-- Every listed run can be written into a cursor. -/
theorem runListing_writable {workspace : Uuid} (snapshot : Snapshot) {view : RunView}
    (hview : view ∈ snapshot.store.workspaceRuns workspace) : runListing.Writable view := by
  obtain ⟨row, hrow, -, -, heq⟩ := mem_workspaceRuns.mp hview
  constructor
  · have hclock := snapshot.runTimes _ row hrow
    rw [heq]
    exact hclock
  · intro hnil
    have hlength := Uuid.text_length view.id
    rw [show view.id.text.toList = [] from hnil] at hlength
    cases hlength
  · simp only [runListing, String.ofList_toList, Uuid.parse_text]

/-- Every listed record can be written into a cursor. -/
theorem auditListing_writable {workspace : Uuid} (snapshot : Snapshot) {view : AuditView}
    (hview : view ∈ snapshot.store.workspaceAudits workspace) : auditListing.Writable view := by
  obtain ⟨row, hrow, -, heq⟩ := mem_workspaceAudits.mp hview
  constructor
  · have hclock := snapshot.auditTimes _ row hrow
    rw [heq]
    exact hclock
  · exact Nat.toDigits_ne_nil
  · have hatoi : Results.atoi (printInt view.id) = some (view.id : ℤ) :=
      atoi_printInt (snapshot.auditIDs _ row hrow)
    simp only [auditListing, hatoi, Int.toNat_natCast]

/-- Runs are listed completely. -/
theorem runs_listsAll (workspace : Uuid) :
    ListsAll (runPages workspace) runListing.position RunView.id (ShowsRun workspace) := by
  refine Listing.listsAll BitVec.toNat (fun _ _ => BitVec.eq_of_toNat_eq)
    (fun _ => rfl) (fun snapshot _ => runListing_writable snapshot) (fun store => ?_) ?_
  · refine scan_ids_nodup (fun k k' i hk hk' => ?_) fun id view hview => ?_
    · cases k <;> simp at hk
      cases k' <;> simp at hk'
      rw [hk, hk']
    · obtain ⟨row, -, rfl⟩ := Option.map_eq_some_iff.mp hview
      rfl
  · intro store id createdAt
    constructor
    · rintro ⟨row, hrow, hworkspace, hstate, rfl⟩
      exact ⟨row.view id, mem_workspaceRuns.mpr ⟨row, hrow, hworkspace, hstate, rfl⟩, rfl, rfl⟩
    · rintro ⟨view, hview, rfl, rfl⟩
      obtain ⟨row, hrow, hworkspace, hstate, heq⟩ := mem_workspaceRuns.mp hview
      exact ⟨row, hrow, hworkspace, hstate, by rw [heq]; rfl⟩

/-- Audit records are listed completely. -/
theorem audits_listsAll (workspace : Uuid) :
    ListsAll (auditPages workspace) auditListing.position AuditView.id
      (ShowsAudit workspace) := by
  refine Listing.listsAll id (fun _ _ h => h) (fun _ => rfl)
    (fun snapshot _ => auditListing_writable snapshot) (fun store => ?_) ?_
  · refine scan_ids_nodup (fun k k' i hk hk' => ?_) fun id view hview => ?_
    · cases k <;> simp at hk
      cases k' <;> simp at hk'
      rw [hk, hk']
    · obtain ⟨row, -, rfl⟩ := Option.map_eq_some_iff.mp hview
      rfl
  · intro store id createdAt
    constructor
    · rintro ⟨row, hrow, hworkspace, rfl⟩
      exact ⟨row.view id, mem_workspaceAudits.mpr ⟨row, hrow, hworkspace, rfl⟩, rfl, rfl⟩
    · rintro ⟨view, hview, rfl, rfl⟩
      obtain ⟨row, hrow, hworkspace, heq⟩ := mem_workspaceAudits.mp hview
      exact ⟨row, hrow, hworkspace, by rw [heq]; rfl⟩

/-- A cursor is refused where it was not made for, whatever it says. -/
theorem decode_foreign (location : Location) {kind workspace kind' workspace' : Text}
    (createdAt : ℤ) (id : Text) (hforeign : (kind, workspace) ≠ (kind', workspace')) :
    decodeListCursor (encodeListCursor location kind workspace createdAt id) kind' workspace' =
      .error invalidListCursor := by
  cases htime : marshalTime location createdAt with
  | none =>
    simp only [decodeListCursor, encodeListCursor, htime, Option.map_none, Option.getD_none,
      decode_encodeBase64, Option.bind_some, show unmarshalCursor [] = none from rfl]
  | some time =>
    have hread := unmarshalCursor_object kind workspace id
      (parseTime_marshalTime htime)
    simp only [decodeListCursor, encodeListCursor, htime, Option.map_some, Option.getD_some,
      decode_encodeBase64, Option.bind_some, hread]
    rw [if_pos]
    by_contra hsame
    simp only [not_or, not_not] at hsame
    exact hforeign (Prod.ext hsame.1 hsame.2.1)

/-- A list answers a cursor that was made elsewhere with an error. -/
theorem Listing.page_foreign {View : Type} (listing : Listing View) {kind : Text}
    {workspace workspace' : Uuid} {createdAt : ℤ} {id : Text} (hclock : ClockTime createdAt)
    (hid : id ≠ []) (hforeign : (kind, workspace) ≠ (listing.kind, workspace'))
    (location location' : Location) (limit : ℤ) (rows : List View) :
    listing.page location' workspace'
      (encodeListCursor location kind workspace.text.toList createdAt id) limit rows =
        .error invalidListCursor := by
  have htexts : (kind, workspace.text.toList) ≠ (listing.kind, workspace'.text.toList) := by
    intro heq
    obtain ⟨hkind, htext⟩ := Prod.mk.inj heq
    exact hforeign (Prod.ext hkind (Uuid.text_injective (String.toList_inj.mp htext)))
  rw [Listing.page, Listing.bound, if_neg (encodeListCursor_ne_nil _ _ _ hclock hid),
    decode_foreign location createdAt id htexts]
  rfl

/-- Pagination neither loses nor repeats rows. Both lists are listed completely, whatever comes
and goes between the pages, a cursor is refused by every list and workspace but its own, and it
denotes the exact position that it was made from. -/
theorem pagination_complete :
    (∀ workspace, ListsAll (runPages workspace) runListing.position RunView.id
      (ShowsRun workspace)) ∧
    (∀ workspace, ListsAll (auditPages workspace) auditListing.position AuditView.id
      (ShowsAudit workspace)) ∧
    (∀ location kind workspace createdAt id, ClockTime createdAt → id ≠ [] →
      decodeListCursor (encodeListCursor location kind workspace createdAt id) kind workspace =
        .ok ⟨kind, workspace, createdAt * 1000, id⟩) ∧
    (∀ location kind workspace kind' workspace' createdAt id,
      (kind, workspace) ≠ (kind', workspace') →
        decodeListCursor (encodeListCursor location kind workspace createdAt id) kind'
          workspace' = .error invalidListCursor) ∧
    ∀ location location' kind (workspace workspace' : Uuid) createdAt id limit store,
      ClockTime createdAt → id ≠ [] →
      ((kind, workspace) ≠ (runListing.kind, workspace') →
        listRunPage location' workspace' (encodeListCursor location kind workspace.text.toList
          createdAt id) limit store = .error invalidListCursor) ∧
      ((kind, workspace) ≠ (auditListing.kind, workspace') →
        listAuditPage location' workspace' (encodeListCursor location kind workspace.text.toList
          createdAt id) limit store = .error invalidListCursor) := by
  constructor
  · exact runs_listsAll
  constructor
  · exact audits_listsAll
  constructor
  · intro location kind workspace createdAt id hclock hid
    rw [decode_encodeListCursor _ _ _ _ _ hclock hid, if_pos ⟨rfl, rfl⟩]
  constructor
  · intro location kind workspace kind' workspace' createdAt id hforeign
    exact decode_foreign location createdAt id hforeign
  · intro location location' kind workspace workspace' createdAt id limit store hclock hid
    constructor
    · intro hforeign
      exact runListing.page_foreign hclock hid hforeign location location' limit _
    · intro hforeign
      exact auditListing.page_foreign hclock hid hforeign location location' limit _

/-- A workspace with the given runs. -/
def runStore (runs : List (Uuid × Timestamp)) : Store :=
  runs.foldr (fun run store =>
    store.insert (.run run.1) (RunRow.create 7 "digest" 1 "key" run.2)) ∅

/-- The runs of the example are the ones it was made from. -/
theorem runStore_run {runs : List (Uuid × Timestamp)} {id : Uuid} {row : RunRow}
    (h : (runStore runs).run id = some row) : (id, row.createdAt) ∈ runs := by
  induction runs with
  | nil => cases h
  | cons run runs ih =>
    by_cases hid : id = run.1
    · subst hid
      have hrow : (runStore (run :: runs)).run run.1 = some _ := AList.lookup_insert _
      obtain rfl := Option.some.inj (hrow.symm.trans h)
      exact List.mem_cons_self
    · have hne : (Key.run id) ≠ .run run.1 := by simpa using hid
      exact List.mem_cons_of_mem _ (ih ((AList.lookup_insert_ne hne).symm.trans h))

/-- The example has no audit records. -/
theorem runStore_audit (runs : List (Uuid × Timestamp)) (id : ℕ) :
    (runStore runs).audit id = none := by
  induction runs with
  | nil => rfl
  | cons run runs ih => exact (AList.lookup_insert_ne (by simp)).trans ih

/-- The state of the workspace. -/
def runSnapshot (runs : List (Uuid × Timestamp)) (h : ∀ run ∈ runs, ClockTime run.2) :
    Snapshot where
  store := runStore runs
  runTimes id row hrow := h _ (runStore_run hrow)
  auditTimes id row hrow := absurd (hrow.symm.trans (runStore_audit runs id)) (by simp)
  auditIDs id row hrow := absurd (hrow.symm.trans (runStore_audit runs id)) (by simp)

/-- Requests for one run at a time. Behind the first one a run is gone and a newer one is
there. -/
def changingRequests : ℕ → Request
  | 0 => {
      snapshot := runSnapshot [(4, 1700000000000004), (5, 1700000000000005),
        (6, 1700000000000006)] (by decide)
      limit := 1
      location := Location.utc }
  | _ + 1 => {
      snapshot := runSnapshot [(4, 1700000000000004), (5, 1700000000000005),
        (8, 1700000000000008)] (by decide)
      limit := 1
      location := Location.utc }

/-- The two runs that stay are listed once each on pages that hold one run. -/
theorem pagination_complete_demo :
    (∃ n items, Walk (runPages 7) ((List.range n).map changingRequests) [] items ∧
      (items.filter fun row => row.id = 4).length = 1 ∧
      (items.filter fun row => row.id = 5).length = 1) ∧
    decodeListCursor (encodeListCursor Location.utc "runs".toList ['w'] 1700000000123456 ['i'])
      "runs".toList ['w'] = .ok ⟨"runs".toList, ['w'], 1700000000123456000, ['i']⟩ ∧
    decodeListCursor (encodeListCursor Location.utc "runs".toList ['w'] 1700000000123456 ['i'])
      "audit".toList ['w'] = .error invalidListCursor := by
  obtain ⟨hruns, -, hexact, hforeign, -⟩ := pagination_complete
  obtain ⟨n, items, hwalk⟩ := (hruns 7).ends changingRequests ⟨1, by
    rintro (_ | j) hstart _ _ hshown
    · omega
    · exact hshown⟩
  refine ⟨⟨n, items, hwalk, (hruns 7).once _ items hwalk 4 1700000000000004 ?_,
      (hruns 7).once _ items hwalk 5 1700000000000005 ?_⟩,
    hexact _ _ _ _ _ ⟨by decide, by decide⟩ (by decide), hforeign _ _ _ _ _ _ _ (by decide)⟩
  all_goals
    intro request hrequest
    obtain ⟨j, -, rfl⟩ := List.mem_map.mp hrequest
    cases j <;> exact ⟨_, rfl, rfl, by decide, rfl⟩

end Tracewake.Hosted
