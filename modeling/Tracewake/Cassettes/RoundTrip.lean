import Tracewake.Cassettes.Headers
import Tracewake.Cassettes.Import
import Tracewake.Recording.FaithfulReplay

/-!
# From one store to another

A run that is exported from one store and imported into another is the same run there: the
same events, the same bytes under every digest, and the runs that were there before are read
as before. The run must not be known in the second store, and a blob that it already has must
have the bytes that the first store has.
-/

namespace Tracewake.Cassettes

open JsonText Recording Effects

variable {F D : Type} [Python F] [Sha256 D] [DecidableEq D] [Pydantic F D]

/-! ## Reading a store -/

omit [DecidableEq D] in
/-- What is read from a store belongs to the run that was asked for. -/
theorem events_ofRun {store : Store F D} {runId : Text} {events : List (StoredEvent F D)}
    (h : store.events runId = some events) : ∀ stored ∈ events, stored.runId = runId := by
  have hread : ∀ (rows : List EventRow) (events : List (StoredEvent F D)),
      (∀ row ∈ rows, row.runId = runId) → rows.mapM (Store.readRow D) = some events →
        ∀ stored ∈ events, stored.runId = runId := by
    intro rows
    induction rows with
    | nil =>
      intro events _ hevents
      cases hevents
      exact fun _ hmem => absurd hmem List.not_mem_nil
    | cons row rest ih =>
      intro events hrows hevents
      obtain ⟨hrow, hrest⟩ := List.forall_mem_cons.mp hrows
      rw [List.mapM_cons] at hevents
      obtain ⟨head, hhead, hevents⟩ := Option.bind_eq_some_iff.mp hevents
      obtain ⟨tail, htail, heq⟩ := Option.bind_eq_some_iff.mp hevents
      cases heq
      refine List.forall_mem_cons.mpr ⟨?_, ih tail hrest htail⟩
      rw [Store.readRow] at hhead
      obtain ⟨data, -, hhead⟩ := Option.bind_eq_some_iff.mp hhead
      obtain ⟨value, -, hhead⟩ := Option.bind_eq_some_iff.mp hhead
      split at hhead
      · obtain ⟨event, -, heq⟩ := Option.bind_eq_some_iff.mp hhead
        cases heq
        exact hrow
      · cases hhead
  refine hread _ _ (fun row hrow => ?_) h
  have hmem := List.mem_mergeSort.mp hrow
  exact of_decide_eq_true (List.mem_filter.mp hmem).2

omit [DecidableEq D] in
/-- Events that were written in sequence are read back. -/
theorem events_of_rows {store : Store F D} {runId : Text} {events : List (StoredEvent F D)}
    (hsequence : InSequence events)
    (hrows : store.rowsOf runId = events.map fun stored =>
      Store.row D stored.runId stored.seq stored.event) :
    store.events runId = some events := by
  have hsorted : Store.inOrder (events.map fun stored =>
      Store.row D stored.runId stored.seq stored.event) =
        events.map fun stored => Store.row D stored.runId stored.seq stored.event := by
    apply List.mergeSort_of_pairwise
    rw [List.pairwise_map]
    have hincreasing : (events.map fun stored => stored.seq).Pairwise (· ≤ ·) := by
      rw [hsequence, List.pairwise_map]
      exact List.pairwise_lt_range.imp fun h => by omega
    exact (List.pairwise_map.mp hincreasing).imp fun h => decide_eq_true h
  rw [Store.events, hrows, hsorted]
  clear hsequence hrows hsorted
  induction events with
  | nil => rfl
  | cons stored rest ih =>
    rw [List.map_cons, List.mapM_cons, Store.readRow_row, ih]
    rfl

omit [Python F] [Pydantic F D] in
/-- Blobs that are there, with their digests and of their sizes, pass. -/
theorem checkedStoreBlobs_returns {store : Store F D} {refs : List (BlobRef D)}
    (digests : List D) (h : ∀ digest ∈ digests, ∃ data, store.blobs digest = some data ∧
      Sha256.hash data = digest ∧ Sized refs digest data.length) :
    ∃ checked, checkedStoreBlobs store refs digests = .ok checked ∧
      ∀ blob ∈ checked.1, store.blobs blob.digest = some blob.data := by
  induction digests with
  | nil => exact ⟨_, rfl, fun _ hmem => absurd hmem List.not_mem_nil⟩
  | cons digest rest ih =>
    obtain ⟨⟨data, hdata, hhash, hsized⟩, hrest⟩ := List.forall_mem_cons.mp h
    obtain ⟨checked, hchecked, hstored⟩ := ih hrest
    have hget : store.get digest = .ok data := by
      rw [Store.get, hdata]
      exact if_pos hhash
    rw [checkedStoreBlobs, hget]
    dsimp only
    rw [check_of hhash, check_of hsized, hchecked]
    exact ⟨_, rfl, List.forall_mem_cons.mpr ⟨hdata, hstored⟩⟩

omit [Sha256 D] [Pydantic F D] in
/-- Every digest of a blob is the digest of a reference. -/
theorem mem_blobDigests {events : List (StoredEvent F D)} {digest : D} :
    digest ∈ blobDigests events ↔ ∃ ref ∈ blobRefs events, ref.digest = digest := by
  rw [blobDigests, List.mem_eraseDups, List.mem_map]

/-! ## Without failures -/

section Success

variable {fails : ℕ → Bool} {inode : D → ℕ}

omit [Pydantic F D] in
omit [Python F] [Sha256 D] [DecidableEq D] in
/-- Where no operation fails, an operation makes its change. -/
theorem operate_returns (hfails : ∀ n, fails n = false)
    (change : Importing F D → Importing F D)
    (state : Importing F D) :
    operate fails change state =
      (.ok (), change { state with operations := state.operations + 1 }) :=
  (operate_eq_ok fails).mpr ⟨hfails _, rfl⟩

omit [Pydantic F D] in
omit [Python F] in
/-- A blob is promoted where its bytes are not different from those that are there. -/
theorem promoteBlob_returns (hfails : ∀ n, fails n = false) {digest : D}
    {expected : List UInt8} {state : Importing F D}
    (hhash : Sha256.hash expected = digest)
    (hfile : ∀ file, state.disk.files digest = some file → file.data = expected) :
    ∃ state', promoteBlob fails inode digest expected state = (.ok (), state') := by
  rw [promoteBlob, run_bind, run_get]
  dsimp only
  cases hfound : state.disk.files digest with
  | some file =>
    have hdata := hfile file hfound
    dsimp only
    rw [run_bind_ok (operate_returns hfails id state)]
    refine ⟨_, raiseIf_eq_ok.mpr ⟨?_, rfl⟩⟩
    rw [hdata, hhash]
    rintro (hne | hne)
    · exact hne rfl
    · exact hne rfl
  | none => exact ⟨_, operate_returns hfails _ state⟩

omit [Pydantic F D] in
omit [Python F] in
/-- Where no operation fails, the blobs are promoted one after the other. -/
theorem forM_promoteBlob_returns (hfails : ∀ n, fails n = false) {refs : List (BlobRef D)}
    {blobs : List (CheckedBlob refs)}
    (hnodup : (blobs.map fun blob => blob.digest).Nodup) {state : Importing F D}
    (hfiles : ∀ blob ∈ blobs, ∀ file, state.disk.files blob.digest = some file →
      file.data = blob.data) :
    ∃ state', (blobs.forM fun blob => promoteBlob fails inode blob.digest blob.data) state =
      (.ok (), state') := by
  refine forM_returns (P := fun blobs state => (blobs.map fun blob => blob.digest).Nodup ∧
    ∀ blob ∈ blobs, ∀ file, state.disk.files blob.digest = some file → file.data = blob.data)
    ?_ ⟨hnodup, hfiles⟩
  rintro blob rest state ⟨hnodup, hfiles⟩
  obtain ⟨hblob, hrest⟩ := List.forall_mem_cons.mp hfiles
  rw [List.map_cons, List.nodup_cons] at hnodup
  have hpromotes : ∃ state', promoteBlob fails inode blob.digest blob.data state =
      (.ok (), state') := promoteBlob_returns hfails blob.hash hblob
  obtain ⟨state', hpromote⟩ := hpromotes
  refine ⟨state', hpromote, hnodup.2, fun other hother file => ?_⟩
  have hne : blob.digest ≠ other.digest := by
    intro heq
    exact hnodup.1 (heq ▸ List.mem_map_of_mem hother)
  rw [promoteBlob_disk fails hpromote]
  simp only [if_neg hne, Option.or_none]
  exact hrest other hother file

omit [DecidableEq D] in
/-- Where no operation fails, the events are inserted one after the other. -/
theorem forM_insertImportEvent_returns (hfails : ∀ n, fails n = false)
    {events : List (StoredEvent F D)} {runId : Text}
    (hsequence : (events.map fun stored => stored.seq).Nodup)
    (hrun : ∀ stored ∈ events, stored.runId = runId) {state : Importing F D}
    (hrows : ∀ row ∈ state.disk.rows, row.runId ≠ runId) :
    ∃ state', (events.forM fun stored => insertImportEvent fails stored) state =
      (.ok (), state') := by
  refine forM_returns (P := fun events state => (events.map fun stored => stored.seq).Nodup ∧
    ∀ stored ∈ events, ∀ row ∈ state.disk.rows, row.runId = stored.runId → row.seq ≠ stored.seq)
    ?_ ⟨hsequence, fun stored hstored row hrow heq =>
      absurd (heq.trans (hrun stored hstored)) (hrows row hrow)⟩
  rintro stored rest state ⟨hnodup, hvacant⟩
  obtain ⟨hstored, hrest⟩ := List.forall_mem_cons.mp hvacant
  rw [List.map_cons, List.nodup_cons] at hnodup
  have hguard : ¬ ∃ row ∈ state.disk.rows, row.runId = stored.runId ∧ row.seq = stored.seq := by
    rintro ⟨row, hrow, hid, hseq⟩
    exact hstored row hrow hid hseq
  rw [insertImportEvent, run_bind, run_get]
  dsimp only
  rw [run_bind_ok (raiseIf_eq_ok.mpr ⟨hguard, rfl⟩), operate_returns hfails]
  refine ⟨_, rfl, hnodup.2, fun other hother row hrow hid => ?_⟩
  rcases List.mem_append.mp hrow with hrow | hrow
  · exact hrest other hother row hrow hid
  · rw [List.mem_singleton.mp hrow]
    intro hseq
    apply hnodup.1
    have hsame : stored.seq = other.seq := hseq
    rw [hsame]
    exact List.mem_map_of_mem hother

end Success

/-! ## The store behind the import -/

section Imported

variable {inode : D → ℕ} {disk : Disk F D} {cassette : ValidatedCassette F D}

/-- The rows of the imported run are its events. -/
theorem rowsOf_imported (hrows : ∀ row ∈ disk.rows, row.runId ≠ cassette.header.runId) :
    (disk.imported inode cassette).store.rowsOf cassette.header.runId =
      cassette.events.map fun stored =>
        Store.row D stored.runId stored.seq stored.event := by
  have hold : disk.rows.filter (fun row => row.runId = cassette.header.runId) = [] := by
    apply List.filter_eq_nil_iff.mpr
    intro row hrow
    rw [decide_eq_true_eq]
    exact hrows row hrow
  have hnew : (cassette.events.map fun stored =>
      Store.row D stored.runId stored.seq stored.event).filter
        (fun row => row.runId = cassette.header.runId) =
          cassette.events.map fun stored =>
            Store.row D stored.runId stored.seq stored.event := by
    apply List.filter_eq_self.mpr
    intro row hrow
    obtain ⟨stored, hstored, rfl⟩ := List.mem_map.mp hrow
    exact decide_eq_true (cassette.ofRun stored hstored)
  change (disk.rows ++ _).filter _ = _
  rw [List.filter_append, hold, hnew, List.nil_append]

/-- The rows of another run are what they were. -/
theorem events_imported_other {runId : Text} (hne : runId ≠ cassette.header.runId) :
    (disk.imported inode cassette).store.events runId = disk.store.events runId := by
  have hnew : (cassette.events.map fun stored =>
      Store.row D stored.runId stored.seq stored.event).filter
        (fun row => row.runId = runId) = [] := by
    apply List.filter_eq_nil_iff.mpr
    intro row hrow
    obtain ⟨stored, hstored, rfl⟩ := List.mem_map.mp hrow
    rw [decide_eq_true_eq]
    intro heq
    exact hne (heq.symm.trans (cassette.ofRun stored hstored))
  have hrows : (disk.imported inode cassette).store.rowsOf runId = disk.store.rowsOf runId := by
    change (disk.rows ++ _).filter _ = disk.rows.filter _
    rw [List.filter_append, hnew, List.append_nil]
  rw [Store.events, Store.events, hrows]

/-- Every blob of the cassette is in the store. -/
theorem blobs_imported {blob : CheckedBlob (blobRefs cassette.events)}
    (hblob : blob ∈ cassette.blobs)
    (hfile : ∀ file, disk.files blob.digest = some file → file.data = blob.data) :
    (disk.imported inode cassette).store.blobs blob.digest = some blob.data := by
  have hnodup : (cassette.blobs.map fun blob => blob.digest).Nodup := by
    rw [cassette.complete]
    exact nodup_eraseDups _
  change Option.map (fun file => file.data) ((disk.files blob.digest).or _) = _
  cases hold : disk.files blob.digest with
  | some file => rw [Option.some_or, Option.map_some, hfile file hold]
  | none =>
    cases hfind : cassette.blobs.find? fun other => other.digest = blob.digest with
    | none =>
      have habsent := List.find?_eq_none.mp hfind blob hblob
      simp at habsent
    | some found =>
      have hdigest : found.digest = blob.digest := by simpa using List.find?_some hfind
      have heq := List.inj_on_of_nodup_map hnodup (List.mem_of_find?_eq_some hfind) hblob hdigest
      rw [heq]
      rfl

/-- A blob that was there is what it was. -/
theorem blobs_imported_old {digest : D} {data : List UInt8}
    (h : disk.store.blobs digest = some data) :
    (disk.imported inode cassette).store.blobs digest = some data := by
  obtain ⟨file, hfile, hdata⟩ := Option.map_eq_some_iff.mp h
  change Option.map (fun file => file.data) ((disk.files digest).or _) = _
  rw [hfile, Option.some_or, Option.map_some, hdata]

section Transaction

variable {fails : ℕ → Bool} (hruns : ∀ run ∈ disk.runs, run.runId ≠ cassette.header.runId)
  (hrows : ∀ row ∈ disk.rows, row.runId ≠ cassette.header.runId)
  (hfiles : ∀ blob ∈ cassette.blobs, ∀ file, disk.files blob.digest = some file →
    file.data = blob.data)

include hrows hfiles

/-- What was inserted passes the checks before the commit. -/
theorem checkStored_imported {state : Importing F D}
    (hdisk : state.disk = disk.imported inode cassette) :
    checkStored cassette.header state = (.ok (), state) := by
  have hblobs : ∀ digest ∈ blobDigests cassette.events, ∃ data,
      (disk.imported inode cassette).store.blobs digest = some data ∧
        Sha256.hash data = digest ∧ Sized (blobRefs cassette.events) digest data.length := by
    intro digest hdigest
    rw [← cassette.complete] at hdigest
    obtain ⟨blob, hblob, rfl⟩ := List.mem_map.mp hdigest
    exact ⟨blob.data, blobs_imported hblob (hfiles blob hblob), blob.hash, blob.sized⟩
  obtain ⟨checked, hchecked, -⟩ := checkedStoreBlobs_returns _ hblobs
  rw [checkStored_eq_ok, hdisk]
  exact ⟨rfl, cassette.events, checked,
    events_of_rows cassette.inSequence (rowsOf_imported hrows), cassette.digest, hchecked⟩

include hruns

/-- Without failures the transaction is committed where the run has no place yet and its blobs
do not differ from those that are there. -/
theorem importInside_returns (hfails : ∀ n, fails n = false) {state : Importing F D}
    (hdisk : state.disk = disk) :
    ∃ state', importInside fails inode cassette state = (.ok (), state') := by
  subst hdisk
  have hnodup : (cassette.blobs.map fun blob => blob.digest).Nodup := by
    rw [cassette.complete]
    exact nodup_eraseDups _
  have hseqs : (cassette.events.map fun stored => stored.seq).Nodup := by
    rw [cassette.inSequence]
    exact List.nodup_range.map Nat.cast_injective
  have hguard : ¬ ∃ run ∈ state.disk.runs, run.runId = (runHeader cassette.header).runId := by
    rintro ⟨run, hrun, heq⟩
    exact hruns run hrun heq
  have hpromotes : ∃ promoted, (cassette.blobs.forM fun blob =>
      promoteBlob fails inode blob.digest blob.data) state = (.ok (), promoted) :=
    forM_promoteBlob_returns hfails hnodup hfiles
  obtain ⟨promoted, hpromote⟩ := hpromotes
  have hpromoted := forM_promoteBlob_disk fails hpromote
  have hinserts : ∀ inserted : Importing F D, inserted.disk.rows = state.disk.rows →
      ∃ logged, (cassette.events.forM fun stored => insertImportEvent fails stored) inserted =
        (.ok (), logged) := by
    intro inserted heq
    apply forM_insertImportEvent_returns hfails hseqs cassette.ofRun
    rw [heq]
    exact hrows
  rw [importInside, run_bind, run_get]
  dsimp only
  rw [run_bind_ok (raiseIf_eq_ok.mpr ⟨hguard, rfl⟩), run_bind_ok hpromote,
    run_bind_ok (operate_returns hfails _ _)]
  dsimp only
  obtain ⟨logged, hlog⟩ := hinserts ⟨⟨promoted.disk.runs ++ [runHeader cassette.header],
    promoted.disk.rows, promoted.disk.files⟩, promoted.created, promoted.operations + 1⟩ (by
      rw [hpromoted])
  have hdisk : logged.disk = state.disk.imported inode cassette := by
    rw [forM_insertImportEvent_disk fails hlog, hpromoted]
    rfl
  rw [run_bind_ok hlog, run_bind_ok (checkStored_imported hrows hfiles hdisk)]
  exact ⟨_, operate_returns hfails id logged⟩

/-- Without failures an accepted cassette is imported there. -/
theorem importCassette_returns [HeaderJson F D] (hfails : ∀ n, fails n = false) {source : Source}
    (hvalid : validateCassette source = .ok cassette) :
    ∃ state, importCassette fails inode source ⟨disk, [], 0⟩ =
      (.ok (runHeader cassette.header), state) ∧ state.disk = disk.imported inode cassette := by
  have hstages : ∃ staged, (stageBlobs fails (cassette.blobs.map fun blob => blob.digest) :
      Import F D Unit) ⟨disk, [], 0⟩ = (.ok (), staged) :=
    forM_returns (P := fun _ _ => True)
      (fun _ _ state _ => ⟨_, operate_returns hfails id state, trivial⟩) trivial
  obtain ⟨staged, hstage⟩ := hstages
  have hstaged : staged.disk = disk := by
    have hkept : Ensures (fun state => state.disk = disk ∧ state.created = [])
        (stageBlobs fails (cassette.blobs.map fun blob => blob.digest) : Import F D Unit)
        fun _ => True := .forM fun _ _ => operate_keeps fails
    have hkept := (hkept ⟨disk, [], 0⟩ ⟨rfl, rfl⟩).1
    rw [hstage] at hkept
    exact hkept.1
  have hinsides : ∃ state, importInside fails inode cassette
      (id { staged with operations := staged.operations + 1 }) = (.ok (), state) :=
    importInside_returns hruns hrows hfiles hfails hstaged
  obtain ⟨state, hinside⟩ := hinsides
  refine ⟨state, ?_, ?_⟩
  · rw [importCassette, hvalid]
    dsimp only
    rw [run_bind_ok hstage, run_bind_ok (operate_returns hfails id staged),
      run_bind_ok ((transaction_ok fails).mpr hinside)]
    rfl
  · obtain ⟨-, hdisk, -⟩ := importInside_ok fails hinside
    rw [hdisk]
    exact congrArg (Disk.imported inode · cassette) hstaged

end Transaction

end Imported

/-! ## The round trip -/

/-- A run of a store that can be exported: its events are in sequence, their hashes are those
of their messages and arguments, and their blobs are there. -/
structure Exportable (store : Store F D) (runId : Text) (events : List (StoredEvent F D)) :
    Prop where
  stored : store.events runId = some events
  inSequence : InSequence events
  consistent : ∀ stored ∈ events, Event.Consistent D stored.event
  blobs : ∀ ref ∈ blobRefs events, ∃ data, store.blobs ref.digest = some data ∧
    Sha256.hash data = ref.digest ∧ data.length = ref.size

/-- An export that succeeds is accepted, where the events are in sequence and consistent. -/
theorem exportCassette_accepted [HeaderJson F D] [Spelled D] {version : Text} {store : Store F D}
    {header : RunHeader F} {events : List (StoredEvent F D)} {source : Source}
    (hstored : store.events header.runId = some events) (hsequence : InSequence events)
    (hconsistent : ∀ stored ∈ events, Event.Consistent D stored.event)
    (h : exportCassette version store header = .ok source) :
    ∃ cassette, validateCassette source = .ok cassette ∧
      cassette.header = cassetteHeader version header events ∧ cassette.events = events := by
  rw [exportCassette, accepts_required] at h
  obtain ⟨events', hevents, h⟩ := h
  obtain rfl : events' = events := Option.some.inj (hevents.symm.trans hstored)
  obtain ⟨⟨blobs, hcomplete⟩, -, heq⟩ := accepts_bind.mp h
  cases heq
  let cassette : ValidatedCassette F D :=
    ⟨cassetteHeader version header events', events', blobs, rfl, rfl, events_ofRun hstored,
      hsequence, rfl, hconsistent, rfl, hcomplete⟩
  exact ⟨cassette, validateCassette_written cassette, rfl, rfl⟩

/-- The run that is exported is accepted as it is. -/
theorem Exportable.exported [HeaderJson F D] [Spelled D] {store : Store F D}
    {header : RunHeader F} {events : List (StoredEvent F D)}
    (h : Exportable store header.runId events) (version : Text) :
    ∃ source cassette, exportCassette version store header = .ok source ∧
      validateCassette source = .ok cassette ∧
      cassette.header = cassetteHeader version header events ∧ cassette.events = events ∧
      ∀ blob ∈ cassette.blobs, store.blobs blob.digest = some blob.data := by
  have hblobs : ∀ digest ∈ blobDigests events, ∃ data, store.blobs digest = some data ∧
      Sha256.hash data = digest ∧ Sized (blobRefs events) digest data.length := by
    intro digest hdigest
    obtain ⟨ref, href, rfl⟩ := mem_blobDigests.mp hdigest
    obtain ⟨data, hdata, hhash, -⟩ := h.blobs ref href
    refine ⟨data, hdata, hhash, fun other hother heq => ?_⟩
    obtain ⟨data', hdata', -, hsize⟩ := h.blobs other hother
    rw [heq, hdata] at hdata'
    cases hdata'
    exact hsize.symm
  obtain ⟨⟨blobs, hcomplete⟩, hchecked, hstored⟩ := checkedStoreBlobs_returns _ hblobs
  let cassette : ValidatedCassette F D :=
    ⟨cassetteHeader version header events, events, blobs, rfl, rfl, events_ofRun h.stored,
      h.inSequence, rfl, h.consistent, rfl, hcomplete⟩
  exact ⟨_, cassette, exportCassette_eq version h.stored hchecked,
    validateCassette_written cassette, rfl, rfl, hstored⟩

/-- A run that is exported from a store and imported into another one is the same run there,
and what was there is read as before. The other store has no other bytes under a digest that
the run refers to. -/
theorem import_export [HeaderJson F D] [Spelled D] {store : Store F D} {header : RunHeader F}
    {events : List (StoredEvent F D)} (h : Exportable store header.runId events)
    (version : Text) (inode : D → ℕ) (disk : Disk F D)
    (hruns : ∀ run ∈ disk.runs, run.runId ≠ header.runId)
    (hrows : ∀ row ∈ disk.rows, row.runId ≠ header.runId)
    (hfiles : ∀ ref ∈ blobRefs events, ∀ file data, disk.files ref.digest = some file →
      store.blobs ref.digest = some data → file.data = data) :
    ∃ source state, exportCassette version store header = .ok source ∧
      importCassette (fun _ => false) inode source ⟨disk, [], 0⟩ =
        (.ok { header with schemaVersion := eventSchemaVersion }, state) ∧
      state.disk.runs = disk.runs ++ [{ header with schemaVersion := eventSchemaVersion }] ∧
      state.disk.store.events header.runId = some events ∧
      (∀ ref ∈ blobRefs events, state.disk.store.blobs ref.digest = store.blobs ref.digest) ∧
      (∀ runId ≠ header.runId, state.disk.store.events runId = disk.store.events runId) ∧
      ∀ digest data, disk.store.blobs digest = some data →
        state.disk.store.blobs digest = some data := by
  obtain ⟨source, cassette, hexport, hvalid, hheader, rfl, hblobs⟩ := h.exported version
  have hid : cassette.header.runId = header.runId := by rw [hheader]; rfl
  have hrun : runHeader cassette.header = { header with schemaVersion := eventSchemaVersion } := by
    rw [hheader]
    rfl
  rw [← hid] at hruns hrows
  have hsame : ∀ blob ∈ cassette.blobs, ∀ file, disk.files blob.digest = some file →
      file.data = blob.data := by
    intro blob hblob file hfile
    have hdigest : blob.digest ∈ blobDigests cassette.events := by
      rw [← cassette.complete]
      exact List.mem_map_of_mem hblob
    obtain ⟨ref, href, heq⟩ := mem_blobDigests.mp hdigest
    rw [← heq] at hfile
    exact hfiles ref href file _ hfile (by rw [heq]; exact hblobs blob hblob)
  have himports : ∃ state, importCassette (fun _ => false) inode source ⟨disk, [], 0⟩ =
      (.ok (runHeader cassette.header), state) ∧ state.disk = disk.imported inode cassette :=
    importCassette_returns hruns hrows hsame (fun _ => rfl) hvalid
  obtain ⟨state, himport, hdisk⟩ := himports
  refine ⟨source, state, hexport, ?_⟩
  rw [← hrun, ← hid]
  refine ⟨himport, ?_⟩
  rw [hdisk]
  refine ⟨rfl, events_of_rows cassette.inSequence (rowsOf_imported hrows), ?_, ?_, ?_⟩
  · intro ref href
    have hdigest : ref.digest ∈ blobDigests cassette.events := mem_blobDigests.mpr ⟨ref, href, rfl⟩
    rw [← cassette.complete] at hdigest
    obtain ⟨blob, hblob, heq⟩ := List.mem_map.mp hdigest
    rw [← heq, blobs_imported hblob (hsame blob hblob), hblobs blob hblob]
  · exact fun runId hne => events_imported_other hne
  · exact fun digest data hdata => blobs_imported_old hdata

/-! The recorded run of the agent that talks, in a store that knows another run. -/

instance : Spelled HexDigest := ⟨fun digest => digest.valid⟩

/-- The events of the run. -/
def talkingLog : List (StoredEvent Decimal HexDigest) :=
  talkingEvents.mapIdx fun seq event => ⟨"run".toList, seq, event⟩

/-- Another run, without events. -/
def otherRun : RunHeader Decimal where
  runId := "other".toList
  name := []
  startedAt := half
  status := .ok

/-- The log of the example can be exported. -/
theorem talkingLog_exportable :
    Exportable talkingEnd.store talkingRun.runId talkingLog where
  stored := by
    apply events_of_rows
    · decide
    · rw [Store.rowsOf, talkingEnd_rows, List.filter_eq_self.mpr (by decide)]
      rfl
  inSequence := by decide
  consistent := by decide
  blobs := by
    intro ref href
    have hrefs : blobRefs talkingLog = [⟨Sha256.hash (Utf8.encode "done".toList), 4⟩] := rfl
    rw [hrefs, List.mem_singleton] at href
    subst href
    exact ⟨Utf8.encode "done".toList, by decide +kernel, rfl, by decide⟩

/-- The run comes over, and the other one is still there. -/
theorem import_export_talking : ∃ (source : Source) (state : Importing Decimal HexDigest),
    exportCassette "1".toList talkingEnd.store talkingRun = .ok source ∧
      importCassette (fun _ => false) (fun _ : HexDigest => 7) source
          ⟨⟨[otherRun], [], fun _ => none⟩, [], 0⟩ = (.ok talkingRun, state) ∧
      state.disk.runs = [otherRun, talkingRun] ∧
      state.disk.store.events "run".toList = some talkingLog := by
  obtain ⟨source, state, hexport, himport, hruns, hevents, -⟩ := import_export
    talkingLog_exportable "1".toList (fun _ => 7) ⟨[otherRun], [], fun _ => none⟩ (by decide)
    (by decide) (by rintro ref - file data hfile; cases hfile)
  exact ⟨source, state, hexport, himport, hruns, hevents⟩

end Tracewake.Cassettes
