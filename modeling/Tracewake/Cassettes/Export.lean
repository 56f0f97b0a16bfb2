import Mathlib.Data.Fintype.Basic
import Tracewake.Cassettes.Cassette

/-!
# Exported cassettes

`export_cassette` writes a run of a store into a directory, and `_validate_cassette` accepts
the directory: it finds the header, the events and the blobs that were written. The staging
directory and its exchange with the destination are left out, the cassette is what stands in
the destination at the end.
-/

namespace Tracewake.Cassettes

open JsonText Recording Effects

variable {F D : Type} [Python F] [Sha256 D] [DecidableEq D]

/-- Digests are spelled with 64 hexadecimal digits, as `DIGEST_PATTERN` says. -/
class Spelled (D : Type) [Sha256 D] : Prop where
  valid : ∀ digest : D, isHexDigest (Sha256.hex digest) = true

/-- Why a run cannot be exported. -/
inductive ExportError (D : Type) where
  | unreadable
  | blob (error : Store.BlobError D)
  | blobSize (digest : D) (actual : ℕ)
  deriving DecidableEq

omit [DecidableEq D] in
/-- No blobs have no digests. -/
theorem digests_nil (refs : List (BlobRef D)) :
    (([] : List (CheckedBlob refs)).map fun blob => blob.digest) = [] := rfl

/-- `_checked_store_blobs`. -/
def checkedStoreBlobs (store : Store F D) (refs : List (BlobRef D)) : (digests : List D) →
    Except (ExportError D) {blobs : List (CheckedBlob refs) //
      (blobs.map fun blob => blob.digest) = digests}
  | [] => .ok ⟨[], digests_nil refs⟩
  | digest :: rest =>
    match store.get digest with
    | .error error => .error (.blob error)
    | .ok data => do
      let ⟨hhash⟩ ← check (Sha256.hash data = digest) (.blob (.corrupted digest (Sha256.hash data)))
      let ⟨hsized⟩ ← check (Sized refs digest data.length) (.blobSize digest data.length)
      let ⟨blobs, hblobs⟩ ← checkedStoreBlobs store refs rest
      return ⟨⟨digest, data, hhash, hsized⟩ :: blobs, by rw [List.map_cons, hblobs]⟩

/-- The header of a cassette for a run. -/
def cassetteHeader (version : Text) (header : RunHeader F) (events : List (StoredEvent F D)) :
    CassetteHeader F D where
  tracewakeVersion := version
  schemaVersion := eventSchemaVersion
  runId := header.runId
  name := header.name
  recordedAt := header.startedAt
  finishedAt := header.finishedAt
  status := header.status
  models := header.models
  command := header.command
  redacted := header.redacted
  taskId := header.taskId
  eventCount := events.length
  digest := Sha256.hash ((canonicalOrder events).flatMap fun e => e.event.canonicalBytes ++ [10])

/-- The lines of the cassette file. -/
def cassetteLines [HeaderJson F D] (header : CassetteHeader F D)
    (events : List (StoredEvent F D)) : List Text :=
  HeaderJson.write header :: events.map line

/-- The directory that is written. -/
def written [HeaderJson F D] (header : CassetteHeader F D) (events : List (StoredEvent F D))
    (blobs : List (CheckedBlob (blobRefs events))) : Source where
  entries :=
    (cassetteFile, .file (Utf8.encode (Texts.unlines (cassetteLines header events)))) ::
      (blobs.flatMap fun blob => blobFolders (Sha256.hex blob.digest)).eraseDups.map
        (fun path => (path, .folder)) ++
      blobs.map fun blob => (blobPath (Sha256.hex blob.digest), .file blob.data)
  strictRoot := true
  cassettePath := cassetteFile

/-- `export_cassette` of the run that `resolve` found. -/
def exportCassette [Pydantic F D] [HeaderJson F D] (version : Text) (store : Store F D)
    (header : RunHeader F) : Except (ExportError D) Source := do
  let events ← required (store.events header.runId) .unreadable
  let ⟨blobs, _⟩ ← checkedStoreBlobs store (blobRefs events) (blobDigests events)
  return written (cassetteHeader version header events) events blobs

/-- An export of a run that is found and whose blobs are found is the archive of its
files. -/
theorem exportCassette_eq [Pydantic F D] [HeaderJson F D] (version : Text) {store : Store F D}
    {header : RunHeader F} {events : List (StoredEvent F D)} {checked : {blobs :
      List (CheckedBlob (blobRefs events)) //
        (blobs.map fun blob => blob.digest) = blobDigests events}}
    (hevents : store.events header.runId = some events)
    (hblobs : checkedStoreBlobs store (blobRefs events) (blobDigests events) = .ok checked) :
    exportCassette version store header =
      .ok (written (cassetteHeader version header events) events checked.1) := by
  rw [exportCassette, accepts_required]
  refine ⟨events, hevents, ?_⟩
  rw [hblobs]
  rfl

/-! ## What is written is accepted -/

omit [DecidableEq D] in
/-- Different digests have different digits. -/
theorem hex_injective : Function.Injective (Sha256.hex : D → Text) := by
  intro digest other h
  have hdigest := (Sha256.ofHex_eq (Sha256.hex other) digest).mpr h
  rw [(Sha256.ofHex_eq (Sha256.hex other) other).mpr rfl] at hdigest
  exact (Option.some.inj hdigest).symm

section Paths

variable [Spelled D]

omit [DecidableEq D]

/-- A digest has 64 hexadecimal digits. -/
theorem length_hex (digest : D) : (Sha256.hex digest).length = 64 := by
  have hvalid := Spelled.valid digest
  rw [isHexDigest, Bool.and_eq_true, decide_eq_true_eq] at hvalid
  exact hvalid.1

/-- The path of a blob has 76 characters: a folder, two more of two digits, and the
digest. -/
theorem length_blobPath (digest : D) : (blobPath (Sha256.hex digest)).length = 76 := by
  have hlength := length_hex digest
  have hdir : blobDir.length = 5 := rfl
  simp only [blobPath, List.length_append, List.length_cons, List.length_take, List.length_drop,
    hlength, hdir]
  rfl

/-- The folders of a blob have shorter paths than the blobs themselves. -/
theorem length_of_mem_blobFolders {digest : D} {path : Text}
    (h : path ∈ blobFolders (Sha256.hex digest)) : path.length ≤ 11 := by
  have hlength := length_hex digest
  have hdir : blobDir.length = 5 := rfl
  simp only [blobFolders, List.mem_cons, List.not_mem_nil, or_false] at h
  rcases h with rfl | rfl | rfl <;>
    simp only [List.length_append, List.length_cons, List.length_take, List.length_drop, hlength,
      hdir] <;> omega

/-- A path tells its digest. -/
theorem blobPath_injective {digest other : D}
    (h : blobPath (Sha256.hex digest) = blobPath (Sha256.hex other)) : digest = other := by
  have hsplit : ∀ text : Text, blobPath text = (blobDir ++ '/' :: text.take 2 ++
      '/' :: (text.drop 2).take 2 ++ ['/']) ++ text := by
    intro text
    simp [blobPath]
  rw [hsplit, hsplit] at h
  apply hex_injective
  apply List.append_inj_right' h
  rw [length_hex, length_hex]

end Paths

/-- An entry that is the only one at its path is found. -/
theorem Source.lookup_eq {source : Source} {path : Text} {entry : Entry}
    (hmem : (path, entry) ∈ source.entries)
    (hunique : ∀ second, (path, second) ∈ source.entries → second = entry) :
    source.lookup path = some entry := by
  rw [Source.lookup]
  cases hfind : source.entries.find? fun entry => entry.1 = path with
  | none =>
    have habsent := List.find?_eq_none.mp hfind _ hmem
    simp at habsent
  | some found =>
    have hpath : found.1 = path := by simpa using List.find?_some hfind
    have hfound : (path, found.2) ∈ source.entries := by
      rw [← hpath]
      exact List.mem_of_find?_eq_some hfind
    rw [Option.map_some, hunique _ hfound]

section Entries

variable {files folders : List Text} {path : Text}

omit [Sha256 D] [DecidableEq D] in
/-- A file that is expected passes. -/
theorem checkEntry_file {data : List UInt8} (h : path ∈ files) :
    checkEntry files folders (path, .file data) = (.ok () : Except (Refusal D) Unit) := by
  have hfile : files.contains path = true := List.contains_iff_mem.mpr h
  simp only [checkEntry, if_pos hfile]

omit [Sha256 D] [DecidableEq D] in
/-- A folder that is expected passes. -/
theorem checkEntry_folder (hnot : path ∉ files) (h : path ∈ folders) :
    checkEntry files folders (path, .folder) = (.ok () : Except (Refusal D) Unit) := by
  have hnotFile : ¬ files.contains path = true := fun hfile =>
    hnot (List.contains_iff_mem.mp hfile)
  have hfolder : folders.contains path = true := List.contains_iff_mem.mpr h
  simp only [checkEntry, if_neg hnotFile, if_pos hfolder]
  rfl

end Entries

section Accepted

variable {header : CassetteHeader F D} {events : List (StoredEvent F D)}

omit [DecidableEq D] in
/-- Events whose hashes are right pass. -/
theorem validateDerivedRequestHashes_eq (h : ∀ stored ∈ events, Event.Consistent D stored.event) :
    validateDerivedRequestHashes events = .ok ⟨h⟩ := by
  induction events with
  | nil => rfl
  | cons stored rest ih =>
    obtain ⟨hstored, hrest⟩ := List.forall_mem_cons.mp h
    simp only [validateDerivedRequestHashes, check_of hstored, ih hrest]
    rfl

/-- The bytes that were checked pass again. -/
theorem checkBlobs_eq {refs : List (BlobRef D)} (blobs : List (CheckedBlob refs)) :
    ∃ checked, checkBlobs refs (blobs.map fun blob => (blob.digest, blob.data)) = .ok checked ∧
      checked.1 = blobs := by
  induction blobs with
  | nil => exact ⟨_, rfl, rfl⟩
  | cons blob rest ih =>
    obtain ⟨⟨checked, hchecked⟩, hrest, heq⟩ := ih
    change checked = rest at heq
    subst heq
    rw [List.map_cons, checkBlobs, check_of blob.hash, check_of blob.sized, hrest]
    exact ⟨_, rfl, rfl⟩

omit [DecidableEq D] in
/-- The blobs that a source has at their paths are found. -/
theorem findBlobs_eq {source : Source} {refs : List (BlobRef D)} (blobs : List (CheckedBlob refs))
    (h : ∀ blob ∈ blobs,
      source.lookup (blobPath (Sha256.hex blob.digest)) = some (.file blob.data)) :
    ∃ found, findBlobs source (blobs.map fun blob => blob.digest) = .ok found ∧
      found.1 = blobs.map fun blob => (blob.digest, blob.data) := by
  induction blobs with
  | nil => exact ⟨_, rfl, rfl⟩
  | cons blob rest ih =>
    obtain ⟨⟨found, hfound⟩, hrest, heq⟩ := ih fun other hother =>
      h other (List.mem_cons_of_mem _ hother)
    rw [List.map_cons, findBlobs, h blob List.mem_cons_self]
    dsimp only at heq ⊢
    rw [hrest]
    exact ⟨_, rfl, by rw [List.map_cons, ← heq]⟩

variable [Pydantic F D]

omit [DecidableEq D] in
/-- The lines that were written are read. -/
theorem readEvents_eq (hsequence : InSequence events) {runId : Text}
    (hrun : ∀ stored ∈ events, stored.runId = runId) :
    ∃ read, readEvents (D := D) runId (events.map fun stored => line stored ++ ['\n']) = .ok read ∧
      read.1 = events := by
  have hparse : ∀ (events : List (StoredEvent F D)) (number : ℕ),
      ((events.map fun stored => line stored ++ ['\n']).zipIdx number).mapM
        (fun entry => required (readLine D entry.1) (.invalidEvent entry.2 : Refusal D)) =
          .ok (events.map fun stored => (stored.seq, stored.event)) := by
    intro events
    induction events with
    | nil => exact fun _ => rfl
    | cons stored rest ih =>
      intro number
      have hread := readLine_line stored (show skip ['\n'] = [] from rfl)
        (by rintro c hc; cases hc; decide)
      rw [List.map_cons, List.zipIdx_cons, List.mapM_cons]
      dsimp only
      rw [hread, ih]
      rfl
  have hback : (events.map fun stored => (stored.seq, stored.event)).map
      (fun entry => (⟨runId, entry.1, entry.2⟩ : StoredEvent F D)) = events := by
    rw [List.map_map]
    refine (List.map_congr_left fun stored hstored => ?_).trans (List.map_id events)
    simp only [Function.comp, ← hrun stored hstored, id]
  have hpassed : InSequence ((events.map fun stored => (stored.seq, stored.event)).map
      fun entry => (⟨runId, entry.1, entry.2⟩ : StoredEvent F D)) := by
    rw [hback]
    exact hsequence
  rw [readEvents, hparse]
  simp only [bind, Except.bind]
  rw [check_of hpassed]
  exact ⟨_, rfl, hback⟩

variable [HeaderJson F D] {blobs : List (CheckedBlob (blobRefs events))}

omit [Pydantic F D] in
omit [DecidableEq D] in
/-- The lines of the cassette file are read as they were written. -/
theorem readFile_written :
    readFile (D := D) (written header events blobs) =
      .ok ((cassetteLines header events).map fun line => line ++ ['\n']) := by
  have hreturn : ∀ line ∈ cassetteLines header events, '\r' ∉ line := by
    refine List.forall_mem_cons.mpr ⟨HeaderJson.return_notMem header, fun text htext => ?_⟩
    obtain ⟨stored, -, rfl⟩ := List.mem_map.mp htext
    exact notMem_line stored (.inr rfl)
  have hfeed : ∀ line ∈ cassetteLines header events, '\n' ∉ line := by
    refine List.forall_mem_cons.mpr ⟨HeaderJson.feed_notMem header, fun text htext => ?_⟩
    obtain ⟨stored, -, rfl⟩ := List.mem_map.mp htext
    exact notMem_line stored (.inl rfl)
  have hentry : (written header events blobs).lookup cassetteFile =
      some (.file (Utf8.encode (Texts.unlines (cassetteLines header events)))) := by
    rw [Source.lookup, written, List.cons_append, List.find?_cons_of_pos (by simp)]
    rfl
  have hpath : (written header events blobs).cassettePath = cassetteFile := rfl
  rw [readFile, hpath, hentry]
  dsimp only
  rw [Utf8.decode_encode, ← Texts.fileLines_unlines hreturn hfeed]
  rfl

variable [Spelled D]

omit [Pydantic F D] in
variable (header) in
omit [DecidableEq D] in
/-- A blob that was written stands at its path, where each digest was written once. -/
theorem lookup_blob (hnodup : (blobs.map fun blob => blob.digest).Nodup)
    {blob : CheckedBlob (blobRefs events)} (hblob : blob ∈ blobs) :
    (written header events blobs).lookup (blobPath (Sha256.hex blob.digest)) =
      some (.file blob.data) := by
  have hlength := length_blobPath blob.digest
  apply Source.lookup_eq
  · exact List.mem_append_right _ (List.mem_map_of_mem hblob)
  · intro second hsecond
    rcases List.mem_append.mp hsecond with hsecond | hsecond
    · rcases List.mem_cons.mp hsecond with heq | hsecond
      · have hpath : blobPath (Sha256.hex blob.digest) = cassetteFile := congrArg Prod.fst heq
        rw [hpath] at hlength
        exact absurd hlength (by decide)
      · obtain ⟨path, hpath, heq⟩ := List.mem_map.mp hsecond
        cases heq
        rw [List.mem_eraseDups, List.mem_flatMap] at hpath
        obtain ⟨_, -, hpath⟩ := hpath
        have hshort := length_of_mem_blobFolders hpath
        omega
    · obtain ⟨found, hfound, heq⟩ := List.mem_map.mp hsecond
      have hdigest := blobPath_injective (congrArg Prod.fst heq)
      rw [List.inj_on_of_nodup_map hnodup hfound hblob hdigest] at heq
      exact (congrArg Prod.snd heq).symm

omit [Pydantic F D] in
omit [DecidableEq D] in
/-- Nothing else was written. -/
theorem checkEntries_written :
    (written header events blobs).seen.forM (checkEntry
      (((blobs.map fun blob => blob.digest).map fun digest => Sha256.hex digest).map blobPath ++
        if (written header events blobs).strictRoot then
          [(written header events blobs).cassettePath] else [])
      (((blobs.map fun blob => blob.digest).map fun digest => Sha256.hex digest).flatMap
        blobFolders) : _ → Except (Refusal D) Unit) = .ok () := by
  have hseen : (written header events blobs).seen = (written header events blobs).entries := rfl
  rw [hseen, accepts_forM]
  intro entry hentry
  rcases List.mem_append.mp hentry with hentry | hentry
  · rcases List.mem_cons.mp hentry with rfl | hentry
    · apply checkEntry_file
      exact List.mem_append_right _ List.mem_cons_self
    · obtain ⟨path, hpath, rfl⟩ := List.mem_map.mp hentry
      rw [List.mem_eraseDups, List.mem_flatMap] at hpath
      obtain ⟨blob, hblob, hpath⟩ := hpath
      have hshort := length_of_mem_blobFolders hpath
      have hnotFile : path ∉ ((blobs.map fun blob => blob.digest).map
          fun digest => Sha256.hex digest).map blobPath ++
            if (written header events blobs).strictRoot then
              [(written header events blobs).cassettePath] else [] := by
        intro hmem
        rcases List.mem_append.mp hmem with hmem | hmem
        · simp only [List.mem_map] at hmem
          obtain ⟨_, ⟨digest, -, rfl⟩, rfl⟩ := hmem
          rw [length_blobPath] at hshort
          omega
        · have hfile : path = cassetteFile := List.mem_singleton.mp hmem
          rw [hfile] at hshort
          exact absurd hshort (by decide)
      apply checkEntry_folder hnotFile
      rw [List.mem_flatMap]
      exact ⟨_, List.mem_map_of_mem (List.mem_map_of_mem hblob), hpath⟩
  · obtain ⟨blob, hblob, rfl⟩ := List.mem_map.mp hentry
    apply checkEntry_file
    exact List.mem_append_left _
      (List.mem_map_of_mem (List.mem_map_of_mem (List.mem_map_of_mem hblob)))

omit [Pydantic F D] in
variable (header) in
omit [DecidableEq D] in
/-- Every blob that was written is found. -/
theorem validateEntries_written {digests : List D} (hnodup : digests.Nodup)
    (hdigests : (blobs.map fun blob => blob.digest) = digests) :
    ∃ found, validateEntries (written header events blobs) digests = .ok found ∧
      found.1 = blobs.map fun blob => (blob.digest, blob.data) := by
  subst hdigests
  obtain ⟨found, hfind, hpairs⟩ := findBlobs_eq blobs fun blob hblob =>
    lookup_blob header hnodup hblob
  refine ⟨found, ?_, hpairs⟩
  rw [validateEntries, checkEntries_written]
  exact hfind

end Accepted

/-- A validated cassette that is written into a directory is read back as it was. -/
theorem validateCassette_written [Pydantic F D] [HeaderJson F D] [Spelled D]
    (cassette : ValidatedCassette F D) :
    validateCassette (written cassette.header cassette.events cassette.blobs) = .ok cassette := by
  obtain ⟨header, events, blobs, hformat, hschema, hrun, hsequence, hcount, hconsistent, hdigest,
    hcomplete⟩ := cassette
  dsimp only
  have hnodup : (blobDigests events).Nodup := nodup_eraseDups _
  obtain ⟨⟨read, hread, hread'⟩, hevents, heq⟩ := readEvents_eq hsequence hrun
  change read = events at heq
  subst heq
  obtain ⟨⟨found, hfound⟩, hfind, heq⟩ :=
    validateEntries_written header hnodup hcomplete
  change found = _ at heq
  subst heq
  obtain ⟨⟨checked, hchecked⟩, hblobs, heq⟩ := checkBlobs_eq blobs
  change checked = blobs at heq
  subst heq
  have htail : ((cassetteLines header read).map fun line => line ++ ['\n']).tail =
      read.map fun stored => line stored ++ ['\n'] := by
    rw [cassetteLines, List.map_cons, List.tail_cons, List.map_map]
    rfl
  rw [← htail] at hevents
  rw [validateCassette, accepts_bind]
  refine ⟨_, readFile_written, ?_⟩
  rw [accepts_required]
  refine ⟨header, HeaderJson.read_write header, ?_⟩
  rw [accepts_check]
  refine ⟨hformat, ?_⟩
  rw [accepts_check]
  refine ⟨hschema, ?_⟩
  rw [accepts_bind]
  refine ⟨_, hevents, ?_⟩
  dsimp only
  rw [accepts_check]
  refine ⟨hcount, ?_⟩
  rw [accepts_bind]
  refine ⟨_, validateDerivedRequestHashes_eq hconsistent, ?_⟩
  rw [accepts_check]
  refine ⟨hdigest, ?_⟩
  rw [accepts_bind]
  refine ⟨_, hfind, ?_⟩
  dsimp only
  rw [accepts_bind]
  exact ⟨_, hblobs, rfl⟩

end Tracewake.Cassettes
