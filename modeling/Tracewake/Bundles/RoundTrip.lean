import Tracewake.Bundles.Building
import Tracewake.Bundles.Accepted

/-!
# Built and validated bundles

What `build_bundle` made of a cassette is accepted by `validate_bundle` just when no event holds
a separator of lines in a string, and an accepted bundle says what the cassette said.
-/

namespace Tracewake.Bundles

open JsonText Recording Cassettes Effects
open Archives
open Results (lessCodePoints keyOrder)

variable {F D : Type} [Python F] [Sha256 D] [Pydantic F D] [DecidableEq D]

/-! ## Events -/

omit [DecidableEq D] in
/-- Two events of one run with the same line are the same. -/
theorem eq_of_line {a b : StoredEvent F D} (hrun : a.runId = b.runId) (h : line a = line b) :
    a = b := by
  have hread := readLine_line_self a
  rw [h, readLine_line_self b, Option.some.injEq, Prod.mk.injEq] at hread
  obtain ⟨idA, seqA, eventA⟩ := a
  obtain ⟨idB, seqB, eventB⟩ := b
  obtain ⟨hseq, hevent⟩ := hread
  dsimp only at hrun hseq hevent
  rw [hrun, hseq, hevent]

omit [DecidableEq D] in
/-- The lines of a run determine its events. -/
theorem eq_of_lines (runId : Text) {a b : List (StoredEvent F D)}
    (ha : ∀ stored ∈ a, stored.runId = runId)
    (hb : ∀ stored ∈ b, stored.runId = runId) (h : a.map line = b.map line) : a = b := by
  induction a generalizing b with
  | nil => exact (List.map_eq_nil_iff.mp h.symm).symm
  | cons first rest ih =>
    cases b with
    | nil => cases h
    | cons other others =>
      rw [List.map_cons, List.map_cons, List.cons.injEq] at h
      obtain ⟨hfirst, hrest⟩ := List.forall_mem_cons.mp ha
      obtain ⟨hother, hothers⟩ := List.forall_mem_cons.mp hb
      rw [eq_of_line (hfirst.trans hother.symm) h.1, ih hrest hothers h.2]

/-- Text that is made of lines ends with a line feed. -/
theorem unlines_last (lines : List Text) :
    Texts.unlines lines = [] ∨ (Texts.unlines lines).getLast? = some '\n' := by
  induction lines with
  | nil => exact .inl rfl
  | cons line rest ih =>
    right
    rw [Texts.unlines, List.flatMap_cons, ← Texts.unlines]
    rcases ih with hrest | hrest
    · rw [hrest, List.append_nil, List.getLast?_append_cons, List.getLast?_singleton]
    · rw [List.getLast?_append, hrest, Option.some_or]

omit [DecidableEq D] in
/-- The lines of events are told apart again just when no event holds a separator. -/
theorem splitlines_eventText_iff (events : List (StoredEvent F D)) :
    (Texts.splitlines (eventText events)).length = events.length ↔
      ∀ stored ∈ events, Unseparated stored.event := by
  have hreturn : ∀ text ∈ events.map line, '\r' ∉ text := by
    intro text htext
    obtain ⟨stored, -, rfl⟩ := List.mem_map.mp htext
    exact notMem_line stored (.inr rfl)
  have hcount := Texts.splitlines_length_iff hreturn
  rw [List.length_map] at hcount
  rw [eventText_eq, hcount]
  constructor
  · intro h stored hstored
    exact (line_unbroken_iff stored).mp (h _ (List.mem_map_of_mem hstored))
  · intro h text htext
    obtain ⟨stored, hstored, rfl⟩ := List.mem_map.mp htext
    exact (line_unbroken_iff stored).mpr (h stored hstored)

omit [DecidableEq D] in
/-- The lines of the event text are those of the events, where no event has a separator in
it. -/
theorem splitlines_eventText {events : List (StoredEvent F D)}
    (h : ∀ stored ∈ events, Unseparated stored.event) :
    Texts.splitlines (eventText events) = events.map line := by
  rw [eventText_eq]
  apply Texts.splitlines_unlines
  intro text htext
  obtain ⟨stored, hstored, rfl⟩ := List.mem_map.mp htext
  exact (line_unbroken_iff stored).mpr (h stored hstored)

omit [Pydantic F D] in
/-- The digests of the blobs are those that are declared. -/
theorem ValidatedBundle.digests (bundle : ValidatedBundle F D) :
    (bundle.blobs.map fun blob => blob.digest) =
      bundle.manifest.blobs.map fun entry => entry.digest := by
  have hdeclared := congrArg (List.map Prod.fst) bundle.declared
  rw [List.map_map, List.map_map] at hdeclared
  exact hdeclared

/-! ## What was built -/

omit [Pydantic F D] [Python F] [DecidableEq D] in
/-- The declarations of blobs have their digests and sizes. -/
theorem declare_eq {refs : List (BlobRef D)} {blobs : List (CheckedBlob refs)}
    {entries : List (BlobEntry D)} (h : declare blobs = .ok entries) :
    (entries.map fun entry => (entry.digest, entry.size)) =
      blobs.map fun blob => (blob.digest, blob.data.length) := by
  induction blobs generalizing entries with
  | nil =>
    cases h
    rfl
  | cons blob rest ih =>
    rw [declare, accepts_check] at h
    obtain ⟨hbound, h⟩ := h
    rw [accepts_bind] at h
    obtain ⟨declared, hdeclared, heq⟩ := h
    cases heq
    rw [List.map_cons, List.map_cons, ih hdeclared]

/-- The entries of the bundle of a cassette. -/
def packed (cassette : ValidatedCassette F D) (manifest : BundleManifest D) : Entries :=
  entriesOf (canonicalJsonBytes F manifest) (Utf8.encode (eventText cassette.events))
    cassette.blobs

/-- What `build_bundle` made of a cassette. -/
structure Built (cassette : ValidatedCassette F D) (raw : Ustar.Bytes)
    (manifest : BundleManifest D) : Prop where
  archive : raw = bundleBytes (packed cassette manifest)
  eventBytes : (Utf8.encode (eventText cassette.events)).length ≤ maxEventBytes
  entryCount : (packed cassette manifest).length ≤ maxEntries
  size : raw.length ≤ maxBundleBytes
  formatVersion : manifest.bundleFormatVersion = bundleFormatVersion
  cassetteVersion : manifest.cassetteFormatVersion = cassetteFormatVersion
  schemaVersion : manifest.eventSchemaVersion = eventSchemaVersion
  runId : manifest.runId = cassette.header.runId
  eventCount : manifest.eventCount = cassette.events.length
  digest : manifest.logicalRunDigest = cassette.header.digest
  events : manifest.events = ⟨eventsPath, Sha256.hash (Utf8.encode (eventText cassette.events)),
    (Utf8.encode (eventText cassette.events)).length⟩
  declared : (manifest.blobs.map fun entry => (entry.digest, entry.size)) =
    (sortedBlobs cassette.blobs).map fun blob => (blob.digest, blob.data.length)

omit [Pydantic F D] in
/-- What a bundle was built from: a manifest and the entries that it lists. -/
theorem built_of_buildBundle {cassette : ValidatedCassette F D} {raw : Ustar.Bytes}
    (h : buildBundle cassette = .ok raw) : ∃ manifest, Built cassette raw manifest := by
  rw [buildBundle, accepts_check] at h
  obtain ⟨heventBytes, h⟩ := h
  rw [accepts_check] at h
  obtain ⟨hcount, h⟩ := h
  rw [accepts_bind] at h
  obtain ⟨blobs, hblobs, h⟩ := h
  rw [accepts_check] at h
  obtain ⟨hbound, h⟩ := h
  dsimp only at h
  rw [accepts_check] at h
  obtain ⟨hentries, h⟩ := h
  rw [accepts_check] at h
  obtain ⟨hsize, heq⟩ := h
  cases heq
  exact ⟨_, rfl, heventBytes, hentries, hsize, rfl, cassette.formatVersion, cassette.schemaVersion,
    rfl, rfl, rfl, rfl, declare_eq hblobs⟩

/-- A cassette has the run, the events and the blobs of a bundle. -/
structure SameContent (cassette : ValidatedCassette F D) (bundle : ValidatedBundle F D) :
    Prop where
  runId : cassette.header.runId = bundle.manifest.runId
  events : cassette.events = bundle.events
  blobs : ∀ digest data,
    (digest, data) ∈ (cassette.blobs.map fun blob => (blob.digest, blob.data)) ↔
      (digest, data) ∈ bundle.blobs.map fun blob => (blob.digest, blob.data)

section Built

variable {cassette : ValidatedCassette F D} {raw : Ustar.Bytes} {manifest : BundleManifest D}

omit [Python F] [Pydantic F D] [DecidableEq D] in
/-- Sorting the blobs loses none and adds none. -/
theorem sortedBlobs_perm {refs : List (BlobRef D)} (blobs : List (CheckedBlob refs)) :
    (sortedBlobs blobs).Perm blobs :=
  List.mergeSort_perm ..

omit [Pydantic F D] in
/-- A validated cassette has each blob once. -/
theorem cassette_nodup (cassette : ValidatedCassette F D) :
    (cassette.blobs.map fun blob => blob.digest).Nodup := by
  rw [cassette.complete]
  exact nodup_eraseDups _

omit [Pydantic F D] in
/-- The digests are declared in order. -/
theorem Built.sortedDigests (h : Built cassette raw manifest) :
    (manifest.blobs.map fun entry => entry.digest) =
      (sortedBlobs cassette.blobs).map fun blob => blob.digest := by
  have hdeclared := congrArg (List.map Prod.fst) h.declared
  rw [List.map_map, List.map_map] at hdeclared
  exact hdeclared

omit [Pydantic F D] in
/-- The digests that are declared are those of the cassette. -/
theorem Built.digests (h : Built cassette raw manifest) :
    (manifest.blobs.map fun entry => entry.digest).Perm (blobDigests cassette.events) := by
  rw [← cassette.complete, h.sortedDigests]
  exact (sortedBlobs_perm cassette.blobs).map _

variable [Spelled D]

omit [Pydantic F D] in
/-- The entries that are packed fit into an archive. -/
theorem Built.packable (h : Built cassette raw manifest) :
    Packable (packed cassette manifest) := by
  have hsize := h.size
  rw [h.archive] at hsize
  exact entriesOf_packable (cassette_nodup cassette) h.entryCount hsize

omit [Pydantic F D] in
/-- The entries that are read are those that were packed. -/
theorem Built.read (h : Built cassette raw manifest) :
    readEntries (D := D) raw = .ok (sortedEntries (packed cassette manifest)) := by
  have hread := readEntries_bundleBytes (D := D) h.packable
  rwa [← h.archive] at hread

omit [Pydantic F D] in
/-- What was packed is found. -/
theorem Built.find (h : Built cassette raw manifest) (name : Text) {data : Ustar.Bytes}
    (hmem : (name, data) ∈ packed cassette manifest) :
    Entries.find (sortedEntries (packed cassette manifest)) name = some data := by
  have hperm := sortedEntries_perm (packed cassette manifest)
  apply find_of_mem
  · exact ((hperm.map Prod.fst).nodup_iff).mpr h.packable.nodup
  · exact hperm.mem_iff.mpr hmem

/-- Where no event holds a separator, the bundle is accepted. -/
theorem Built.accepted [ManifestJson F D] (h : Built cassette raw manifest)
    (hplain : ∀ stored ∈ cassette.events, Unseparated stored.event) :
    ∃ bundle : ValidatedBundle F D, validateBundle raw = .ok bundle := by
  have hdigests := h.digests
  have hnodup : (manifest.blobs.map fun entry => entry.digest).Nodup := by
    rw [hdigests.nodup_iff]
    exact nodup_eraseDups _
  have hperm := sortedEntries_perm (packed cassette manifest)
  have hpaths : (manifest.blobs.map fun entry => entry.path) =
      (sortedBlobs cassette.blobs).map fun blob => blobPath (Sha256.hex blob.digest) := by
    have hdeclared := congrArg
      (List.map fun pair : D × ℕ => blobPath (Sha256.hex pair.1)) h.declared
    rw [List.map_map, List.map_map] at hdeclared
    rw [show (manifest.blobs.map fun entry => entry.path) = manifest.blobs.map
      fun entry => blobPath (Sha256.hex entry.digest) from
        List.map_congr_left fun entry _ => entry.canonicalPath]
    exact hdeclared
  let bundle : ValidatedBundle F D := {
    manifest
    events := cassette.events
    blobs := sortedBlobs cassette.blobs
    bundleDigest := Sha256.hash raw
    size := raw.length
    formatVersion := h.formatVersion
    cassetteVersion := h.cassetteVersion
    schemaVersion := h.schemaVersion
    path := by rw [h.events]
    ofRun := by
      rw [h.runId]
      exact cassette.ofRun
    inSequence := cassette.inSequence
    count := h.eventCount.symm
    digest := by rw [h.digest, cassette.digest]
    declared := h.declared.symm
    nodup := hnodup
    complete := fun digest => hdigests.mem_iff }
  suffices hparts : Parts raw bundle (sortedEntries (packed cassette manifest))
      (Utf8.encode (eventText cassette.events)) (eventText cassette.events) from
    ⟨bundle, validateBundle_eq_ok.mpr ⟨_, _, _, hparts⟩⟩
  constructor
  · exact h.size
  · exact h.read
  · apply h.find
    exact List.mem_cons_self
  · apply h.find
    exact List.mem_cons_of_mem _ List.mem_cons_self
  · exact h.events
  · exact h.eventBytes
  · exact Utf8.decode_encode none _
  · rw [eventText_eq]
    exact unlines_last _
  · exact splitlines_eventText hplain
  · have hnames : ((sortedEntries (packed cassette manifest)).map Prod.fst).Perm
          (manifestPath :: eventsPath :: manifest.blobs.map fun entry => entry.path) := by
      apply (hperm.map Prod.fst).trans
      rw [packed, entriesOf, List.map_cons, List.map_cons, List.map_map, hpaths]
      exact (((sortedBlobs_perm cassette.blobs).symm.map _).cons _).cons _
    exact ⟨fun name => hnames.mem_iff.mp, fun name => hnames.mem_iff.mpr⟩
  · intro blob hblob
    apply h.find
    apply List.mem_cons_of_mem
    apply List.mem_cons_of_mem
    exact List.mem_map_of_mem (f := blobEntry) ((sortedBlobs_perm cassette.blobs).mem_iff.mp hblob)
  · rfl
  · rfl

/-- An accepted bundle has the manifest that was written, and the text of its events. -/
theorem Built.parts [ManifestJson F D] (h : Built cassette raw manifest)
    {bundle : ValidatedBundle F D}
    (haccepted : validateBundle raw = .ok bundle) :
    bundle.manifest = manifest ∧
      Texts.splitlines (eventText cassette.events) = bundle.events.map line ∧
      ∀ blob ∈ bundle.blobs, (blob.digest, blob.data) ∈
        cassette.blobs.map fun blob => (blob.digest, blob.data) := by
  obtain ⟨entries, eventData, text, hparts⟩ := validateBundle_eq_ok.mp haccepted
  have hentries := h.read.symm.trans hparts.read
  rw [Except.ok.injEq] at hentries
  subst hentries
  have hmanifest := h.find manifestPath List.mem_cons_self
  rw [hparts.manifest, Option.some.injEq] at hmanifest
  have hread := congrArg (readManifest (D := D) F) hmanifest
  rw [readManifest_canonicalJsonBytes, readManifest_canonicalJsonBytes, Option.some.injEq] at hread
  have hevents := h.find eventsPath (List.mem_cons_of_mem _ List.mem_cons_self)
  rw [hparts.events, Option.some.injEq] at hevents
  have hdecoded := hparts.decoded
  rw [hevents, Utf8.decode_encode, Option.some.injEq] at hdecoded
  refine ⟨hread, ?_, ?_⟩
  · rw [hdecoded]
    exact hparts.lines
  · intro blob hblob
    have hmem : blob.digest ∈ cassette.blobs.map fun blob => blob.digest := by
      rw [cassette.complete, ← h.digests.mem_iff, ← hread, ← bundle.digests]
      exact List.mem_map_of_mem (f := fun blob : CheckedBlob (blobRefs bundle.events) =>
        blob.digest) hblob
    obtain ⟨stored, hstored, hsame⟩ := List.mem_map.mp hmem
    have hfound := h.find (blobPath (Sha256.hex stored.digest)) (List.mem_cons_of_mem _
      (List.mem_cons_of_mem _ (List.mem_map_of_mem (f := blobEntry) hstored)))
    rw [hsame, hparts.blobs blob hblob, Option.some.injEq] at hfound
    rw [hfound, ← hsame]
    exact List.mem_map_of_mem (f := fun blob : CheckedBlob (blobRefs cassette.events) =>
      (blob.digest, blob.data)) hstored

/-- The events of an accepted bundle hold no separator. -/
theorem Built.unseparated [ManifestJson F D] (h : Built cassette raw manifest)
    {bundle : ValidatedBundle F D}
    (haccepted : validateBundle raw = .ok bundle) :
    ∀ stored ∈ cassette.events, Unseparated stored.event := by
  obtain ⟨hmanifest, hlines, -⟩ := h.parts haccepted
  rw [← splitlines_eventText_iff, hlines, List.length_map, bundle.count, hmanifest, h.eventCount]

/-- They are the events of the cassette. -/
theorem Built.events_eq [ManifestJson F D] (h : Built cassette raw manifest)
    {bundle : ValidatedBundle F D}
    (haccepted : validateBundle raw = .ok bundle) : bundle.events = cassette.events := by
  obtain ⟨hmanifest, hlines, -⟩ := h.parts haccepted
  apply eq_of_lines cassette.header.runId
  · rw [← h.runId, ← hmanifest]
    exact bundle.ofRun
  · exact cassette.ofRun
  · rw [← hlines, splitlines_eventText (h.unseparated haccepted)]

/-- An accepted bundle has the content of the cassette. -/
theorem Built.sameContent [ManifestJson F D] (h : Built cassette raw manifest)
    {bundle : ValidatedBundle F D}
    (haccepted : validateBundle raw = .ok bundle) : SameContent cassette bundle := by
  obtain ⟨hmanifest, -, hblobs⟩ := h.parts haccepted
  constructor
  · rw [hmanifest, h.runId]
  · exact (h.events_eq haccepted).symm
  · intro digest data
    constructor
    · intro hmem
      obtain ⟨stored, hstored, heq⟩ := List.mem_map.mp hmem
      obtain ⟨rfl, rfl⟩ := Prod.mk.inj heq
      have hfound : stored.digest ∈ bundle.blobs.map fun blob => blob.digest := by
        rw [bundle.digests, hmanifest]
        apply h.digests.mem_iff.mpr
        rw [← cassette.complete]
        exact List.mem_map_of_mem (f := fun blob : CheckedBlob (blobRefs cassette.events) =>
          blob.digest) hstored
      obtain ⟨blob, hblob, hsame⟩ := List.mem_map.mp hfound
      obtain ⟨other, hother, hpair⟩ := List.mem_map.mp (hblobs blob hblob)
      obtain ⟨hotherDigest, hdata⟩ := Prod.mk.inj hpair
      -- The digests of a cassette are distinct, so the blob that was found is this one.
      have heq := List.inj_on_of_nodup_map (cassette_nodup cassette) hother hstored
        (hotherDigest.trans hsame)
      rw [heq] at hdata
      rw [← hsame, hdata]
      exact List.mem_map_of_mem (f := fun blob : CheckedBlob (blobRefs bundle.events) =>
        (blob.digest, blob.data)) hblob
    · intro hmem
      obtain ⟨blob, hblob, heq⟩ := List.mem_map.mp hmem
      rw [← heq]
      exact hblobs blob hblob

/-- A bundle is accepted just when no event of the cassette holds a separator of lines in a
string. What is accepted has the run, the events and the blobs of the cassette. -/
theorem validate_build [ManifestJson F D] (hbuilt : buildBundle cassette = .ok raw) :
    ((∃ bundle : ValidatedBundle F D, validateBundle raw = .ok bundle) ↔
      ∀ stored ∈ cassette.events, Unseparated stored.event) ∧
    ∀ bundle : ValidatedBundle F D, validateBundle raw = .ok bundle →
      bundle.manifest.runId = cassette.header.runId ∧
      bundle.manifest.logicalRunDigest = cassette.header.digest ∧
      bundle.events = cassette.events ∧
      ∀ digest data, (digest, data) ∈ (bundle.blobs.map fun blob => (blob.digest, blob.data)) ↔
        (digest, data) ∈ cassette.blobs.map fun blob => (blob.digest, blob.data) := by
  obtain ⟨manifest, h⟩ := built_of_buildBundle hbuilt
  constructor
  · constructor
    · rintro ⟨bundle, haccepted⟩
      exact h.unseparated haccepted
    · exact h.accepted
  · intro bundle haccepted
    obtain ⟨hmanifest, -, -⟩ := h.parts haccepted
    obtain ⟨hrun, hevents, hblobs⟩ := h.sameContent haccepted
    have hdigest : bundle.manifest.logicalRunDigest = cassette.header.digest := by
      rw [hmanifest, h.digest]
    exact ⟨hrun.symm, hdigest, hevents.symm, fun digest data => (hblobs digest data).symm⟩

end Built

/-- The size of an archive does not depend on the order of the entries. -/
theorem length_bundleBytes (entries : Entries) :
    (bundleBytes entries).length = (Ustar.write 0o644 (entries.map fileOf)).length := by
  have hperm := ((sortedEntries_perm entries).map fileOf).flatMap_right (Ustar.fileBlocks 0o644)
  rw [bundleBytes_eq]
  simp only [Ustar.write, Ustar.fill, List.length_append, hperm.length_eq]

/-! Runs in which one file was written. -/

/-- The file was written with the given contents. -/
def writtenEvent (path : Text) (data : List UInt8) : Event Decimal HexDigest :=
  .fsWrite {
    path, content := ⟨Sha256.hash data, data.length⟩, eventMeta := ⟨half, none, none⟩ }

/-- The run in which it was written. -/
def writtenLog (path : Text) (data : List UInt8) : List (StoredEvent Decimal HexDigest) :=
  [⟨"run".toList, 0, writtenEvent path data⟩]

/-- Its contents. -/
def writtenBlob (path : Text) (data : List UInt8) :
    CheckedBlob (blobRefs (writtenLog path data)) where
  digest := Sha256.hash data
  data := data
  hash := rfl
  sized := by
    rintro ref href -
    obtain rfl := List.mem_singleton.mp href
    rfl

/-- The cassette of the run. -/
def writtenCassette (path : Text) (data : List UInt8) : ValidatedCassette Decimal HexDigest where
  header := {
    tracewakeVersion := "1".toList, schemaVersion := eventSchemaVersion, runId := "run".toList
    name := [], recordedAt := half, status := .ok, models := [], eventCount := 1
    digest := Sha256.hash ((writtenEvent path data).canonicalBytes ++ [10]) }
  events := writtenLog path data
  blobs := [writtenBlob path data]
  formatVersion := rfl
  schemaVersion := rfl
  ofRun := by simp [writtenLog]
  inSequence := rfl
  count := rfl
  consistent := by simp [writtenLog, writtenEvent, Event.Consistent]
  digest := by simp [runDigest, canonicalOrder, writtenLog, sha256Hex]
  complete := rfl

/-- The manifest of its bundle. -/
def writtenManifest (path : Text) (data : List UInt8) (hdata : data.length ≤ maxBlobBytes) :
    BundleManifest HexDigest :=
  let eventData := Utf8.encode (eventText (writtenLog path data))
  { bundleFormatVersion := bundleFormatVersion
    cassetteFormatVersion := cassetteFormatVersion
    eventSchemaVersion := eventSchemaVersion
    runId := "run".toList
    eventCount := 1
    logicalRunDigest := Sha256.hash ((writtenEvent path data).canonicalBytes ++ [10])
    events := ⟨eventsPath, Sha256.hash eventData, eventData.length⟩
    blobs := [⟨⟨blobPath (Sha256.hex (Sha256.hash data : HexDigest)), Sha256.hash data,
      data.length⟩, hdata, rfl⟩]
    countBound := one_le_maxEvents
    blobsBound := by simp [maxEntries] }

/-- The run keeps the bounds of a bundle. -/
structure SmallRun (path : Text) (data : List UInt8) : Prop where
  events : (Utf8.encode (eventText (writtenLog path data))).length ≤ maxEventBytes
  bound : data.length ≤ maxBlobBytes
  archive : (Ustar.write 0o644 ((packed (writtenCassette path data)
    (writtenManifest path data bound)).map fileOf)).length ≤ maxBundleBytes

/-- The bundle of a small run can be built. -/
theorem SmallRun.built {path : Text} {data : List UInt8} (h : SmallRun path data) :
    ∃ raw, buildBundle (writtenCassette path data) = .ok raw ∧
      Built (writtenCassette path data) raw (writtenManifest path data h.bound) := by
  have hsorted : sortedBlobs (writtenCassette path data).blobs = [writtenBlob path data] :=
    List.mergeSort_singleton _
  have hsize := h.archive
  rw [← length_bundleBytes] at hsize
  refine ⟨bundleBytes (packed (writtenCassette path data) (writtenManifest path data h.bound)), ?_,
    rfl, h.events, show 3 ≤ maxEntries by decide, hsize, rfl, rfl, rfl, rfl, rfl,
    rfl, rfl, by rw [hsorted]; rfl⟩
  have hdeclared : declare [writtenBlob path data] =
      .ok (writtenManifest path data h.bound).blobs := by
    rw [declare, accepts_check]
    exact ⟨h.bound, rfl⟩
  rw [buildBundle, accepts_check]
  refine ⟨h.events, ?_⟩
  rw [accepts_check]
  refine ⟨one_le_maxEvents, ?_⟩
  rw [accepts_bind, hsorted]
  refine ⟨_, hdeclared, ?_⟩
  rw [accepts_check]
  refine ⟨show 1 ≤ maxEntries - 2 by decide, ?_⟩
  dsimp only
  rw [accepts_check]
  refine ⟨show 3 ≤ maxEntries by decide, ?_⟩
  rw [accepts_check]
  exact ⟨hsize, rfl⟩

/-- The strings of the event can be searched for separators. -/
theorem unseparated_writtenLog {path : Text} {data : List UInt8} :
    (∀ stored ∈ writtenLog path data, Unseparated stored.event) ↔
      (((writtenEvent path data).dumpAll.canon lessCodePoints).strings.all fun s =>
        s.all fun c => !isSeparator c) = true := by
  simp [writtenLog, Unseparated]

/-- What was written in all the runs. -/
def writtenData : List UInt8 := Utf8.encode "done".toList

/-- The first log of the example is the record of a run. -/
theorem smallRun_notes : SmallRun "notes".toList writtenData where
  events := by decide +kernel
  bound := by decide
  archive := by decide +kernel

/-- The second log of the example is the record of a run whose file has a line separator in
its name. -/
theorem smallRun_separated : SmallRun "no\u2028tes".toList writtenData where
  events := by decide +kernel
  bound := by decide
  archive := by decide +kernel

/-- The bundle of the cassette is accepted. -/
theorem writtenCassette_accepted :
    ∃ (raw : Ustar.Bytes) (bundle : ValidatedBundle Decimal HexDigest),
      buildBundle (writtenCassette "notes".toList writtenData) = .ok raw ∧
        validateBundle raw = .ok bundle ∧ bundle.events = writtenLog "notes".toList writtenData := by
  obtain ⟨raw, hbuilt, h⟩ := smallRun_notes.built
  obtain ⟨bundle, haccepted⟩ := h.accepted (unseparated_writtenLog.mpr (by decide +kernel))
  exact ⟨raw, bundle, hbuilt, haccepted, h.events_eq haccepted⟩

/-- The bundle of a run is accepted and has its events. It is refused after a separator has come
into the name of the file. -/
theorem validate_build_written :
    (∃ (raw : Ustar.Bytes) (bundle : ValidatedBundle Decimal HexDigest),
      buildBundle (writtenCassette "notes".toList writtenData) = .ok raw ∧
        validateBundle raw = .ok bundle ∧ bundle.events = writtenLog "notes".toList writtenData) ∧
    ∃ raw : Ustar.Bytes,
      buildBundle (writtenCassette "no\u2028tes".toList writtenData) = .ok raw ∧
        ¬ ∃ bundle : ValidatedBundle Decimal HexDigest, validateBundle raw = .ok bundle := by
  constructor
  · obtain ⟨raw, hbuilt, -⟩ := smallRun_notes.built
    obtain ⟨hplain, hcontent⟩ := validate_build hbuilt
    obtain ⟨bundle, haccepted⟩ := hplain.mpr (unseparated_writtenLog.mpr (by decide +kernel))
    obtain ⟨-, -, hevents, -⟩ := hcontent bundle haccepted
    exact ⟨raw, bundle, hbuilt, haccepted, hevents⟩
  · obtain ⟨raw, hbuilt, -⟩ := smallRun_separated.built
    refine ⟨raw, hbuilt, fun haccepted => ?_⟩
    have hplain := unseparated_writtenLog.mp ((validate_build hbuilt).1.mp haccepted)
    revert hplain
    decide +kernel

end Tracewake.Bundles
