import Tracewake.Archives.Ustar
import Tracewake.Bundles.Manifest

/-!
# Bundles

A run in one file: an archive of its manifest, its events and its blobs. `build_bundle` packs a
validated cassette, and `validate_bundle` checks the bytes of somebody else. What it returns
carries the proofs of what it checked.
-/

namespace Tracewake.Bundles

open JsonText Recording Cassettes Effects
open Archives
open Results (lessCodePoints keyOrder)

variable {F D : Type} [Python F] [Sha256 D]

/-- The entries of an archive by their names. -/
abbrev Entries := List (Text × Ustar.Bytes)

/-- The bytes of an entry. -/
def Entries.find (entries : Entries) (name : Text) : Option Ustar.Bytes :=
  (entries.find? fun entry => entry.1 = name).map Prod.snd

/-- `sorted` of the names of entries. -/
def sortedEntries (entries : Entries) : Entries :=
  entries.mergeSort fun a b => !lessCodePoints b.1 a.1

/-- `_bundle_bytes`. -/
def bundleBytes (entries : Entries) : Ustar.Bytes :=
  Ustar.write 0o644 ((sortedEntries entries).map fun entry => ⟨Utf8.encode entry.1, entry.2⟩)

/-! ## Building -/

/-- Why a cassette cannot be built into a bundle. -/
inductive BuildError where
  | eventBytes
  | events
  | blobBytes
  | entries
  | bundleBytes
  deriving DecidableEq

/-- The text of the events. -/
def eventText (events : List (StoredEvent F D)) : Text :=
  let text := List.intercalate ['\n'] (events.map line)
  text ++ if text = [] then [] else ['\n']

/-- The declarations of blobs. -/
def declare {refs : List (BlobRef D)} : List (CheckedBlob refs) →
    Except BuildError (List (BlobEntry D))
  | [] => .ok []
  | blob :: rest => do
    let ⟨hbound⟩ ← check (blob.data.length ≤ maxBlobBytes) .blobBytes
    let entries ← declare rest
    return ⟨⟨blobPath (Sha256.hex blob.digest), blob.digest, blob.data.length⟩, hbound, rfl⟩ ::
      entries

/-- The blobs in the order of their digests. -/
def sortedBlobs {refs : List (BlobRef D)} (blobs : List (CheckedBlob refs)) :
    List (CheckedBlob refs) :=
  blobs.mergeSort fun a b => !lessCodePoints (Sha256.hex b.digest) (Sha256.hex a.digest)

/-- The entry of a blob. -/
def blobEntry {refs : List (BlobRef D)} (blob : CheckedBlob refs) : Text × Ustar.Bytes :=
  (blobPath (Sha256.hex blob.digest), blob.data)

/-- `build_bundle`. -/
def buildBundle [DecidableEq D] (cassette : ValidatedCassette F D) :
    Except BuildError Ustar.Bytes := do
  let eventData := Utf8.encode (eventText cassette.events)
  let _ ← check (eventData.length ≤ maxEventBytes) .eventBytes
  let ⟨hcount⟩ ← check (cassette.events.length ≤ maxEvents) .events
  let blobs ← declare (sortedBlobs cassette.blobs)
  let ⟨hblobs⟩ ← check (blobs.length ≤ maxEntries - 2) .entries
  let manifest : BundleManifest D := {
    bundleFormatVersion := bundleFormatVersion
    cassetteFormatVersion := cassette.header.formatVersion
    eventSchemaVersion := cassette.header.schemaVersion
    runId := cassette.header.runId
    eventCount := cassette.events.length
    logicalRunDigest := cassette.header.digest
    events := ⟨eventsPath, Sha256.hash eventData, eventData.length⟩
    blobs
    countBound := hcount
    blobsBound := hblobs }
  let entries := (manifestPath, canonicalJsonBytes F manifest) :: (eventsPath, eventData) ::
    cassette.blobs.map blobEntry
  let _ ← check (entries.length ≤ maxEntries) .entries
  let raw := bundleBytes entries
  let _ ← check (raw.length ≤ maxBundleBytes) .bundleBytes
  return raw

/-! ## Names -/

/-- The parts of a `PurePosixPath`. -/
def pathParts (name : Text) : List Text :=
  (name.splitOn '/').filter fun part => part ≠ [] ∧ part ≠ ['.']

/-- `as_posix` of a path that is not absolute. -/
def asPosix (name : Text) : Text :=
  if pathParts name = [] then ['.'] else List.intercalate ['/'] (pathParts name)

/-- `_safe_name`. -/
def safeName (name : Text) : Bool :=
  name ≠ [] && name.head? ≠ some '/' && !name.contains '\\' && asPosix name = name &&
    (pathParts name).all (fun part => !([[], ['.'], ['.', '.']].contains part)) &&
    (Utf8.encode name).length ≤ 100

/-! ## Reading -/

/-- Why a bundle is refused. -/
inductive Invalid (D : Type) where
  | tooLarge (actual : ℕ)
  | compressed
  | notAnArchive
  | tooManyEntries (actual : ℕ)
  | name
  | order
  | duplicates
  | notAFile (name : Text)
  | expanded
  | declaredSize (name : Text)
  | notCanonicalArchive
  | missing
  | manifest
  | notCanonicalManifest
  | bundleFormat (actual : ℤ)
  | cassetteFormat (actual : ℤ)
  | eventSchema (actual : ℤ)
  | eventsPath
  | eventsDigest
  | eventBytes
  | notUtf8
  | lastLine
  | eventCount (expected actual : ℕ)
  | invalidEvent (number : ℕ)
  | sequence (expected : ℕ) (actual : ℤ)
  | notCanonicalEvent (number : ℕ)
  | logicalDigest (actual : Text)
  | declaredTwice
  | declarations
  | entries
  | blob (path : Text)
  | blobSize (path : Text)
  deriving DecidableEq

/-- The first bytes of what `gzip`, `bzip2` and `xz` write. -/
def isCompressed (raw : Ustar.Bytes) : Bool :=
  [0x1f, 0x8b].isPrefixOf raw || [0x42, 0x5a, 0x68].isPrefixOf raw ||
    [0xfd, 0x37, 0x7a, 0x58, 0x5a].isPrefixOf raw

/-- The entry of a member, which follows so many bytes. -/
def readMembers : ℕ → List (Text × Ustar.Member) → Except (Invalid D) Entries
  | _, [] => .ok []
  | total, (name, member) :: rest => do
    let _ ← check (safeName name = true) .name
    let _ ← check (member.isFile = true) (.notAFile name)
    let _ ← check (member.size ≤ maxBundleBytes) .expanded
    let data := member.data.take (maxBundleBytes + 1)
    let _ ← check (data.length = member.size) (.declaredSize name)
    let _ ← check (total + data.length ≤ maxBundleBytes) .expanded
    let entries ← readMembers (total + data.length) rest
    return (name, data) :: entries

/-- `_read_entries`. Names are decoded before the first of them is looked at. -/
def readEntries (raw : Ustar.Bytes) : Except (Invalid D) Entries := do
  let _ ← check (isCompressed raw = false) .compressed
  let members ← required (Ustar.read raw) .notAnArchive
  let _ ← check (members.length ≤ maxEntries) (.tooManyEntries members.length)
  let named ← required
    (members.mapM fun member => (Utf8.decode none member.name).map fun name => (name, member))
    .name
  let names := named.map Prod.fst
  let _ ← check (names = names.mergeSort fun a b => !lessCodePoints b a) .order
  let _ ← check names.Nodup .duplicates
  let entries ← readMembers 0 named
  let _ ← check (raw = bundleBytes entries) .notCanonicalArchive
  return entries

variable [Pydantic F D]

/-- The events of the lines from a number on. -/
def parseLines (runId : Text) : (number : ℕ) → (lines : List Text) →
    Except (Invalid D) {events : List (StoredEvent F D) // events.map line = lines ∧
      (∀ stored ∈ events, stored.runId = runId) ∧
      (events.map fun stored => stored.seq) = (List.range' number lines.length).map Nat.cast}
  | _, [] => .ok ⟨[], rfl, by simp, rfl⟩
  | number, text :: rest => do
    let (seq, event) ← required (readLine D text) (.invalidEvent number)
    let ⟨hseq⟩ ← check (seq = number) (.sequence number seq)
    let ⟨hline⟩ ← check (line (⟨runId, seq, event⟩ : StoredEvent F D) = text)
      (.notCanonicalEvent number)
    let ⟨events, hlines, hrun, hseqs⟩ ← parseLines runId (number + 1) rest
    return ⟨⟨runId, seq, event⟩ :: events, by rw [List.map_cons, hline, hlines],
      List.forall_mem_cons.mpr ⟨rfl, hrun⟩,
      by rw [List.map_cons, hseqs, hseq, List.length_cons, List.range'_succ, List.map_cons]⟩

/-- `_parse_events`. -/
def parseEvents (manifest : BundleManifest D) (raw : Ustar.Bytes) : Except (Invalid D)
    {events : List (StoredEvent F D) // InSequence events ∧
      (∀ stored ∈ events, stored.runId = manifest.runId) ∧
        events.length = manifest.eventCount} := do
  let _ ← check (raw.length ≤ maxEventBytes) .eventBytes
  let text ← required (Utf8.decode none raw) .notUtf8
  let _ ← check (text = [] ∨ text.getLast? = some '\n') .lastLine
  let lines := Texts.splitlines text
  let ⟨hcount⟩ ← check (lines.length = manifest.eventCount)
    (.eventCount manifest.eventCount lines.length)
  let ⟨events, hlines, hrun, hseqs⟩ ← parseLines (F := F) manifest.runId 0 lines
  have hlength : events.length = lines.length := by rw [← hlines, List.length_map]
  return ⟨events, by rw [InSequence, hseqs, hlength, List.range_eq_range'], hrun,
    hlength.trans hcount⟩

/-- `ValidatedBundle`. -/
structure ValidatedBundle (F D : Type) [Python F] [Sha256 D] [DecidableEq D] where
  manifest : BundleManifest D
  events : List (StoredEvent F D)
  blobs : List (CheckedBlob (blobRefs events))
  bundleDigest : D
  size : ℕ
  formatVersion : manifest.bundleFormatVersion = bundleFormatVersion
  cassetteVersion : manifest.cassetteFormatVersion = cassetteFormatVersion
  schemaVersion : manifest.eventSchemaVersion = eventSchemaVersion
  path : manifest.events.path = eventsPath
  ofRun : ∀ stored ∈ events, stored.runId = manifest.runId
  inSequence : InSequence events
  count : events.length = manifest.eventCount
  digest : runDigest events = Sha256.hex manifest.logicalRunDigest
  declared : (blobs.map fun blob => (blob.digest, blob.data.length)) =
    manifest.blobs.map fun blob => (blob.digest, blob.size)
  nodup : (manifest.blobs.map fun blob => blob.digest).Nodup
  complete : ∀ digest, digest ∈ (manifest.blobs.map fun blob => blob.digest) ↔
    digest ∈ blobDigests events

variable [DecidableEq D]

/-- The blobs of the declarations. -/
def checkDeclared (entries : Entries) (refs : List (BlobRef D)) :
    (declarations : List (BlobEntry D)) → Except (Invalid D) {blobs : List (CheckedBlob refs) //
      (blobs.map fun blob => (blob.digest, blob.data.length)) =
        declarations.map fun blob => (blob.digest, blob.size)}
  | [] => .ok ⟨[], rfl⟩
  | declaration :: rest => do
    let data ← required (entries.find declaration.path) .entries
    let ⟨hblob⟩ ← check (data.length = declaration.size ∧ Sha256.hash data = declaration.digest)
      (.blob declaration.path)
    let ⟨hsized⟩ ← check (Sized refs declaration.digest data.length) (.blobSize declaration.path)
    let ⟨blobs, hblobs⟩ ← checkDeclared entries refs rest
    return ⟨⟨declaration.digest, data, hblob.2, hsized⟩ :: blobs,
      by simp only [List.map_cons, hblobs, hblob.1]⟩

/-- Two lists have the same members. -/
def SameMembers {α : Type} (a b : List α) : Prop := (∀ x ∈ a, x ∈ b) ∧ ∀ x ∈ b, x ∈ a

/-- The test of two lists says that they have the same members. -/
theorem sameMembers_iff {α : Type} [DecidableEq α] (a b : List α) :
    ((a.all fun x => b.contains x) && b.all fun x => a.contains x) = true ↔ SameMembers a b := by
  simp only [SameMembers, Bool.and_eq_true, List.all_eq_true, List.contains_iff_mem]

instance {α : Type} [DecidableEq α] (a b : List α) : Decidable (SameMembers a b) :=
  decidable_of_iff _ (sameMembers_iff a b)

/-- `validate_bundle`. -/
def validateBundle [ManifestJson F D] (raw : Ustar.Bytes) :
    Except (Invalid D) (ValidatedBundle F D) := do
  let _ ← check (raw.length ≤ maxBundleBytes) (.tooLarge raw.length)
  let entries ← readEntries raw
  let manifestData ← required (entries.find manifestPath) .missing
  let eventData ← required (entries.find eventsPath) .missing
  let manifest ← required (readManifest F manifestData) .manifest
  let _ ← check (manifestData = canonicalJsonBytes F manifest) .notCanonicalManifest
  let ⟨hformat⟩ ← check (manifest.bundleFormatVersion = bundleFormatVersion)
    (.bundleFormat manifest.bundleFormatVersion)
  let ⟨hcassette⟩ ← check (manifest.cassetteFormatVersion = cassetteFormatVersion)
    (.cassetteFormat manifest.cassetteFormatVersion)
  let ⟨hschema⟩ ← check (manifest.eventSchemaVersion = eventSchemaVersion)
    (.eventSchema manifest.eventSchemaVersion)
  let ⟨hpath⟩ ← check (manifest.events.path = eventsPath) .eventsPath
  let _ ← check (manifest.events.size = eventData.length ∧
    manifest.events.digest = Sha256.hash eventData) .eventsDigest
  let ⟨events, hsequence, hrun, hcount⟩ ← parseEvents (F := F) manifest eventData
  let ⟨hdigest⟩ ← check (runDigest events = Sha256.hex manifest.logicalRunDigest)
    (.logicalDigest (runDigest events))
  let declared := manifest.blobs.map fun blob => blob.digest
  let ⟨hnodup⟩ ← check declared.Nodup .declaredTwice
  let ⟨hsame⟩ ← check (SameMembers declared (blobDigests events)) .declarations
  let _ ← check (SameMembers (entries.map Prod.fst)
    (manifestPath :: eventsPath :: manifest.blobs.map fun blob => blob.path)) .entries
  let ⟨blobs, hblobs⟩ ← checkDeclared entries (blobRefs events) manifest.blobs
  return ⟨manifest, events, blobs, Sha256.hash raw, raw.length, hformat, hcassette, hschema, hpath,
    hrun, hsequence, hcount, hdigest, hblobs, hnodup,
    fun digest => ⟨fun h => hsame.1 digest h, fun h => hsame.2 digest h⟩⟩

end Tracewake.Bundles
