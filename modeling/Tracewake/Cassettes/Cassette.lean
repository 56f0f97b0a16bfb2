import Tracewake.Cassettes.EventLines
import Tracewake.Recording.Store
import Tracewake.Effects.Checks

/-!
# Cassettes

A run in a directory: a header line and the lines of its events in one file, and its blobs in
files named by their digests. `_validate_cassette` reads the directory of somebody else, and
what it returns carries the proofs of everything that it checked. The header is written and
read by `pydantic`, of which only the round trip on one line is assumed.
-/

namespace Tracewake.Cassettes

open JsonText Recording Effects

variable {F D : Type} [Python F] [Sha256 D]

/-- `CASSETTE_FORMAT_VERSION`. -/
def cassetteFormatVersion : ℤ := 1

/-- `CassetteHeader`. -/
structure CassetteHeader (F D : Type) where
  formatVersion : ℤ := cassetteFormatVersion
  tracewakeVersion : Text
  schemaVersion : ℤ
  runId : Text
  name : Text
  recordedAt : F
  finishedAt : Option F := none
  status : RunStatus
  models : List ModelIdentity
  command : Option (List Text) := none
  redacted : Bool := true
  taskId : Option Text := none
  eventCount : ℕ
  digest : D

/-- `model_dump_json` and `model_validate_json` of a header. -/
class HeaderJson (F D : Type) where
  write : CassetteHeader F D → Text
  read : Text → Option (CassetteHeader F D)
  read_write : ∀ header, read (write header ++ ['\n']) = some header
  feed_notMem : ∀ header, '\n' ∉ write header
  return_notMem : ∀ header, '\r' ∉ write header

/-! ## References to blobs -/

/-- The blob references of an event. The arguments of a call are no models and are not
searched. -/
def Event.blobRefs : Event F D → List (BlobRef D)
  | .toolCall event => [event.result]
  | .fsRead event => event.content.toList
  | .fsWrite event => [event.content]
  | .outcome event => event.patch.toList
  | .modelCall _ | .environment _ | .intervention _ => []

/-- `_blob_refs`: a digest is found with every size that goes with it. -/
def blobRefs (events : List (StoredEvent F D)) : List (BlobRef D) :=
  events.flatMap fun stored => Event.blobRefs stored.event

/-- `_blob_digests`, each once. -/
def blobDigests [DecidableEq D] (events : List (StoredEvent F D)) : List D :=
  ((blobRefs events).map fun ref => ref.digest).eraseDups

/-- The first occurrences are all different. -/
theorem nodup_eraseDups {α : Type} [DecidableEq α] (l : List α) : l.eraseDups.Nodup := by
  induction hn : l.length using Nat.strong_induction_on generalizing l with
  | _ n ih =>
    cases l with
    | nil => exact List.nodup_nil
    | cons a l =>
      have hlength : (l.filter fun b => !b == a).length < n := by
        have hle := List.length_filter_le (fun b => !b == a) l
        simp only [List.length_cons] at hn
        omega
      rw [List.eraseDups_cons, List.nodup_cons]
      refine ⟨?_, ih _ hlength _ rfl⟩
      simp

/-- The references to a digest are all of this size. -/
def Sized (refs : List (BlobRef D)) (digest : D) (size : ℕ) : Prop :=
  ∀ ref ∈ refs, ref.digest = digest → ref.size = size

instance [DecidableEq D] (refs : List (BlobRef D)) (digest : D) (size : ℕ) :
    Decidable (Sized refs digest size) :=
  inferInstanceAs (Decidable (∀ ref ∈ refs, ref.digest = digest → ref.size = size))

/-- The hashes that an event holds of its own messages or arguments. -/
def Event.Consistent (D : Type) [Sha256 D] : Event F D → Prop
  | .modelCall event => event.messagesHash = hashMessages F D event.messages
  | .toolCall event => event.argsHash = hashArgs D event.args
  | _ => True

instance (event : Event F D) : Decidable (Event.Consistent D event) := by
  cases event <;> unfold Event.Consistent <;> infer_instance

/-- The events are numbered from zero on. -/
def InSequence (events : List (StoredEvent F D)) : Prop :=
  events.map (fun stored => stored.seq) = (List.range events.length).map Nat.cast

instance (events : List (StoredEvent F D)) : Decidable (InSequence events) :=
  inferInstanceAs (Decidable (_ = _))

/-- A blob that was checked against the references. -/
structure CheckedBlob (refs : List (BlobRef D)) where
  digest : D
  data : List UInt8
  hash : Sha256.hash data = digest
  sized : Sized refs digest data.length

/-- `_ValidatedCassette`. -/
structure ValidatedCassette (F D : Type) [Python F] [Sha256 D] [DecidableEq D] where
  header : CassetteHeader F D
  events : List (StoredEvent F D)
  blobs : List (CheckedBlob (blobRefs events))
  formatVersion : header.formatVersion = cassetteFormatVersion
  schemaVersion : header.schemaVersion = eventSchemaVersion
  ofRun : ∀ stored ∈ events, stored.runId = header.runId
  inSequence : InSequence events
  count : events.length = header.eventCount
  consistent : ∀ stored ∈ events, Event.Consistent D stored.event
  digest : runDigest events = Sha256.hex header.digest
  complete : (blobs.map fun blob => blob.digest) = blobDigests events

/-! ## Directories -/

/-- An entry of a directory tree. -/
inductive Entry where
  | file (data : List UInt8)
  | folder
  | link
  | other
  deriving DecidableEq

/-- What a cassette is read from: the entries below a directory by their relative paths, and
the path of the cassette file. In a directory that is a cassette nothing else may be. -/
structure Source where
  entries : List (Text × Entry)
  strictRoot : Bool
  cassettePath : Text

/-- The entry at a path. -/
def Source.lookup (source : Source) (path : Text) : Option Entry :=
  (source.entries.find? fun entry => entry.1 = path).map Prod.snd

/-- `CASSETTE_FILE`. -/
def cassetteFile : Text := "cassette.jsonl".toList

/-- `BLOB_DIR`. -/
def blobDir : Text := "blobs".toList

/-- The folders above the blob of a digest, from the outer one on. -/
def blobFolders (digest : Text) : List Text :=
  let outer := blobDir ++ '/' :: digest.take 2
  [blobDir, outer, outer ++ '/' :: (digest.drop 2).take 2]

/-- `_canonical_blob_path`. -/
def blobPath (digest : Text) : Text :=
  blobDir ++ '/' :: digest.take 2 ++ '/' :: (digest.drop 2).take 2 ++ '/' :: digest

/-- Why a cassette is refused. -/
inductive Refusal (D : Type) where
  | notAFile (path : Text)
  | notUtf8
  | invalidHeader
  | formatVersion (actual : ℤ)
  | schemaVersion (actual : ℤ)
  | invalidEvent (line : ℕ)
  | sequence
  | eventCount (expected actual : ℕ)
  | inconsistent (seq : ℤ)
  | digest (actual : Text)
  | link (path : Text)
  | notAFolder (path : Text)
  | unexpected (path : Text)
  | missingBlob (digest : D)
  | blobDigest (expected actual : D)
  | blobSize (digest : D) (actual : ℕ)
  deriving DecidableEq

/-! ## Reading -/

/-- The lines of the cassette file, which has to be a regular file. -/
def readFile (source : Source) : Except (Refusal D) (List Text) := do
  match source.lookup source.cassettePath with
  | some (.file data) =>
    let text ← required (Utf8.decode none data) .notUtf8
    return Texts.fileLines text
  | _ => .error (.notAFile source.cassettePath)

/-- `_read_events` of the lines behind the header. -/
def readEvents [Pydantic F D] (runId : Text) (lines : List Text) :
    Except (Refusal D) {events : List (StoredEvent F D) //
      InSequence events ∧ ∀ stored ∈ events, stored.runId = runId} := do
  let parsed ← (lines.zipIdx 2).mapM fun entry =>
    required (readLine D entry.1) (.invalidEvent entry.2)
  let events : List (StoredEvent F D) := parsed.map fun entry => ⟨runId, entry.1, entry.2⟩
  let ⟨hsequence⟩ ← check (InSequence events) .sequence
  have hrun : ∀ stored ∈ events, stored.runId = runId := by
    intro stored hstored
    obtain ⟨entry, -, rfl⟩ := List.mem_map.mp hstored
    rfl
  return ⟨events, hsequence, hrun⟩

/-- `_validate_derived_request_hashes`. -/
def validateDerivedRequestHashes : (events : List (StoredEvent F D)) →
    Except (Refusal D) (PLift (∀ stored ∈ events, Event.Consistent D stored.event))
  | [] => .ok ⟨by simp⟩
  | stored :: rest => do
    let ⟨hstored⟩ ← check (Event.Consistent D stored.event) (.inconsistent stored.seq)
    let ⟨hrest⟩ ← validateDerivedRequestHashes rest
    return ⟨List.forall_mem_cons.mpr ⟨hstored, hrest⟩⟩

variable [DecidableEq D]

/-- The entries that `_validate_entries` looks at: everything in a cassette directory, and of
a directory around a cassette file what is under `blobs`. -/
def Source.seen (source : Source) : List (Text × Entry) :=
  if source.strictRoot then source.entries
  else source.entries.filter fun entry => (blobDir ++ ['/']).isPrefixOf entry.1

/-- An entry is one of the expected files or folders. -/
def checkEntry (files folders : List Text) (entry : Text × Entry) : Except (Refusal D) Unit :=
  match entry with
  | (path, .link) => .error (.link path)
  | (path, kind) =>
    if files.contains path then
      match kind with
      | .file _ => .ok ()
      | _ => .error (.notAFile path)
    else if folders.contains path then
      if kind = .folder then .ok () else .error (.notAFolder path)
    else .error (.unexpected path)

/-- Every blob is a regular file at its place. -/
def findBlobs (source : Source) : (digests : List D) →
    Except (Refusal D) {found : List (D × List UInt8) // found.map Prod.fst = digests}
  | [] => .ok ⟨[], rfl⟩
  | digest :: rest =>
    match source.lookup (blobPath (Sha256.hex digest)) with
    | some (.file data) => do
      let ⟨found, hfound⟩ ← findBlobs source rest
      return ⟨(digest, data) :: found, by rw [List.map_cons, hfound]⟩
    | _ => .error (.missingBlob digest)

/-- `_validate_entries`: every entry is expected, and every blob is there. -/
def validateEntries (source : Source) (digests : List D) :
    Except (Refusal D) {found : List (D × List UInt8) // found.map Prod.fst = digests} := do
  let names := digests.map fun digest => Sha256.hex digest
  let files := names.map blobPath ++ if source.strictRoot then [source.cassettePath] else []
  source.seen.forM (checkEntry files (names.flatMap blobFolders))
  findBlobs source digests

/-- The bytes of every blob have its digest and the size that the references give. -/
def checkBlobs (refs : List (BlobRef D)) : (found : List (D × List UInt8)) →
    Except (Refusal D) {blobs : List (CheckedBlob refs) //
      (blobs.map fun blob => blob.digest) = found.map Prod.fst}
  | [] => .ok ⟨[], rfl⟩
  | (digest, data) :: rest => do
    let ⟨hhash⟩ ← check (Sha256.hash data = digest) (.blobDigest digest (Sha256.hash data))
    let ⟨hsized⟩ ← check (Sized refs digest data.length) (.blobSize digest data.length)
    let ⟨blobs, hblobs⟩ ← checkBlobs refs rest
    return ⟨⟨digest, data, hhash, hsized⟩ :: blobs, by rw [List.map_cons, hblobs, List.map_cons]⟩

/-- `_validate_cassette`. -/
def validateCassette [Pydantic F D] [HeaderJson F D] (source : Source) :
    Except (Refusal D) (ValidatedCassette F D) := do
  let lines ← readFile source
  let header : CassetteHeader F D ← required (HeaderJson.read (lines.headD [])) .invalidHeader
  let ⟨hformat⟩ ← check (header.formatVersion = cassetteFormatVersion)
    (.formatVersion header.formatVersion)
  let ⟨hschema⟩ ← check (header.schemaVersion = eventSchemaVersion)
    (.schemaVersion header.schemaVersion)
  let ⟨events, hsequence, hrun⟩ ← readEvents (F := F) header.runId lines.tail
  let ⟨hcount⟩ ← check (events.length = header.eventCount)
    (.eventCount header.eventCount events.length)
  let ⟨hconsistent⟩ ← validateDerivedRequestHashes events
  let ⟨hdigest⟩ ← check (runDigest events = Sha256.hex header.digest) (.digest (runDigest events))
  let ⟨found, hfound⟩ ← validateEntries source (blobDigests events)
  let ⟨blobs, hblobs⟩ ← checkBlobs (blobRefs events) found
  return ⟨header, events, blobs, hformat, hschema, hrun, hsequence, hcount, hconsistent, hdigest,
    hblobs.trans hfound⟩

end Tracewake.Cassettes
