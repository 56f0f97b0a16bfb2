import Tracewake.Cassettes.Headers

/-!
# Manifests of bundles

The manifest of a bundle says what else is in it: the events in one entry, and every blob in
an entry at the path of its digest. It is canonical JSON with a line feed behind it. Of the
validator of manifests it is only used that it takes what was written; a strict one has this, so
that bundles can be evaluated.
-/

namespace Tracewake.Bundles

open JsonText Recording Cassettes Effects
open Results (lessCodePoints keyOrder)

variable {F D : Type} [Sha256 D]

/-- `BUNDLE_FORMAT_VERSION`. -/
def bundleFormatVersion : ℤ := 1

/-- `MANIFEST_PATH`. -/
def manifestPath : Text := "manifest.json".toList

/-- `EVENTS_PATH`. -/
def eventsPath : Text := "events.jsonl".toList

/-- `MAX_BUNDLE_BYTES`. -/
def maxBundleBytes : ℕ := 256 * 1024 * 1024

/-- `MAX_BLOB_BYTES`. -/
def maxBlobBytes : ℕ := 64 * 1024 * 1024

/-- `MAX_EVENT_BYTES`. -/
def maxEventBytes : ℕ := 64 * 1024 * 1024

/-- `MAX_EVENTS`. -/
def maxEvents : ℕ := 100000

/-- A single event is within the bound. -/
theorem one_le_maxEvents : 1 ≤ maxEvents := by decide

/-- `MAX_ENTRIES`. -/
def maxEntries : ℕ := 10000

/-- `BundleEntry`. -/
structure BundleEntry (D : Type) where
  path : Text
  digest : D
  size : ℕ

/-- `BlobEntry`. -/
structure BlobEntry (D : Type) [Sha256 D] extends BundleEntry D where
  bound : size ≤ maxBlobBytes
  canonicalPath : path = blobPath (Sha256.hex digest)

/-- `BundleManifest`. -/
structure BundleManifest (D : Type) [Sha256 D] where
  bundleFormatVersion : ℤ
  cassetteFormatVersion : ℤ
  eventSchemaVersion : ℤ
  runId : Text
  eventCount : ℕ
  logicalRunDigest : D
  events : BundleEntry D
  blobs : List (BlobEntry D)
  countBound : eventCount ≤ maxEvents
  blobsBound : blobs.length ≤ maxEntries - 2

/-! ## Dumps -/

def BundleEntry.dump (entry : BundleEntry D) : Value F :=
  record [("path", .str entry.path), ("digest", .str (Sha256.hex entry.digest)),
    ("size", integer entry.size)]

def BundleManifest.dump (manifest : BundleManifest D) : Value F :=
  record [("bundle_format_version", integer manifest.bundleFormatVersion),
    ("cassette_format_version", integer manifest.cassetteFormatVersion),
    ("event_schema_version", integer manifest.eventSchemaVersion),
    ("run_id", .str manifest.runId), ("event_count", integer manifest.eventCount),
    ("logical_run_digest", .str (Sha256.hex manifest.logicalRunDigest)),
    ("events", manifest.events.dump),
    ("blobs", list (fun blob : BlobEntry D => blob.toBundleEntry.dump) manifest.blobs)]

/-- `_canonical_json_bytes`. -/
def canonicalJsonBytes (F : Type) [Python F] (manifest : BundleManifest D) : List UInt8 :=
  Utf8.encode (canonicalJson (F := F) manifest.dump ++ ['\n'])

/-! ## Reading -/

/-- `BundleManifest.model_validate_json`. What it takes besides is refused for not being
canonical. -/
class ManifestJson (F D : Type) [Python F] [Sha256 D] where
  read : List UInt8 → Option (BundleManifest D)
  read_write : ∀ manifest, read (canonicalJsonBytes F manifest) = some manifest

/-- `model_validate_json`. -/
def readManifest (F : Type) [Python F] [ManifestJson F D] (data : List UInt8) :
    Option (BundleManifest D) :=
  ManifestJson.read (F := F) data

/-- The bytes of a manifest are read back. -/
theorem readManifest_canonicalJsonBytes [Python F] [ManifestJson F D]
    (manifest : BundleManifest D) :
    readManifest F (canonicalJsonBytes F manifest) = some manifest :=
  ManifestJson.read_write manifest

/-! ## A strict validator -/

def BundleEntry.load (value : Value F) : Option (BundleEntry D) := do
  return ⟨← get? "path" text? value, ← get? "digest" digest? value, ← get? "size" natural? value⟩

def BlobEntry.load (value : Value F) : Option (BlobEntry D) := do
  let entry ← BundleEntry.load value
  if h : entry.size ≤ maxBlobBytes ∧ entry.path = blobPath (Sha256.hex entry.digest) then
    some ⟨entry, h.1, h.2⟩
  else none

def BundleManifest.load (value : Value F) : Option (BundleManifest D) := do
  let bundleFormatVersion ← get? "bundle_format_version" integer? value
  let cassetteFormatVersion ← get? "cassette_format_version" integer? value
  let eventSchemaVersion ← get? "event_schema_version" integer? value
  let runId ← get? "run_id" text? value
  let eventCount ← get? "event_count" natural? value
  let logicalRunDigest ← get? "logical_run_digest" digest? value
  let events ← get? "events" BundleEntry.load value
  let blobs ← get? "blobs" (list? BlobEntry.load) value
  if h : eventCount ≤ maxEvents ∧ blobs.length ≤ maxEntries - 2 then
    some ⟨bundleFormatVersion, cassetteFormatVersion, eventSchemaVersion, runId, eventCount,
      logicalRunDigest, events, blobs, h.1, h.2⟩
  else none

/-- An entry of the manifest loads as itself. -/
theorem bundleEntry_loads : Loads (BundleEntry.load (F := F) (D := D)) BundleEntry.dump := by
  refine ⟨fun entry => ?_, by simp [BundleEntry.load, get?, Json.field]⟩
  simp [BundleEntry.load, BundleEntry.dump, get_record, text_loads.dumped, digest_loads.dumped,
    natural_loads.dumped]

/-- The entry of a blob loads as itself. -/
theorem blobEntry_loads :
    Loads (BlobEntry.load (F := F) (D := D)) fun blob => blob.toBundleEntry.dump := by
  refine ⟨fun blob => ?_, by rw [BlobEntry.load, bundleEntry_loads.null]; rfl⟩
  rw [BlobEntry.load, bundleEntry_loads.dumped, Option.bind_eq_bind, Option.bind_some,
    dif_pos ⟨blob.bound, blob.canonicalPath⟩]

/-- A manifest loads as itself, field by field. -/
theorem manifest_load (manifest : BundleManifest D) :
    BundleManifest.load ((manifest.dump : Value F).canon lessCodePoints) = some manifest := by
  have hbounds : manifest.eventCount ≤ maxEvents ∧ manifest.blobs.length ≤ maxEntries - 2 :=
    ⟨manifest.countBound, manifest.blobsBound⟩
  simp [BundleManifest.load, BundleManifest.dump, get_record, integer_loads.dumped,
    text_loads.dumped, natural_loads.dumped, digest_loads.dumped, bundleEntry_loads.dumped,
    (list_loads blobEntry_loads).dumped, hbounds]

/-- A dump that is followed by a line feed is loaded back. -/
theorem load_canonicalJsonBytes [Python F] (manifest : BundleManifest D) :
    ((Utf8.decode none (canonicalJsonBytes F manifest)).bind loads).bind
      (BundleManifest.load (F := F)) = some manifest := by
  have hload : loads (canonicalJson (F := F) manifest.dump ++ ['\n']) =
      some ((manifest.dump : Value F).canon lessCodePoints) :=
    loads_canonicalJson_space _ (show skip ['\n'] = [] from rfl)
      (by rintro c hc; cases hc; decide)
  rw [canonicalJsonBytes, Utf8.decode_encode, Option.bind_some, hload, Option.bind_some,
    manifest_load]

/-- The strict validator, which takes no more than the fields. -/
@[reducible] def strictManifest [Python F] : ManifestJson F D where
  read data := ((Utf8.decode none data).bind loads).bind (BundleManifest.load (F := F))
  read_write := load_canonicalJsonBytes

instance : ManifestJson Decimal HexDigest := strictManifest

end Tracewake.Bundles
