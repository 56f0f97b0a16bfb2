import Tracewake.Recording.Dump

/-!
# The store

Runs and events live in two tables, blobs in a directory under their digests. An event
row holds canonical JSON and the JSON of its `meta`; `events` reads the rows back. The
column `canonical_json` alone decides what is read: the other columns of the table are
copies for queries and are left out.
-/

namespace Tracewake.Recording

open JsonText
open Results (lessCodePoints keyOrder)

variable {F D : Type}

/-- The status of a run. -/
inductive RunStatus where
  | running | ok | error
  deriving DecidableEq

/-- `EVENT_SCHEMA_VERSION`. -/
def eventSchemaVersion : ℤ := 3

/-- `RunHeader`. -/
structure RunHeader (F : Type) where
  runId : Text
  name : Text
  startedAt : F
  finishedAt : Option F := none
  status : RunStatus
  schemaVersion : ℤ := eventSchemaVersion
  models : List ModelIdentity := []
  command : Option (List Text) := none
  redacted : Bool := true
  taskId : Option Text := none
  deriving DecidableEq

/-- A row of `events`. -/
structure EventRow where
  runId : Text
  seq : ℤ
  canonicalJson : Text
  metaJson : Text
  deriving DecidableEq

/-- The database and the blob directory. A run row holds the columns of its header. -/
structure Store (F D : Type) where
  runs : List (RunHeader F) := []
  rows : List EventRow := []
  blobs : D → Option (List UInt8) := fun _ => none

namespace Store

variable [Python F] [Sha256 D] [Pydantic F D]

/-! ## Events -/

/-- The row of an event. -/
def row (D : Type) [Sha256 D] [Pydantic F D] (runId : Text) (seq : ℤ) (event : Event F D) :
    EventRow where
  runId := runId
  seq := seq
  canonicalJson := event.canonicalText
  metaJson := Pydantic.metaJson D event.eventMeta

/-- The rows of a run. -/
def rowsOf (store : Store F D) (runId : Text) : List EventRow :=
  store.rows.filter fun row => row.runId = runId

/-- `COALESCE(MAX(seq), -1) + 1`. -/
def nextSeq (store : Store F D) (runId : Text) : ℤ :=
  (store.rowsOf runId).foldl (fun seq row => max seq row.seq) (-1) + 1

/-- `append`. -/
def append (store : Store F D) (runId : Text) (event : Event F D) : Store F D :=
  { store with rows := store.rows ++ [row D runId (store.nextSeq runId) event] }

/-- The event that a row holds. -/
def readRow (D : Type) [Sha256 D] [Pydantic F D] (row : EventRow) : Option (StoredEvent F D) := do
  let data ← loads (F := F) row.canonicalJson
  let value ← loads row.metaJson
  match data with
  | .obj fields =>
    let event ← Pydantic.validate (.obj (assign "meta" value fields))
    return ⟨row.runId, row.seq, event⟩
  | _ => none

/-- `ORDER BY seq`. -/
def inOrder (rows : List EventRow) : List EventRow :=
  rows.mergeSort fun a b => decide (a.seq ≤ b.seq)

/-- `events`. -/
def events (store : Store F D) (runId : Text) : Option (List (StoredEvent F D)) :=
  (inOrder (store.rowsOf runId)).mapM (readRow D)

/-- A row is read back to the event it was written for. -/
theorem readRow_row (runId : Text) (seq : ℤ) (event : Event F D) :
    readRow D (row D runId seq event) = some ⟨runId, seq, event⟩ := by
  have hvalid : Pydantic.validate (D := D) (.obj (assign "meta"
      (event.eventMeta.dump.canon lessCodePoints) (dictionary event.fields))) = some event := by
    rw [assign_dictionary, ← record_canon]
    exact Pydantic.validate_dumpAll event
  simp only [readRow, row, Event.canonicalText, loads_canonicalJson, Pydantic.loads_metaJson,
    Event.dump, record_canon, Option.bind_eq_bind, Option.bind_some, hvalid]
  rfl

/-! ## Blobs -/

/-- `blobs.put`. -/
def put [DecidableEq D] (store : Store F D) (data : List UInt8) : BlobRef D × Store F D :=
  let digest := Sha256.hash data
  let store :=
    if (store.blobs digest).isSome then store
    else { store with blobs := Function.update store.blobs digest (some data) }
  (⟨digest, data.length⟩, store)

/-- Why `blobs.get` fails. -/
inductive BlobError (D : Type) where
  | missing (digest : D)
  | corrupted (expected actual : D)
  deriving DecidableEq

/-- `blobs.get`. -/
def get [DecidableEq D] (store : Store F D) (digest : D) : Except (BlobError D) (List UInt8) :=
  match store.blobs digest with
  | none => .error (.missing digest)
  | some data =>
    let actual := Sha256.hash data
    if actual = digest then .ok data else .error (.corrupted digest actual)

/-- Every blob has the digest that it is stored under. -/
def Intact (store : Store F D) : Prop :=
  ∀ digest data, store.blobs digest = some data → Sha256.hash data = digest

end Store

end Tracewake.Recording
