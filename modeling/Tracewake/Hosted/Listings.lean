import Mathlib.Data.Prod.Lex
import Tracewake.Calendar.Rfc3339
import Tracewake.Encodings.Base64
import Tracewake.Hosted.Service
import Tracewake.Pagination.Keyset
import Tracewake.Results.Canonical

/-!
# Lists of runs and audit records

The cursor codec and the two lists that are read page by page. A cursor carries the creation
time and the identifier of the last row of a page, together with the list and the workspace
it was made for.
-/

namespace Tracewake.Hosted

open JsonText Calendar Encodings Pagination

/-! ## Cursors -/

/-- A time zone: the minutes by which it is ahead at an instant, less than a day. -/
structure Location where
  offset : ℤ → ℤ
  bounded : ∀ time, (offset time).natAbs < 1440

/-- The offset of UTC is less than a day. -/
theorem utc_bounded (_ : ℤ) : (0 : ℤ).natAbs < 1440 := by decide

/-- `time.UTC`. -/
def Location.utc : Location where
  offset _ := 0
  bounded := utc_bounded

/-- `listCursor`. The time counts nanoseconds. -/
structure ListCursor where
  kind : Text
  workspace : Text
  createdAt : ℤ
  id : Text
  deriving DecidableEq

/-- The time of a `time.Time` that was never set. -/
def zeroTime : ℤ := -62135596800 * nanosPerSecond

/-- A cursor none of whose fields has been set. -/
def ListCursor.zero : ListCursor := ⟨[], [], zeroTime, []⟩

/-- The characters that `json.Marshal` leaves as they are. -/
def isHTMLSafe (c : Char) : Bool :=
  ' ' ≤ c && c ≠ '<' && c ≠ '>' && c ≠ '&' && c ≠ '\u2028' && c ≠ '\u2029'

/-- How `json.Marshal` writes strings. -/
def marshalled : Style Results.Number where
  escape := escapeChar isHTMLSafe
  number := Results.Number.text

/-- `Time.MarshalJSON`, for a database time. -/
def marshalTime (location : Location) (createdAt : Timestamp) : Option Text :=
  formatTime (location.offset (createdAt * 1000)) (createdAt * 1000)

/-- The JSON object of a cursor whose time has been written. -/
def cursorObject (kind workspace time id : Text) : Json Results.Number :=
  .obj [("kind".toList, .str kind), ("workspace".toList, .str workspace),
    ("created_at".toList, .str time), ("id".toList, .str id)]

/-- `encodeListCursor`. Nothing is encoded when the time cannot be written. -/
def encodeListCursor (location : Location) (kind workspace : Text) (createdAt : Timestamp)
    (id : Text) : Text :=
  let raw := (marshalTime location createdAt).map fun time =>
    Utf8.encode ((cursorObject kind workspace time id).print marshalled)
  encodeBase64 (raw.getD [])

/-- `foldName`: names of fields are compared without case. Two characters that are no ASCII
letters fold to one. -/
def foldName (name : Text) : Text :=
  name.map fun c => if c = 'ſ' then 'S' else if c = '\u212a' then 'K' else c.toUpper

/-- A JSON value is stored in a string, which `null` leaves as it is. -/
def storeText (old : Text) : Json Results.Number → Option Text
  | .str text => some text
  | .null => some old
  | _ => none

/-- `Time.UnmarshalJSON`. -/
def storeTime (old : ℤ) : Json Results.Number → Option ℤ
  | .str text => parseTime text
  | .null => some old
  | _ => none

/-- A member of a JSON object is stored in the field of its name, if there is one. -/
def storeField (cursor : ListCursor) (field : Text × Json Results.Number) : Option ListCursor :=
  let name := foldName field.1
  if name = "KIND".toList then
    (storeText cursor.kind field.2).map fun kind => { cursor with kind := kind }
  else if name = "WORKSPACE".toList then
    (storeText cursor.workspace field.2).map fun text => { cursor with workspace := text }
  else if name = "CREATED_AT".toList then
    (storeTime cursor.createdAt field.2).map fun time => { cursor with createdAt := time }
  else if name = "ID".toList then
    (storeText cursor.id field.2).map fun id => { cursor with id := id }
  else some cursor

/-- `json.Unmarshal` into a cursor. -/
def unmarshalCursor (raw : List UInt8) : Option ListCursor := do
  match ← Results.decode raw with
  | .obj fields => fields.foldlM storeField ListCursor.zero
  | .null => some ListCursor.zero
  | _ => none

/-- The error of a cursor that is not accepted. -/
def invalidListCursor : Err := .invalidRequest "invalid list cursor"

/-- `decodeListCursor`. -/
def decodeListCursor (raw kind workspace : Text) : Except Err ListCursor :=
  match (decodeBase64 raw).bind unmarshalCursor with
  | some cursor =>
    if cursor.kind ≠ kind ∨ cursor.workspace ≠ workspace ∨ cursor.createdAt = zeroTime ∨
        cursor.id = [] then .error invalidListCursor
    else .ok cursor
  | none => .error invalidListCursor

/-! ## Views -/

/-- `FailureView`. -/
structure FailureView where
  schemaVersion : ℤ
  code : String
  message : String
  retryable : Bool
  deriving DecidableEq

/-- `failureView`. -/
def failureView (code message : Option String) : Option FailureView := do
  let code ← code
  let message ← message
  return {
    schemaVersion := 1
    code := code
    message := message
    retryable := code = "lease_lost" || code = "artifact_commit_failed" ||
      code = "transient_dependency" || code = "internal" }

/-- `RunView`. -/
structure RunView where
  id : Uuid
  state : RunState
  bundleDigest : String
  bundleFormat : ℤ
  logicalDigest : Option String
  cassetteFormat : Option ℤ
  eventSchema : Option ℤ
  eventCount : Option ℤ
  failure : Option FailureView
  createdAt : Timestamp
  retentionExpires : Timestamp
  readyAt : Option Timestamp
  deriving DecidableEq

/-- `AuditView`. -/
structure AuditView where
  id : ℕ
  aggregate : Aggregate
  eventType : String
  actorType : String
  createdAt : Timestamp
  deriving DecidableEq

/-- The columns that `ListRunPage` selects. -/
def RunRow.view (id : Uuid) (row : RunRow) : RunView where
  id := id
  state := row.state
  bundleDigest := row.declaredBundleDigest
  bundleFormat := row.declaredBundleFormat
  logicalDigest := row.logicalRunDigest
  cassetteFormat := row.cassetteFormatVersion
  eventSchema := row.eventSchemaVersion
  eventCount := row.eventCount
  failure := failureView row.failureCode row.failureMessage
  createdAt := row.createdAt
  retentionExpires := row.retentionExpiresAt
  readyAt := row.readyAt

/-- The columns that `ListAuditPage` selects. -/
def AuditRow.view (id : ℕ) (row : AuditRow) : AuditView where
  id := id
  aggregate := row.aggregate
  eventType := row.eventType
  actorType := row.actorType
  createdAt := row.createdAt

/-- `audit_records` by id. -/
def Store.audit (store : Store) (id : ℕ) : Option AuditRow := store.lookup (.audit id)

/-- `FROM runs WHERE workspace_id=$1 AND state<>'deleted'`. -/
def Store.workspaceRuns (workspace : Uuid) (store : Store) : List RunView :=
  store.runs.filterMap fun id =>
    ((store.run id).filter fun row =>
      row.workspace = workspace && row.state ≠ .deleted).map (RunRow.view id)

/-- `FROM audit_records WHERE workspace_id=$1`. -/
def Store.workspaceAudits (workspace : Uuid) (store : Store) : List AuditView :=
  store.audits.filterMap fun id =>
    ((store.audit id).filter fun row => row.workspace = workspace).map (AuditRow.view id)

/-! ## Pages -/

/-- The place of a row in a list. -/
abbrev Position := ℤ ×ₗ ℕ

/-- What tells one list from another: its name in cursors, the creation time and the identifier
of a row, and how identifiers are written in cursors and read back. -/
structure Listing (View : Type) where
  kind : Text
  createdAt : View → Timestamp
  id : View → ℕ
  writeID : View → Text
  readID : Text → Except Err ℕ

namespace Listing

variable {View : Type} (listing : Listing View)

/-- `(created_at,id)`. -/
def position (row : View) : Position := toLex (listing.createdAt row, listing.id row)

/-- The bound that a cursor sets. The database cuts its time to microseconds. -/
def bound (workspace : Uuid) (cursorValue : Text) : Except Err (WithTop Position) :=
  if cursorValue = [] then .ok ⊤
  else do
    let cursor ← decodeListCursor cursorValue listing.kind workspace.text.toList
    let id ← listing.readID cursor.id
    return (toLex (cursor.createdAt / 1000, id) : Position)

/-- A limit from 1 to 100. -/
def clampLimit (limit : ℤ) : ℕ := if limit < 1 ∨ 100 < limit then 100 else limit.toNat

/-- A page of the rows of a workspace, and the cursor of the next page, which is empty when
there is none. -/
def page (location : Location) (workspace : Uuid) (cursorValue : Text) (limit : ℤ)
    (rows : List View) : Except Err (List View × Text) := do
  let limit := clampLimit limit
  let below ← listing.bound workspace cursorValue
  let result := select listing.position below (limit + 1) rows
  if limit < result.length then
    let items := result.take limit
    return (items, match items.getLast? with
      | some last => encodeListCursor location listing.kind workspace.text.toList
          (listing.createdAt last) (listing.writeID last)
      | none => [])
  else return (result, [])

end Listing

/-- The list of runs. A cursor's identifier that is no UUID is an error of the database. -/
def runListing : Listing RunView where
  kind := "runs".toList
  createdAt := RunView.createdAt
  id := fun row => row.id.toNat
  writeID := fun row => row.id.text.toList
  readID := fun text =>
    match Uuid.parse (String.ofList text) with
    | some id => .ok id.toNat
    | none => .error (.database "" .invalidText)

/-- The list of audit records. -/
def auditListing : Listing AuditView where
  kind := "audit".toList
  createdAt := AuditView.createdAt
  id := AuditView.id
  writeID := fun row => printInt row.id
  readID := fun text =>
    match Results.atoi text with
    | some id => .ok id.toNat
    | none => .error invalidListCursor

/-- `ListRunPage`. -/
def listRunPage (location : Location) (workspace : Uuid) (cursorValue : Text) (limit : ℤ)
    (store : Store) : Except Err (List RunView × Text) :=
  runListing.page location workspace cursorValue limit (store.workspaceRuns workspace)

/-- `ListAuditPage`. -/
def listAuditPage (location : Location) (workspace : Uuid) (cursorValue : Text) (limit : ℤ)
    (store : Store) : Except Err (List AuditView × Text) :=
  auditListing.page location workspace cursorValue limit (store.workspaceAudits workspace)

end Tracewake.Hosted
