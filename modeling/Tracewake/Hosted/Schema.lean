import Tracewake.ReadCommitted.System
import Tracewake.Hosted.Identity

/-!
# The hosted schema

The tables of the control plane's database and the changes its statements make to
one row. A row is found by its primary key. Unique indexes over other columns are
rows of their own, which an `INSERT` takes together with the table row.
-/

namespace Tracewake.Hosted

open ReadCommitted

/-- Database time in microseconds. -/
abbrev Timestamp := ℤ

/-- An interval of whole seconds. -/
def seconds (n : ℤ) : Timestamp := n * 1000000

/-- An interval of whole days. -/
def days (n : ℤ) : Timestamp := seconds (n * 86400)

/-- `ingestion_state`. -/
inductive RunState
  | pending
  | validating
  | ready
  | invalid
  | deleted
  deriving DecidableEq

/-- `job_operation`. -/
inductive Operation
  | validate
  | diff
  | localize
  | otlp
  | pprof
  deriving DecidableEq

/-- `job_state`. -/
inductive JobState
  | queued
  | running
  | retryWait
  | succeeded
  | failed
  | cancelled
  deriving DecidableEq

/-- `attempt_state`. -/
inductive AttemptState
  | running
  | succeeded
  | failed
  | fenced
  | cancelled
  deriving DecidableEq

/-- `artifact_kind`. -/
inductive ArtifactKind
  | validationJSON
  | diffJSON
  | diffHTML
  | localizeResultJSON
  | localizeJSON
  | otlpResultJSON
  | otlpJSON
  | pprofResultJSON
  | pprof
  deriving DecidableEq

/-- The label of an operation in requests and payloads. -/
def Operation.text : Operation → String
  | .validate => "validate"
  | .diff => "diff"
  | .localize => "localize"
  | .otlp => "otlp"
  | .pprof => "pprof"

/-- The label of a job state in replies. -/
def JobState.text : JobState → String
  | .queued => "queued"
  | .running => "running"
  | .retryWait => "retry_wait"
  | .succeeded => "succeeded"
  | .failed => "failed"
  | .cancelled => "cancelled"

/-- The label of an artifact kind, which is also the last part of its object key. -/
def ArtifactKind.text : ArtifactKind → String
  | .validationJSON => "validation_json"
  | .diffJSON => "diff_json"
  | .diffHTML => "diff_html"
  | .localizeResultJSON => "localize_result_json"
  | .localizeJSON => "localize_json"
  | .otlpResultJSON => "otlp_result_json"
  | .otlpJSON => "otlp_json"
  | .pprofResultJSON => "pprof_result_json"
  | .pprof => "pprof"

/-- A job in one of these states never runs again. -/
def JobState.terminal : JobState → Bool
  | .succeeded | .failed | .cancelled => true
  | .queued | .running | .retryWait => false

/-- The state that the claim, the attempt check and the result check require of an
operation's input runs. -/
def Operation.inputState : Operation → RunState
  | .validate => .validating
  | _ => .ready

/-- `runs`. -/
structure RunRow where
  workspace : Uuid
  state : RunState
  declaredBundleFormat : ℤ
  declaredBundleDigest : String
  declaredBundleSize : ℤ
  bundleObjectKey : String
  bundleObjectVersion : Option String
  validatedBundleFormat : Option ℤ
  cassetteFormatVersion : Option ℤ
  eventSchemaVersion : Option ℤ
  logicalRunDigest : Option String
  eventCount : Option ℤ
  failureCode : Option String
  failureMessage : Option String
  createdAt : Timestamp
  uploadedAt : Option Timestamp
  readyAt : Option Timestamp
  retentionExpiresAt : Timestamp
  deletedAt : Option Timestamp
  rowVersion : ℤ

/-- `job_inputs`. -/
structure InputRow where
  workspace : Uuid
  operation : Operation
  runA : Uuid
  runB : Option Uuid
  analysisProfile : Option String
  normalizedDigest : String
  createdAt : Timestamp

/-- `jobs`. -/
structure JobRow where
  workspace : Uuid
  input : Uuid
  state : JobState
  currentAttemptNumber : Option ℤ
  retryAt : Option Timestamp
  cancelRequestedAt : Option Timestamp
  terminalAt : Option Timestamp
  failureCode : Option String
  failureMessage : Option String
  resultArtifactID : Option Uuid
  resultDigest : Option String
  resultSize : Option ℤ
  resultSchemaName : Option String
  resultSchemaVersion : Option ℤ
  createdAt : Timestamp
  updatedAt : Timestamp
  rowVersion : ℤ

/-- `job_attempts`. -/
structure AttemptRow where
  worker : Uuid
  state : AttemptState
  tokenVerifier : List UInt8
  tokenPepperVersion : ℤ
  leaseExpiresAt : Timestamp
  startedAt : Timestamp
  heartbeatAt : Timestamp
  finishedAt : Option Timestamp
  failureCode : Option String
  failureMessage : Option String

/-- `artifacts`. The job and the kind are in the key. -/
structure ArtifactRow where
  id : Uuid
  workspace : Uuid
  attemptNumber : ℤ
  objectKey : String
  objectVersion : String
  digest : String
  size : ℤ
  mediaType : String
  schemaName : Option String
  schemaVersion : Option ℤ
  authoritative : Bool
  createdAt : Timestamp
  retentionExpiresAt : Timestamp

/-- `progress_snapshots`. -/
structure ProgressRow where
  attemptNumber : ℤ
  sequence : ℤ
  stage : String
  message : String
  updatedAt : Timestamp

/-- The payload of a job notification. -/
structure NotificationPayload where
  protocolVersion : ℤ
  jobID : String
  jobVersion : ℤ
  operation : String
  deriving DecidableEq

/-- `outbox`. The aggregate and its version are in the key. -/
structure OutboxRow where
  id : ℕ
  payload : NotificationPayload
  availableAt : Timestamp
  publishedAt : Option Timestamp
  publishAttempts : ℕ
  createdAt : Timestamp

/-- `idempotency_records` of the operation `create_job`. -/
structure IdempotencyRow where
  requestDigest : String
  responseID : Uuid
  createdAt : Timestamp
  expiresAt : Timestamp

/-- The aggregate an audit record is about. -/
inductive Aggregate
  | job (id : Uuid)
  | run (id : Uuid)
  deriving DecidableEq

/-- The payload of an audit record: the members that the statements write. -/
structure AuditPayload where
  state : Option String := none
  attempt : Option ℤ := none
  failureCode : Option String := none
  delay : Option String := none
  artifactID : Option String := none
  deriving DecidableEq

/-- `audit_records`. -/
structure AuditRow where
  workspace : Uuid
  aggregate : Aggregate
  eventType : String
  actorType : String
  actorID : Option Uuid
  payload : AuditPayload
  createdAt : Timestamp
  retentionExpiresAt : Timestamp

/-- The rows and the unique-index entries of the database. -/
inductive Key
  | run (id : Uuid)
  /-- `runs_workspace_active_digest_idx`. -/
  | activeDigest (workspace : Uuid) (digest : String)
  | input (id : Uuid)
  /-- `UNIQUE (workspace_id, normalized_digest)` of `job_inputs`. -/
  | inputDigest (workspace : Uuid) (digest : String)
  | job (id : Uuid)
  | attempt (job : Uuid) (number : ℤ)
  /-- `artifacts_one_authoritative_kind_idx`: every row inserted is authoritative. -/
  | artifact (job : Uuid) (kind : ArtifactKind)
  /-- The primary key of `artifacts`. -/
  | artifactID (id : Uuid)
  | progress (job : Uuid)
  /-- `UNIQUE (aggregate_type, aggregate_id, aggregate_version, topic)` of `outbox`. -/
  | outbox (job : Uuid) (version : ℤ)
  | idempotency (workspace : Uuid) (key : String)
  | audit (id : ℕ)
  deriving DecidableEq

/-- The row type of each table. An index entry holds the row it points to. -/
abbrev Row : Key → Type
  | .run _ => RunRow
  | .activeDigest _ _ => Uuid
  | .input _ => InputRow
  | .inputDigest _ _ => Uuid
  | .job _ => JobRow
  | .attempt _ _ => AttemptRow
  | .artifact _ _ => ArtifactRow
  | .artifactID _ => Unit
  | .progress _ => ProgressRow
  | .outbox _ _ => OutboxRow
  | .idempotency _ _ => IdempotencyRow
  | .audit _ => AuditRow

/-- The committed rows, or what one transaction sees of them. -/
abbrev Store := AList Row

namespace Store

/-- `runs` by id. -/
def run (store : Store) (id : Uuid) : Option RunRow := store.lookup (.run id)
/-- `job_inputs` by id. -/
def input (store : Store) (id : Uuid) : Option InputRow := store.lookup (.input id)
/-- `jobs` by id. -/
def job (store : Store) (id : Uuid) : Option JobRow := store.lookup (.job id)
/-- `job_attempts` by job and number. -/
def attempt (store : Store) (job : Uuid) (n : ℤ) : Option AttemptRow :=
  store.lookup (.attempt job n)
/-- `artifacts` by job and kind. -/
def artifact (store : Store) (job : Uuid) (kind : ArtifactKind) : Option ArtifactRow :=
  store.lookup (.artifact job kind)
/-- `progress_snapshots` by job. -/
def progress (store : Store) (job : Uuid) : Option ProgressRow := store.lookup (.progress job)
/-- `outbox` by job and version. -/
def outbox (store : Store) (job : Uuid) (version : ℤ) : Option OutboxRow :=
  store.lookup (.outbox job version)
/-- `idempotency_records` by workspace and key. -/
def idempotency (store : Store) (workspace : Uuid) (key : String) : Option IdempotencyRow :=
  store.lookup (.idempotency workspace key)

/-- The input row of a job, as in `JOIN job_inputs i ON i.id=j.input_id`. -/
def jobInput (store : Store) (row : JobRow) : Option InputRow := store.input row.input

/-- Scan one table: the indices of its rows in storage order. -/
def scan {ι : Type} (store : Store) (table : Key → Option ι) : List ι :=
  store.keys.filterMap table

/-- The ids of all runs. -/
def runs (store : Store) : List Uuid :=
  store.scan fun | .run id => some id | _ => none
/-- The ids of all jobs. -/
def jobs (store : Store) : List Uuid :=
  store.scan fun | .job id => some id | _ => none
/-- The keys of all attempts. -/
def attempts (store : Store) : List (Uuid × ℤ) :=
  store.scan fun | .attempt job n => some (job, n) | _ => none
/-- The keys of all artifacts. -/
def artifacts (store : Store) : List (Uuid × ArtifactKind) :=
  store.scan fun | .artifact job kind => some (job, kind) | _ => none
/-- The keys of all outbox rows. -/
def outboxes (store : Store) : List (Uuid × ℤ) :=
  store.scan fun | .outbox job version => some (job, version) | _ => none
/-- The keys of all idempotency records. -/
def idempotencies (store : Store) : List (Uuid × String) :=
  store.scan fun | .idempotency workspace key => some (workspace, key) | _ => none
/-- The ids of all audit records. -/
def audits (store : Store) : List ℕ :=
  store.scan fun | .audit id => some id | _ => none

end Store

/-- The input runs of a job, the first one first. -/
def InputRow.runs (row : InputRow) : List Uuid := row.runA :: row.runB.toList

namespace RunRow

/-- `INSERT INTO runs`. -/
def create (workspace : Uuid) (digest : String) (size : ℤ) (key : String) (now : Timestamp) :
    RunRow where
  workspace := workspace
  state := .pending
  declaredBundleFormat := 1
  declaredBundleDigest := digest
  declaredBundleSize := size
  bundleObjectKey := key
  bundleObjectVersion := none
  validatedBundleFormat := none
  cassetteFormatVersion := none
  eventSchemaVersion := none
  logicalRunDigest := none
  eventCount := none
  failureCode := none
  failureMessage := none
  createdAt := now
  uploadedAt := none
  readyAt := none
  retentionExpiresAt := now + days 90
  deletedAt := none
  rowVersion := 1

/-- The bundle has arrived and waits for its validation job. -/
def upload (row : RunRow) (now : Timestamp) (version : String) : RunRow :=
  { row with
    state := .validating
    bundleObjectVersion := some version
    uploadedAt := some now
    rowVersion := row.rowVersion + 1 }

/-- The validation job has succeeded. -/
def ready (row : RunRow) (now : Timestamp) (bundleFormat cassetteFormat eventSchema : ℤ)
    (logicalDigest : String) (eventCount : ℤ) : RunRow :=
  { row with
    state := .ready
    validatedBundleFormat := some bundleFormat
    cassetteFormatVersion := some cassetteFormat
    eventSchemaVersion := some eventSchema
    logicalRunDigest := some logicalDigest
    eventCount := some eventCount
    readyAt := some now
    rowVersion := row.rowVersion + 1 }

/-- The validation job has failed for good. -/
def invalidate (row : RunRow) (code message : String) : RunRow :=
  { row with
    state := .invalid
    failureCode := some code
    failureMessage := some message
    rowVersion := row.rowVersion + 1 }

/-- The run's retention has passed. -/
def expire (row : RunRow) (now : Timestamp) : RunRow :=
  { row with state := .deleted, deletedAt := some now, rowVersion := row.rowVersion + 1 }

/-- The tenant has deleted the run. -/
def delete (row : RunRow) (now : Timestamp) : RunRow :=
  { row with
    state := .deleted
    retentionExpiresAt := now
    deletedAt := some now
    rowVersion := row.rowVersion + 1 }

end RunRow

namespace JobRow

/-- `INSERT INTO jobs`. -/
def create (workspace input : Uuid) (now : Timestamp) : JobRow where
  workspace := workspace
  input := input
  state := .queued
  currentAttemptNumber := none
  retryAt := none
  cancelRequestedAt := none
  terminalAt := none
  failureCode := none
  failureMessage := none
  resultArtifactID := none
  resultDigest := none
  resultSize := none
  resultSchemaName := none
  resultSchemaVersion := none
  createdAt := now
  updatedAt := now
  rowVersion := 1

/-- An attempt begins. -/
def claim (row : JobRow) (now : Timestamp) (n : ℤ) : JobRow :=
  { row with
    state := .running
    currentAttemptNumber := some n
    retryAt := none
    updatedAt := now
    rowVersion := row.rowVersion + 1 }

/-- The current attempt is over and another one may follow after a delay. -/
def retry (row : JobRow) (now delay : Timestamp) : JobRow :=
  { row with
    state := .retryWait
    currentAttemptNumber := none
    retryAt := some (now + delay)
    updatedAt := now
    rowVersion := row.rowVersion + 1 }

/-- The job has failed for good. -/
def fail (row : JobRow) (now : Timestamp) (code message : String) : JobRow :=
  { row with
    state := .failed
    terminalAt := some now
    failureCode := some code
    failureMessage := some message
    updatedAt := now
    rowVersion := row.rowVersion + 1 }

/-- A result is committed. -/
def succeed (row : JobRow) (now : Timestamp) (artifact : Uuid) (digest : String) (size : ℤ)
    (schemaName : String) (schemaVersion : ℤ) : JobRow :=
  { row with
    state := .succeeded
    terminalAt := some now
    resultArtifactID := some artifact
    resultDigest := some digest
    resultSize := some size
    resultSchemaName := some schemaName
    resultSchemaVersion := some schemaVersion
    updatedAt := now
    rowVersion := row.rowVersion + 1 }

/-- The tenant asks for cancellation. -/
def requestCancel (row : JobRow) (now : Timestamp) : JobRow :=
  { row with
    cancelRequestedAt := some (row.cancelRequestedAt.getD now)
    rowVersion := row.rowVersion + 1 }

/-- The job is cancelled as the tenant asked. -/
def cancel (row : JobRow) (now : Timestamp) : JobRow :=
  { row with
    state := .cancelled
    terminalAt := some now
    retryAt := none
    updatedAt := now
    rowVersion := row.rowVersion + 1 }

/-- The job is cancelled because an input run is gone. -/
def cancelDerived (row : JobRow) (now : Timestamp) : JobRow :=
  { row with
    state := .cancelled
    cancelRequestedAt := some (row.cancelRequestedAt.getD now)
    terminalAt := some now
    retryAt := none
    updatedAt := now
    rowVersion := row.rowVersion + 1 }

/-- A due retry is queued again. -/
def requeue (row : JobRow) (now : Timestamp) : JobRow :=
  { row with
    state := .queued
    retryAt := none
    updatedAt := now
    rowVersion := row.rowVersion + 1 }

/-- A stranded job is announced again. -/
def republish (row : JobRow) (now : Timestamp) : JobRow :=
  { row with rowVersion := row.rowVersion + 1, updatedAt := now }

end JobRow

namespace AttemptRow

/-- `INSERT INTO job_attempts`. -/
def start (worker : Uuid) (verifier : List UInt8) (pepperVersion : ℤ)
    (lease now : Timestamp) : AttemptRow where
  worker := worker
  state := .running
  tokenVerifier := verifier
  tokenPepperVersion := pepperVersion
  leaseExpiresAt := lease
  startedAt := now
  heartbeatAt := now
  finishedAt := none
  failureCode := none
  failureMessage := none

/-- The worker renews its lease. -/
def beat (row : AttemptRow) (now : Timestamp) : AttemptRow :=
  { row with heartbeatAt := now, leaseExpiresAt := now + seconds 60 }

/-- The attempt ends with a failure and in the given state. -/
def finish (row : AttemptRow) (state : AttemptState) (now : Timestamp) (code message : String) :
    AttemptRow :=
  { row with
    state := state
    finishedAt := some now
    failureCode := some code
    failureMessage := some message }

/-- The attempt has committed its result. -/
def succeed (row : AttemptRow) (now : Timestamp) : AttemptRow :=
  { row with state := .succeeded, finishedAt := some now }

/-- The attempt is cancelled. -/
def cancel (row : AttemptRow) (now : Timestamp) : AttemptRow :=
  { row with state := .cancelled, finishedAt := some now }

end AttemptRow

/-- The artifact's bytes are no longer retained. -/
def ArtifactRow.expire (row : ArtifactRow) (now : Timestamp) : ArtifactRow :=
  { row with retentionExpiresAt := now }

/-- The notification has been sent. -/
def OutboxRow.publish (row : OutboxRow) (now : Timestamp) : OutboxRow :=
  { row with publishedAt := some now, publishAttempts := row.publishAttempts + 1 }

/-- The worker has the notification. -/
def OutboxRow.acknowledge (row : OutboxRow) (now : Timestamp) : OutboxRow :=
  { row with
    publishedAt := some (row.publishedAt.getD now)
    publishAttempts := row.publishAttempts + 1 }

end Tracewake.Hosted
