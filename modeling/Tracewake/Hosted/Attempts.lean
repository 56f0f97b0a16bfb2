import Tracewake.Hosted.Lifecycle

/-!
# Attempts

The transactions of a worker that holds a claim: renewing its lease, reporting
progress, asking for cancellation, failing, and committing a result. Each of them
first checks that the attempt is still the current one of its job.
-/

namespace Tracewake.Hosted

open ReadCommitted

/-- `Progress`. -/
structure Progress where
  sequence : ℤ
  stage : String
  message : String
  deriving DecidableEq

/-- `CompanionArtifact`. -/
structure CompanionArtifact where
  artifactID : String
  kind : String
  objectKey : String
  objectVersion : String
  digest : String
  size : ℤ
  mediaType : String
  schemaName : Option String
  schemaVersion : Option ℤ
  deriving DecidableEq

/-- `Completion`. -/
structure Completion where
  protocolVersion : ℤ
  attemptNumber : ℤ
  artifactID : String
  kind : String
  objectKey : String
  objectVersion : String
  digest : String
  mediaType : String
  schemaName : String
  size : ℤ
  schemaVersion : ℤ
  logicalDigest : String
  bundleDigest : String
  eventCount : ℤ
  bundleFormat : ℤ
  cassetteFormat : ℤ
  eventSchema : ℤ
  companions : List CompanionArtifact
  deriving DecidableEq

/-- `ResultInput`. -/
structure ResultInput where
  runID : String
  objectKey : String
  objectVersion : String
  bundleDigest : String
  logicalDigest : Option String
  bundleFormat : ℤ
  cassetteFormat : Option ℤ
  eventSchema : Option ℤ
  deriving DecidableEq

/-- The companion kind that belongs to a result kind, empty where there is none. -/
def companionOfKind : String → Option String
  | "validation_json" => some ""
  | "diff_json" => some "diff_html"
  | "localize_result_json" => some "localize_json"
  | "otlp_result_json" => some "otlp_json"
  | "pprof_result_json" => some "pprof"
  | _ => none

/-- The media type of a companion kind. -/
def companionMediaType : String → String
  | "diff_html" => "text/html; charset=utf-8"
  | "localize_json" => "application/json"
  | "otlp_json" => "application/json"
  | "pprof" => "application/octet-stream"
  | _ => ""

/-- Whether the length of a text in bytes lies between 1 and a bound. -/
def lengthWithin (value : String) (bound : ℕ) : Bool :=
  1 ≤ value.utf8ByteSize && value.utf8ByteSize ≤ bound

/-- The part of `ValidWorkerRequest` about one companion. -/
def CompanionArtifact.valid (companion : CompanionArtifact) (expectedKind : String) : Bool :=
  companion.kind = expectedKind && validID companion.artifactID &&
    lengthWithin companion.objectKey 512 && lengthWithin companion.objectVersion 256 &&
    validDigest companion.digest && 0 ≤ companion.size && companion.size ≤ 64 * 1024 * 1024 &&
    companion.mediaType = companionMediaType expectedKind &&
    companion.schemaName.isNone && companion.schemaVersion.isNone

/-- `ValidWorkerRequest`. -/
def Completion.validWorkerRequest (result : Completion) (attempt : ℤ) : Bool :=
  result.protocolVersion = 1 && result.attemptNumber = attempt && validID result.artifactID &&
    lengthWithin result.objectKey 512 && lengthWithin result.objectVersion 256 &&
    validDigest result.digest && 0 ≤ result.size && result.size ≤ 64 * 1024 * 1024 &&
    result.mediaType = "application/json" && result.schemaName = "result-envelope" &&
    result.schemaVersion = 1 && 0 ≤ result.eventCount && result.eventCount ≤ 100000 &&
    match companionOfKind result.kind with
    | none => false
    | some "" =>
      result.companions.isEmpty && validDigest result.logicalDigest &&
        validDigest result.bundleDigest && 0 < result.bundleFormat &&
        0 < result.cassetteFormat && 0 < result.eventSchema
    | some expectedCompanion =>
      match result.companions with
      | [companion] =>
        result.logicalDigest = "" && result.bundleDigest = "" && result.eventCount = 0 &&
          result.bundleFormat = 0 && result.cassetteFormat = 0 && result.eventSchema = 0 &&
          companion.valid expectedCompanion
      | _ => false

/-- The run conditions of the attempt check: the first run is in the state the
operation needs, and a second run is ready. -/
def inputsUsable (store : Store) (input : InputRow) : Bool :=
  (store.run input.runA).any (·.state = input.operation.inputState) &&
    match input.runB with
    | none => true
    | some runB => (store.run runB).any (·.state = .ready)

/-- `currentAttempt`: what a worker request is judged against. -/
structure CurrentAttempt where
  job : Uuid
  workspace : Uuid
  operation : Operation

/-- `checkAttempt`. It locks the job, its input and the attempt. The job's current
attempt number is scanned into an integer, so NULL is an error of its own. -/
def checkAttempt (s : Service) (jobID : String) (n : ℤ) (token : String) (now : Timestamp) :
    Tx CurrentAttempt := do
  let job ← uuidParam "read current attempt" jobID
  integerParam "read current attempt" n
  .snapshot fun store : Store =>
    match store.job job with
    | none => .fail .leaseLost
    | some found =>
      match store.jobInput found with
      | none => .fail .leaseLost
      | some foundInput =>
        if (store.attempt job n).any (now < ·.leaseExpiresAt) && inputsUsable store foundInput then
          .lock .exclusive (.job job) fun row => .lock .exclusive (.input found.input) fun input =>
            .lock .exclusive (.attempt job n) fun attempt =>
              match row, input, attempt with
              | some row, some input, some attempt => judge job row input attempt
              | _, _, _ => .fail .leaseLost
        else .fail .leaseLost
where
  /-- Scan the locked rows and compare them with the request. -/
  judge (job : Uuid) (row : JobRow) (input : InputRow) (attempt : AttemptRow) :
      Tx CurrentAttempt :=
    if attempt.leaseExpiresAt ≤ now then .fail .leaseLost
    else match row.currentAttemptNumber with
      | none => .fail (.database "read current attempt" .nullScan)
      | some current =>
        if row.state = .running ∧ attempt.state = .running ∧ current = n ∧
            s.verify attempt.tokenPepperVersion token attempt.tokenVerifier then
          .pure { job, workspace := row.workspace, operation := input.operation }
        else .fail .leaseLost

/-- `Cancellation`. -/
def cancellation (s : Service) (jobID : String) (n : ℤ) (token : String) (now : Timestamp) :
    Tx Bool := do
  let job ← uuidParam "read cancellation state" jobID
  integerParam "read cancellation state" n
  let found ← Program.select fun store : Store =>
    (store.job job).bind fun row => (store.attempt job n).map fun attempt => (row, attempt)
  match found with
  | none => .fail .leaseLost
  | some (row, attempt) =>
    match row.currentAttemptNumber with
    | none => .fail (.database "read cancellation state" .nullScan)
    | some current => do
      require (current = n && s.verify attempt.tokenPepperVersion token attempt.tokenVerifier)
        .leaseLost
      require (row.cancelRequestedAt.isSome ||
        (row.state = .running && attempt.state = .running && now < attempt.leaseExpiresAt))
        .leaseLost
      .pure row.cancelRequestedAt.isSome

/-- `AuthorizeAttempt`. -/
def authorizeAttempt (s : Service) (jobID : String) (n : ℤ) (token : String) (now : Timestamp) :
    Tx Uuid := do
  let current ← checkAttempt s jobID n token now
  .pure current.workspace

/-- `InputArtifact`. -/
def inputArtifact (s : Service) (jobID : String) (n : ℤ) (token artifactID : String)
    (now : Timestamp) : Tx InputArtifact := do
  let current ← checkAttempt s jobID n token now
  let run ← uuidParam "read input artifact" artifactID
  let found ← Program.select fun store : Store =>
    (claimInputs current.job store).find? fun entry => entry.1 = run
  match found with
  | none => .fail .notFound
  | some entry =>
    match scanInput entry with
    | none => .fail (.database "read input artifact" .nullScan)
    | some value => .pure value

/-- The rows of the result-input query: the runs of the job in the job's order. -/
def resultRuns (job : Uuid) (store : Store) : List (Uuid × RunRow) :=
  match (store.job job).bind store.jobInput with
  | none => []
  | some input => input.runs.filterMap fun id => (store.run id).map fun row => (id, row)

/-- Scan one result input. The object version must not be NULL. -/
def scanResultInput (entry : Uuid × RunRow) : Option ResultInput :=
  entry.2.bundleObjectVersion.map fun version =>
    { runID := entry.1.text
      objectKey := entry.2.bundleObjectKey
      objectVersion := version
      bundleDigest := entry.2.declaredBundleDigest
      logicalDigest := entry.2.logicalRunDigest
      bundleFormat := entry.2.validatedBundleFormat.getD entry.2.declaredBundleFormat
      cassetteFormat := entry.2.cassetteFormatVersion
      eventSchema := entry.2.eventSchemaVersion }

/-- `ResultInputs`. -/
def resultInputs (s : Service) (jobID : String) (n : ℤ) (token : String) (now : Timestamp) :
    Tx (List ResultInput) := do
  let current ← checkAttempt s jobID n token now
  let found ← Program.select (resultRuns current.job)
  match found.mapM scanResultInput with
  | none => .fail (.database "" .nullScan)
  | some inputs => .pure inputs

/-- `Heartbeat`. -/
def heartbeat (s : Service) (jobID : String) (n : ℤ) (token : String) (now : Timestamp) :
    Tx Timestamp := do
  let current ← checkAttempt s jobID n token now
  let renewed ← updateAttempt current.job n (fun _ => true) (·.beat now)
  match renewed with
  | none => .fail (.database "" .noRows)
  | some row => .pure row.leaseExpiresAt

/-- `validProgressStage`. -/
def validProgressStage (stage : String) : Bool :=
  stage ∈ ["claiming", "downloading", "validating", "analyzing", "uploading", "committing"]

/-- What to do with a progress report, given the stored snapshot. Sequences are
monotonic within one attempt, and a later attempt supersedes the snapshot. -/
inductive ProgressDecision
  | repeated
  | stale
  | store
  deriving DecidableEq

/-- Compare a progress report with the stored snapshot. -/
def decideProgress (n : ℤ) (progress : Progress) : Option ProgressRow → ProgressDecision
  | none => .store
  | some stored =>
    if stored.attemptNumber = n then
      if progress.sequence = stored.sequence then
        if stored.stage = progress.stage ∧ stored.message = progress.message then .repeated
        else .stale
      else if progress.sequence < stored.sequence then .stale
      else .store
    else if n < stored.attemptNumber then .stale
    else .store

/-- `INSERT INTO progress_snapshots ... ON CONFLICT DO UPDATE`. -/
def upsertProgress (job : Uuid) (row : ProgressRow) : Tx Unit := do
  let inserted ← Program.insertRow (Key.progress job) row
  if inserted then .pure ()
  else .lock .exclusive (.progress job) fun _ => .write (.progress job) (some row) (.pure ())

/-- `UpdateProgress`. -/
def updateProgress (s : Service) (jobID : String) (n : ℤ) (token : String) (progress : Progress)
    (now : Timestamp) : Tx Unit := do
  require (1 ≤ progress.sequence && lengthWithin progress.message 512 &&
    validProgressStage progress.stage) (.invalidRequest "invalid progress")
  let current ← checkAttempt s jobID n token now
  let stored ← Program.select fun store : Store => store.progress current.job
  match decideProgress n progress stored with
  | .repeated => .pure ()
  | .stale => .fail .conflict
  | .store =>
    upsertProgress current.job
      { attemptNumber := n
        sequence := progress.sequence
        stage := progress.stage
        message := progress.message
        updatedAt := now }

/-- The states in which a job may still be cancelled. -/
def JobRow.cancellable (row : JobRow) : Bool :=
  row.state = .queued || row.state = .running || row.state = .retryWait

/-- `UPDATE job_attempts SET state='cancelled' WHERE job_id= AND state='running'`. -/
def cancelAttempts (job : Uuid) (now : Timestamp) : Tx (List ((_ : Uuid × ℤ) × AttemptRow)) :=
  Program.update (fun key : Uuid × ℤ => Key.attempt key.1 key.2)
    (fun store : Store => store.attempts)
    (fun _ key (row : AttemptRow) => key.1 = job && row.state = .running)
    (fun _ row => AttemptRow.cancel row now)

/-- `RequestCancellation`. -/
def requestCancellation (workspace : Uuid) (jobID : String) (now : Timestamp) : Tx Unit := do
  let job ← uuidParam "" jobID
  let requested ← updateJob job (fun row => row.workspace = workspace && row.cancellable)
    (·.requestCancel now)
  match requested with
  | none => .pure ()
  | some _ => do
    let _ ← cancelAttempts job now
    let _ ← updateJob job (·.cancellable) (·.cancel now)
    audit now workspace (.job job) "job.cancelled" "tenant" none {}

/-- The failure codes that a job does not survive. -/
def permanentCodes : List String :=
  ["invalid_bundle", "unsupported_version", "invalid_result", "unauthorized_input", "cancelled"]

/-- The failure codes after which a job may be tried again. -/
def retryableCodes : List String := ["artifact_commit_failed", "transient_dependency", "internal"]

/-- The delay before the next attempt. -/
def backoff (n : ℤ) : Timestamp := if n = 2 then seconds 30 else seconds 5

/-- The run of a job's input. -/
def inputRun (job : Uuid) (store : Store) : List Uuid :=
  (((store.job job).bind store.jobInput).map (·.runA)).toList

/-- `UPDATE runs r SET state='invalid' ... FROM job_inputs i` for the runs that the
join finds. -/
def invalidateRun (find : Store → List Uuid) (code message : String) :
    Tx (List ((_ : Uuid) × RunRow)) :=
  Program.update Key.run find (fun _ _ (row : RunRow) => row.state = .validating)
    (fun _ row => RunRow.invalidate row code message)

/-- `FailAttempt`. The reply is the job's new state. -/
def failAttempt (s : Service) (jobID : String) (n : ℤ) (token code message : String)
    (retryable : Bool) (now : Timestamp) : Tx JobState := do
  require (lengthWithin code 64 && lengthWithin message 512) (.invalidRequest "invalid failure")
  require ((code ∈ permanentCodes || code ∈ retryableCodes) && retryable = (code ∈ retryableCodes))
    (.invalidRequest "failure retryability does not match policy")
  let current ← checkAttempt s jobID n token now
  if retryable ∧ n < 3 then do
    let _ ← updateAttempt current.job n (fun _ => true) (·.finish .fenced now code message)
    let _ ← updateJob current.job (fun _ => true) (·.retry now (backoff n))
    audit now current.workspace (.job current.job) "attempt.failed" "worker" none
      { attempt := some n, failureCode := some code }
    .pure .retryWait
  else do
    let code := if retryable then "retry_exhausted" else code
    let _ ← updateAttempt current.job n (fun _ => true) (·.finish .failed now code message)
    let _ ← updateJob current.job (fun _ => true) (·.fail now code message)
    if current.operation = .validate then do
      let _ ← invalidateRun (inputRun current.job) code message
    audit now current.workspace (.job current.job) "attempt.failed" "worker" none
      { attempt := some n, failureCode := some code }
    .pure .failed

/-- The result kind of each operation. -/
def expectedKind : Operation → ArtifactKind
  | .validate => .validationJSON
  | .diff => .diffJSON
  | .localize => .localizeResultJSON
  | .otlp => .otlpResultJSON
  | .pprof => .pprofResultJSON

/-- The companion kinds of each operation. -/
def expectedCompanions : Operation → List ArtifactKind
  | .validate => []
  | .diff => [.diffHTML]
  | .localize => [.localizeJSON]
  | .otlp => [.otlpJSON]
  | .pprof => [.pprof]

/-- The object key under which an attempt stores its outputs. -/
def attemptPath (workspace : Uuid) (jobID : String) (n : ℤ) : String :=
  "workspaces/" ++ workspace.text ++ "/jobs/" ++ jobID ++ "/attempts/" ++ toString n ++ "/"

/-- The column checks of `artifacts`. -/
def ArtifactRow.admissible (row : ArtifactRow) : Bool :=
  1 ≤ row.objectKey.length && row.objectKey.length ≤ 512 &&
    1 ≤ row.objectVersion.length && row.objectVersion.length ≤ 256 && validDigest row.digest &&
    0 ≤ row.size && row.mediaType.length ≤ 128 && row.schemaName.all (·.length ≤ 64) &&
    row.schemaVersion.all (0 < ·) && row.schemaName.isNone = row.schemaVersion.isNone

/-- `INSERT INTO artifacts`. -/
def registerArtifact (context : String) (job : Uuid) (kind : ArtifactKind) (artifactID : String)
    (row : Uuid → ArtifactRow) : Tx Uuid := do
  let id ← uuidParam context artifactID
  require (row id).admissible (.database context (.checkViolation "artifacts"))
  insertInto context "artifacts_pkey" (.artifactID id) ()
  insertInto context "artifacts_one_authoritative_kind_idx" (.artifact job kind) (row id)
  .pure id

/-- The row of a companion artifact. -/
def CompanionArtifact.row (companion : CompanionArtifact) (workspace : Uuid) (n : ℤ)
    (now : Timestamp) (id : Uuid) : ArtifactRow where
  id := id
  workspace := workspace
  attemptNumber := n
  objectKey := companion.objectKey
  objectVersion := companion.objectVersion
  digest := companion.digest
  size := companion.size
  mediaType := companion.mediaType
  schemaName := companion.schemaName
  schemaVersion := companion.schemaVersion
  authoritative := true
  createdAt := now
  retentionExpiresAt := now + days 90

/-- The row of a result artifact. -/
def Completion.row (result : Completion) (workspace : Uuid) (n : ℤ) (now : Timestamp)
    (id : Uuid) : ArtifactRow where
  id := id
  workspace := workspace
  attemptNumber := n
  objectKey := result.objectKey
  objectVersion := result.objectVersion
  digest := result.digest
  size := result.size
  mediaType := result.mediaType
  schemaName := some result.schemaName
  schemaVersion := some result.schemaVersion
  authoritative := true
  createdAt := now
  retentionExpiresAt := now + days 90

/-- Register one companion under the kind that the operation expects at its place. -/
def registerCompanion (current : CurrentAttempt) (path : String) (n : ℤ) (now : Timestamp)
    (entry : CompanionArtifact × ArtifactKind) : Tx Unit := do
  require (entry.1.artifactID ≠ "" && entry.1.kind = entry.2.text &&
    entry.1.objectKey = path ++ entry.1.kind)
    (.rejected "companion artifact key is outside the current attempt")
  let _ ← registerArtifact "register companion artifact" current.job entry.2 entry.1.artifactID
    (entry.1.row current.workspace n now)

/-- The column checks of a validated run. -/
def Completion.runAdmissible (result : Completion) : Bool :=
  validDigest result.logicalDigest && 0 ≤ result.eventCount && result.eventCount ≤ 100000 &&
    fitsInteger result.bundleFormat && fitsInteger result.cassetteFormat &&
    fitsInteger result.eventSchema

/-- `UPDATE runs r SET state='ready' ... FROM job_inputs i`. -/
def markRunReady (job : Uuid) (result : Completion) (now : Timestamp) : Tx Unit := do
  let updated ← Program.update Key.run (inputRun job)
    (fun _ _ (row : RunRow) =>
      row.state = .validating && row.declaredBundleDigest = result.bundleDigest)
    (fun _ row => RunRow.ready row now result.bundleFormat result.cassetteFormat
      result.eventSchema result.logicalDigest result.eventCount)
  require (updated.length = 1)
    (.rejected "validated bundle digest did not match one validating run")
  require result.runAdmissible (.database "" (.checkViolation "runs"))

/-- `CompleteAttempt`. -/
def completeAttempt (s : Service) (jobID : String) (n : ℤ) (token : String) (result : Completion)
    (random : BitVec 128) (now : Timestamp) : Tx Unit := do
  let current ← checkAttempt s jobID n token now
  let artifactID := if result.artifactID = "" then (newID random).text else result.artifactID
  let kind := expectedKind current.operation
  require (result.kind = kind.text && result.schemaName = "result-envelope" &&
    result.schemaVersion = 1) (.rejected "result schema does not match operation")
  let path := attemptPath current.workspace jobID n
  require (result.objectKey = path ++ result.kind)
    (.rejected "artifact key is outside the current attempt")
  let companions := expectedCompanions current.operation
  require (result.companions.length = companions.length)
    (.rejected "result companion set does not match operation")
  Program.forEach (registerCompanion current path n now) (result.companions.zip companions)
  let artifact ← registerArtifact "register artifact" current.job kind artifactID
    (result.row current.workspace n now)
  if current.operation = .validate then
    markRunReady current.job result now
  let _ ← updateAttempt current.job n (fun _ => true) (·.succeed now)
  let updated ← updateJob current.job
    (fun row => row.state = .running && row.currentAttemptNumber = some n)
    (fun row =>
      row.succeed now artifact result.digest result.size result.schemaName result.schemaVersion)
  require updated.isSome .leaseLost
  audit now current.workspace (.job current.job) "job.succeeded" "worker" none
    { attempt := some n, artifactID := some artifactID }

end Tracewake.Hosted
