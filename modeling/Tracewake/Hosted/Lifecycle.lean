import Tracewake.Hosted.Service

/-!
# Uploads, jobs and claims

The transactions that create work: a run is declared and its bundle arrives, a job
is requested under an idempotency key, and a worker claims a queued job.
-/

namespace Tracewake.Hosted

open ReadCommitted

/-- `JobRequest`. -/
structure JobRequest where
  operation : String
  runIDs : List String
  profile : Option String
  deriving DecidableEq

/-- `Job`. -/
structure Job where
  id : Uuid
  state : JobState
  attempt : Option ℤ
  deriving DecidableEq

/-- `Upload`. -/
structure Upload where
  runID : Uuid
  key : String
  digest : String
  size : ℤ
  state : Option RunState
  version : Option String
  deriving DecidableEq

/-- `InputArtifact`. -/
structure InputArtifact where
  artifactID : Uuid
  objectKey : String
  objectVersion : String
  digest : String
  size : ℤ
  mediaType : String
  deriving DecidableEq

/-- `Claim`. -/
structure Claim where
  jobID : String
  attempt : ℤ
  attemptToken : String
  leaseExpires : Timestamp
  operation : Operation
  profile : Option String
  inputs : List InputArtifact
  deriving DecidableEq

/-- `INSERT INTO runs` unless an undeleted run has the digest. The entry of a deleted
run is free, and a run that someone is changing is waited for. -/
def insertRun (runID : Uuid) (row : RunRow) : Tx Bool :=
  .lock .exclusive (.activeDigest row.workspace row.declaredBundleDigest) fun holder =>
    match holder with
    | none => take
    | some holder => .lock .share (.run holder) fun (held : Option RunRow) =>
        if held.any (·.state ≠ .deleted) then .pure false else take
where
  /-- The row together with its entry in the digest index. -/
  take : Tx Bool :=
    .write (.activeDigest row.workspace row.declaredBundleDigest) (some runID) (do
      insertInto "create upload" "runs_pkey" (.run runID) row
      .pure true)

/-- The pending run that another upload of the same bundle may continue. -/
def pendingUpload (workspace : Uuid) (digest : String) (size : ℤ) (store : Store) :
    Option Upload :=
  store.runs.findSome? fun id =>
    ((store.run id).filter fun row => row.workspace = workspace &&
      row.declaredBundleDigest = digest && row.declaredBundleSize = size &&
      row.state = .pending).map fun row =>
        { runID := id
          key := row.bundleObjectKey
          digest := row.declaredBundleDigest
          size := row.declaredBundleSize
          state := some row.state
          version := row.bundleObjectVersion }

/-- `CreateUpload`. -/
def createUpload (workspace : Uuid) (digest : String) (size : ℤ) (random : BitVec 128)
    (now : Timestamp) : Tx Upload := do
  require (validDigest digest && 0 ≤ size && size ≤ 256 * 1024 * 1024)
    (.invalidRequest "upload declaration is invalid")
  let runID := newID random
  let key := "workspaces/" ++ workspace.text ++ "/runs/" ++ runID.text ++ "/bundle.tar"
  let inserted ← insertRun runID (RunRow.create workspace digest size key now)
  if inserted then
    .pure { runID, key, digest, size, state := none, version := none }
  else do
    let existing ← Program.select (pendingUpload workspace digest size)
    match existing with
    | none => .fail .conflict
    | some upload => .pure upload

/-- The JSON array of run identities that a job request is hashed with. The
identities and the other texts of a valid request need no escaping. -/
def marshalRunIDs (runIDs : List String) : String :=
  "[" ++ ",".intercalate (runIDs.map fun id => "\"" ++ id ++ "\"") ++ "]"

/-- `json.Marshal` of a valid job request. -/
def marshalJobRequest (request : JobRequest) : String :=
  "\x7b\"operation\":\"" ++ request.operation ++ "\",\"run_ids\":" ++
    marshalRunIDs request.runIDs ++ ",\"profile\":" ++
    (match request.profile with
      | none => "null"
      | some profile => "\"" ++ profile ++ "\"") ++ "\x7d"

/-- `analysisOperations`: the operation a name stands for, the profile it must
name, and how many runs it consumes. -/
def analysisOperations : String → Option (Operation × Option String × ℕ)
  | "diff" => some (.diff, some "align-v2", 2)
  | "localize" => some (.localize, some "localize-v1", 1)
  | "otlp" => some (.otlp, none, 1)
  | "pprof" => some (.pprof, none, 1)
  | _ => none

/-- How many inputs a claim of an operation must find. -/
def expectedInputs : Operation → ℕ
  | .diff => 2
  | _ => 1

/-- `normalizedDigest`, with the operation that the request names. -/
def normalizedDigest (s : Service) (request : JobRequest) : Except Err (Operation × String) :=
  match analysisOperations request.operation with
  | none => .error (.unsupported ("job operation \"" ++ request.operation ++ "\""))
  | some (operation, profile, runs) =>
    if request.profile ≠ profile then
      match profile with
      | none => .error (.unsupported (request.operation ++ " does not accept an analysis profile"))
      | some profile =>
        .error (.unsupported (request.operation ++ " requires analysis profile " ++ profile))
    else if request.runIDs.length ≠ runs ∨ "" ∈ request.runIDs ∨ ¬ request.runIDs.Nodup then
      .error (.invalidRequest "job has invalid run identities")
    else .ok (operation, s.hashes.sha256 (marshalJobRequest request))

/-- `normalizedValidationDigest`. -/
def normalizedValidationDigest (s : Service) (runID : String) : String :=
  s.hashes.sha256 ("\x7b\"operation\":\"validate\",\"run_id\":\"" ++ runID ++ "\"\x7d")

/-- `UploadFor`. -/
def uploadFor (workspace : Uuid) (runID : String) (store : Store) : Option Upload :=
  (Uuid.parse runID).bind fun id =>
    ((store.run id).filter fun row => row.workspace = workspace && row.state ≠ .deleted).map
      fun row =>
        { runID := id
          key := row.bundleObjectKey
          digest := row.declaredBundleDigest
          size := row.declaredBundleSize
          state := some row.state
          version := row.bundleObjectVersion }

/-- `CompleteUpload`. -/
def completeUpload (s : Service) (workspace : Uuid) (runID version digest : String) (size : ℤ)
    (randomInput randomJob : BitVec 128) (now : Timestamp) : Tx Unit := do
  let run ← uuidParam "complete upload" runID
  let uploaded ← updateRun run
    (fun row => row.workspace = workspace && row.state = .pending &&
      row.declaredBundleDigest = digest && row.declaredBundleSize = size)
    (fun row => row.upload now version)
  require uploaded.isSome .conflict
  let inputID := newID randomInput
  let jobID := newID randomJob
  let normalized := normalizedValidationDigest s runID
  insertInto "" "job_inputs_pkey" (.input inputID)
    { workspace
      operation := .validate
      runA := run
      runB := none
      analysisProfile := none
      normalizedDigest := normalized
      createdAt := now }
  insertInto "" "job_inputs_workspace_id_normalized_digest_key"
    (.inputDigest workspace normalized) inputID
  insertInto "" "jobs_pkey" (.job jobID) (JobRow.create workspace inputID now)
  notify now "" jobID 1 .validate

/-- `validIdempotencyKey`. -/
def validIdempotencyKey (key : String) : Bool :=
  key.utf8ByteSize ≠ 0 && key.utf8ByteSize ≤ 255 && key.toList.all fun c => '!' ≤ c && c ≤ '~'

/-- `getJob`. -/
def getJob (workspace job : Uuid) : Tx Job := do
  let found ← Program.select fun store : Store =>
    (store.job job).filter (·.workspace = workspace)
  match found with
  | none => .fail .conflict
  | some row => .pure { id := job, state := row.state, attempt := row.currentAttemptNumber }

/-- `SELECT state = 'ready' FROM runs ... FOR SHARE`. -/
def lockReadyRun (workspace : Uuid) (runID : String) : Tx Unit :=
  match Uuid.parse runID with
  | none => .fail .conflict
  | some run => do
    let row ← Program.selectLocked .share (Key.run run)
      (fun _ (row : RunRow) => row.workspace = workspace)
    require (row.any (·.state = .ready)) .conflict

/-- `INSERT INTO job_inputs ... ON CONFLICT DO NOTHING`, or the input that has the
digest already. -/
def normalizedInput (inputID : Uuid) (row : InputRow) : Tx Uuid := do
  require (row.runB ≠ some row.runA)
    (.database "insert job input" (.checkViolation "job_inputs_shape_check"))
  let inserted ← Program.insertRow (Key.inputDigest row.workspace row.normalizedDigest) inputID
  if inserted then do
    insertInto "insert job input" "job_inputs_pkey" (.input inputID) row
    .pure inputID
  else do
    let existing ← Program.select fun store : Store =>
      store.lookup (.inputDigest row.workspace row.normalizedDigest)
    match existing with
    | none => .fail (.database "reuse normalized job input" .noRows)
    | some id => .pure id

/-- The unexpired idempotency record of a key. -/
def unexpiredRecord (workspace : Uuid) (key : String) (now : Timestamp) (store : Store) :
    Option IdempotencyRow :=
  (store.idempotency workspace key).filter fun record => now < record.expiresAt

/-- The part of `CreateJob` that runs when the key has no unexpired record. -/
def createFreshJob (workspace : Uuid) (key : String) (request : JobRequest)
    (operation : Operation) (digest : String) (randomInput randomJob : BitVec 128)
    (now : Timestamp) : Tx Job := do
  Program.forEach (lockReadyRun workspace) request.runIDs
  let runA ← uuidParam "insert job input" (request.runIDs.headD "")
  let runB ← nullableUuidParam "insert job input" request.runIDs.tail.head?
  let input ← normalizedInput (newID randomInput)
    { workspace, operation, runA, runB
      analysisProfile := request.profile
      normalizedDigest := digest
      createdAt := now }
  let jobID := newID randomJob
  insertInto "insert job" "jobs_pkey" (.job jobID) (JobRow.create workspace input now)
  notify now "insert job outbox" jobID 1 operation
  audit now workspace (.job jobID) "job.created" "tenant" none { state := some "queued" }
  insertInto "insert idempotency record" "idempotency_records_pkey" (.idempotency workspace key)
    { requestDigest := digest
      responseID := jobID
      createdAt := now
      expiresAt := now + seconds (24 * 3600) }
  .pure { id := jobID, state := .queued, attempt := none }

/-- `CreateJob`. The flag says whether the job of an earlier request is returned. -/
def createJob (s : Service) (workspace : Uuid) (key : String) (request : JobRequest)
    (randomInput randomJob : BitVec 128) (now : Timestamp) : Tx (Job × Bool) := do
  require (validIdempotencyKey key)
    (.invalidRequest "idempotency key must contain 1 to 255 visible ASCII characters")
  require (request.runIDs.all validID) (.invalidRequest "job has invalid run identities")
  match normalizedDigest s request with
  | .error error => .fail error
  | .ok (operation, digest) => do
    let record ← Program.select (unexpiredRecord workspace key now)
    match record with
    | some record =>
      if record.requestDigest ≠ digest then .fail .idempotencyConflict
      else do
        let job ← getJob workspace record.responseID
        .pure (job, true)
    | none => do
      let job ← createFreshJob workspace key request operation digest randomInput randomJob now
      .pure (job, false)

/-- The numbers of the attempts of a job. -/
def Store.attemptNumbers (store : Store) (job : Uuid) : List ℤ :=
  store.attempts.filterMap fun key => if key.1 = job then some key.2 else none

/-- `COALESCE(max(attempt_number), 0) + 1` over the attempts of a job. -/
def nextAttempt (store : Store) (job : Uuid) : ℤ := (store.attemptNumbers job).foldr max 0 + 1

/-- Lock a job for a claim. The number of the next attempt is computed on the
snapshot of the statement, before any wait for the row. -/
def lockQueuedJob (job : Uuid) : Tx (JobRow × InputRow × ℤ) :=
  .snapshot fun store : Store =>
    match store.job job with
    | none => .fail .conflict
    | some found =>
      if (store.jobInput found).isNone then .fail .conflict
      else .lock .exclusive (.job job) fun row => .lock .exclusive (.input found.input) fun input =>
        match row, input with
        | some row, some input => .pure (row, input, nextAttempt store job)
        | _, _ => .fail .conflict

/-- The rows of a claim's input query: the runs of the job that are in the state its
operation needs, the first run first. -/
def claimInputs (job : Uuid) (store : Store) : List (Uuid × RunRow) :=
  match (store.job job).bind store.jobInput with
  | none => []
  | some input =>
    input.runs.filterMap fun id =>
      ((store.run id).filter (·.state = input.operation.inputState)).map fun row => (id, row)

/-- Scan one input row. The object version must not be NULL. -/
def scanInput (entry : Uuid × RunRow) : Option InputArtifact :=
  entry.2.bundleObjectVersion.map fun version =>
    { artifactID := entry.1
      objectKey := entry.2.bundleObjectKey
      objectVersion := version
      digest := entry.2.declaredBundleDigest
      size := entry.2.declaredBundleSize
      mediaType := "application/x-tar" }

/-- `claim`: start an attempt for a job, at an expected version unless that is 0. -/
def claim (s : Service) (worker : Uuid) (jobID : String) (expectedVersion : ℤ) (token : String)
    (now : Timestamp) : Tx Claim := do
  let job ← uuidParam "lock job" jobID
  let (row, input, next) ← lockQueuedJob job
  require (row.state = .queued && next ≤ 3 &&
    (expectedVersion ≤ 0 || expectedVersion = row.rowVersion)) .conflict
  let verifier ← s.newToken token
  let lease := now + seconds 60
  insertInto "insert attempt" "job_attempts_pkey" (.attempt job next)
    (AttemptRow.start worker verifier s.workers.currentVersion lease now)
  let _ ← updateJob job (·.state = .queued) (·.claim now next)
  audit now row.workspace (.job job) "attempt.claimed" "worker" (some worker)
    { attempt := some next }
  let found ← Program.select (claimInputs job)
  match found.mapM scanInput with
  | none => .fail (.database "" .nullScan)
  | some inputs => do
    require (inputs.length = expectedInputs input.operation) .conflict
    .pure
      { jobID, inputs
        attempt := next
        attemptToken := token
        leaseExpires := lease
        operation := input.operation
        profile := input.analysisProfile }

end Tracewake.Hosted
