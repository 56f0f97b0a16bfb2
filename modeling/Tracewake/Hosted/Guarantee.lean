import Tracewake.ReadCommitted.Rules
import Tracewake.Hosted.Calls
import Tracewake.Hosted.JobMachine

/-!
# What every commit guarantees

The contract between the transactions of the control plane. It says what a commit
may do to each job, each run and each table, and which rows its session has locked
meanwhile. The invariants of the database follow from these guarantees alone.
-/

namespace Tracewake.Hosted

open ReadCommitted

/-- The rows of a job in a store. -/
def jobView (store : Store) (job : Uuid) : JobView where
  job := store.job job
  attempts := store.attempt job
  artifacts := store.artifact job
  progress := store.progress job

/-- The job whose rows a key belongs to. -/
def Key.owner : Key → Option Uuid
  | .job j => some j
  | .attempt j _ => some j
  | .artifact j _ => some j
  | .progress j => some j
  | _ => none

/-- The job is over. -/
def Store.Terminal (store : Store) (job : Uuid) : Prop :=
  ∃ row, store.job job = some row ∧ row.state.terminal = true

/-- The job exists and is not over. -/
def Store.Live (store : Store) (job : Uuid) : Prop :=
  ∃ row, store.job job = some row ∧ row.state.terminal = false

/-- The job has the run among its inputs. -/
def Store.Over (store : Store) (job run : Uuid) : Prop :=
  ∃ row input, store.job job = some row ∧ store.jobInput row = some input ∧ run ∈ input.runs

/-- The job validates the run. -/
def Store.Validates (store : Store) (job run : Uuid) : Prop :=
  ∃ row input, store.job job = some row ∧ store.jobInput row = some input ∧
    input.operation = .validate ∧ run ∈ input.runs

/-- A run as an upload declares it: its bundle has a place under its workspace, and nothing
is there yet. -/
def RunRow.Declared (row : RunRow) : Prop :=
  row.state = .pending ∧ row.bundleObjectVersion = none ∧
    ∃ rest, row.bundleObjectKey = "workspaces/" ++ row.workspace.text ++ "/runs/" ++ rest

/-- One change of a run. -/
inductive RunStep (now : Timestamp) : Option RunRow → Option RunRow → Prop
  | same (run : Option RunRow) : RunStep now run run
  | create (row : RunRow) : row.Declared → RunStep now none (some row)
  | upload (row : RunRow) (version : String) : row.state = .pending →
      RunStep now (some row) (some (row.upload now version))
  | ready (row : RunRow) (bundleFormat cassetteFormat eventSchema : ℤ) (logicalDigest : String)
      (eventCount : ℤ) : row.state = .validating → RunStep now (some row)
        (some (row.ready now bundleFormat cassetteFormat eventSchema logicalDigest eventCount))
  | invalidate (row : RunRow) (code message : String) : row.state = .validating →
      RunStep now (some row) (some (row.invalidate code message))
  | expire (row : RunRow) : row.state ≠ .deleted → row.retentionExpiresAt ≤ now →
      RunStep now (some row) (some (row.expire now))
  | delete (row : RunRow) : row.state ≠ .deleted → RunStep now (some row) (some (row.delete now))

/-- Which of the hazards that the code leaves open the schedule of a run avoids. -/
structure Policy where
  /-- No claim commits for a job while a deletion that covers it is between fencing
  the attempts and its end. -/
  fenced : Prop
  /-- Calls under one idempotency key do not overlap, a record that has expired is swept
  before its key is used again, and random identifiers are new. -/
  keyed : Prop
  /-- No validation job is cancelled on request. -/
  patient : Prop

/-- SHA-256 has no collisions. Where inputs are found again by their digest, the
invariants of their runs rest on this. -/
def Service.CollisionFree (s : Service) : Prop := Function.Injective s.hashes.sha256

/-- An input row that has the digest of a request. -/
def Describes (s : Service) (workspace : Uuid) (digest : String) (input : InputRow) : Prop :=
  input.workspace = workspace ∧
    ((∃ request, normalizedDigest s request = .ok (input.operation, digest) ∧
      request.runIDs.all validID = true ∧
      request.runIDs.map Uuid.parse = input.runs.map some) ∨
    (input.operation = .validate ∧ ∃ runID, digest = normalizedValidationDigest s runID))

/-- A job that a commit inserts: its input exists, and each input run is locked and
in the state that the job needs. -/
structure Created (s : Service) (old new : Store) (σ : Session) (job : Uuid) (row : JobRow)
    (input : InputRow) : Prop where
  absent : old.job job = none
  row_eq : row = JobRow.create input.workspace row.input σ.now
  found : new.jobInput row = some input
  locked : s.CollisionFree → ∀ run ∈ input.runs, σ.locks (.run run) ≠ none
  runs : s.CollisionFree → ∀ run ∈ input.runs, ∃ found, new.run run = some found ∧
    found.workspace = row.workspace ∧ found.state = input.operation.inputState
  pending : s.CollisionFree → input.operation = .validate → ∀ run ∈ input.runs, ∃ found,
    old.run run = some found ∧ found.state = .pending
  notified : ∃ sent, new.outbox job 1 = some sent

/-- What a claim does when it commits. -/
def ClaimEffect (old new : Store) (σ : Session) (jobID : String) (version : ℤ) : Prop :=
  ∃ job row n, Uuid.parse jobID = some job ∧ old.job job = some row ∧ row.state = .queued ∧
    (version ≤ 0 ∨ version = row.rowVersion) ∧ new.job job = some (row.claim σ.now n)

/-- The artifacts that a completion registers under an attempt. -/
structure Registered (old new : Store) (now : Timestamp) (job workspace : Uuid) (jobID : String)
    (n : ℤ) (operation : Operation) (result : Completion) (artifact : Uuid) : Prop where
  kind : result.kind = (expectedKind operation).text
  objectKey : result.objectKey = attemptPath workspace jobID n ++ result.kind
  row : new.artifact job (expectedKind operation) = some (result.row workspace n now artifact)
  length : result.companions.length = (expectedCompanions operation).length
  companions : ∀ entry ∈ result.companions.zip (expectedCompanions operation),
    entry.1.kind = entry.2.text ∧ entry.1.objectKey = attemptPath workspace jobID n ++ entry.1.kind ∧
    ∃ id, Uuid.parse entry.1.artifactID = some id ∧
      new.artifact job entry.2 = some (entry.1.row workspace n now id)
  others : ∀ kind, kind ≠ expectedKind operation → kind ∉ expectedCompanions operation →
    new.artifact job kind = old.artifact job kind

/-- What a completion does when it commits. -/
def CompleteEffect (old new : Store) (σ : Session) (jobID : String) (n : ℤ)
    (result : Completion) : Prop :=
  ∃ job row attempt input artifact, Uuid.parse jobID = some job ∧
    (jobView old job).Running row n attempt ∧ old.jobInput row = some input ∧
    (result.artifactID ≠ "" → Uuid.parse result.artifactID = some artifact) ∧
    new.job job = some (row.succeed σ.now artifact result.digest result.size result.schemaName
      result.schemaVersion) ∧
    Registered old new σ.now job row.workspace jobID n input.operation result artifact ∧
    (input.operation = .validate → ∃ run, old.run input.runA = some run ∧
      run.state = .validating ∧ run.declaredBundleDigest = result.bundleDigest ∧
      new.run input.runA = some (run.ready σ.now result.bundleFormat result.cassetteFormat
        result.eventSchema result.logicalDigest result.eventCount))

/-- What a deletion of a run has done when it commits. -/
def DeleteEffect (s : Service) (new : Store) (σ : Session) (runID : String) : Prop :=
  ∃ run found, Uuid.parse runID = some run ∧ new.run run = some found ∧ found.state = .deleted ∧
    (s.CollisionFree → ∀ job, new.Over job run → new.Terminal job ∧
      ∀ kind artifact, new.artifact job kind = some artifact →
        artifact.retentionExpiresAt ≤ σ.now)

/-- A key's record that is unexpired from the beginning of a call to a moment `clock`. -/
def Session.Remembers (σ : Session) (clock : Timestamp) (workspace : Uuid) (key : String)
    (record : IdempotencyRow) : Prop :=
  σ.before.idempotency workspace key = some record ∧ clock < record.expiresAt

/-- What a job request does when it commits: it returns the job of an earlier request,
or it inserts a job together with the record of its key. -/
def CreateEffect (p : Policy) (s : Service) (old new : Store) (σ : Session) (clock : Timestamp)
    (workspace : Uuid) (key : String) (request : JobRequest) (randomJob : BitVec 128)
    (job : Job) (reused : Bool) : Prop :=
  ∃ operation digest, normalizedDigest s request = .ok (operation, digest) ∧
    if reused then
      (∀ k, new.lookup k = old.lookup k) ∧ (p.keyed → σ.before.idempotency workspace key ≠ none) ∧
      ∀ record, σ.Remembers clock workspace key record →
        record.requestDigest = digest ∧ job.id = record.responseID
    else
      old.idempotency workspace key = none ∧ job.id = newID randomJob ∧
      old.job job.id = none ∧ (∃ row, new.job job.id = some row ∧ row.workspace = workspace) ∧
      new.idempotency workspace key = some
        { requestDigest := digest
          responseID := job.id
          createdAt := σ.now
          expiresAt := σ.now + seconds (24 * 3600) }

/-- The effects that are peculiar to a call. -/
def Effect (p : Policy) (s : Service) (σ : Session) (reply : Reply) (w : World) : Prop :=
  match σ.call with
  | .claim _ jobID version _ => ClaimEffect w.rows (σ.after w) σ jobID version
  | .completeAttempt jobID n _ result _ =>
    CompleteEffect w.rows (σ.after w) σ jobID n result
  | .deleteRun _ runID => DeleteEffect s (σ.after w) σ runID
  | .createJob workspace key request _ randomJob =>
    match reply with
    | .job job reused =>
      CreateEffect p s w.rows (σ.after w) σ w.clock workspace key request randomJob job reused
    | _ => False
  | _ => True

/-- Whether a call is a claim of the job. -/
def Call.Claims (call : Call) (job : Uuid) : Prop :=
  ∃ worker jobID version token, call = .claim worker jobID version token ∧
    Uuid.parse jobID = some job

/-- Whether a call asks for cancellation of the job. -/
def Call.Cancels (call : Call) (job : Uuid) : Prop :=
  ∃ workspace jobID, call = .requestCancellation workspace jobID ∧ Uuid.parse jobID = some job

/-- Whether a call completes an attempt of the job. -/
def Call.Completes (call : Call) (job : Uuid) : Prop :=
  ∃ jobID n token result random, call = .completeAttempt jobID n token result random ∧
    Uuid.parse jobID = some job

/-- Whether a call completes the upload of the run with a version of its bundle. -/
def Call.Uploads (call : Call) (run : Uuid) (version : String) : Prop :=
  ∃ workspace runID digest size randomInput randomJob,
    call = .completeUpload workspace runID version digest size randomInput randomJob ∧
      Uuid.parse runID = some run

/-- What a commit guarantees about the jobs. -/
structure JobGuarantee (p : Policy) (s : Service) (σ : Session) (w : World) : Prop where
  jobs : ∀ job, JobChange p.fenced σ.now (jobView w.rows job) (jobView (σ.after w) job)
  guarded : ∀ job, jobView (σ.after w) job = jobView w.rows job ∨
    σ.locks (.job job) = some .exclusive ∨ w.rows.Terminal job
  newJobs : ∀ job row, w.rows.job job = none → (σ.after w).job job = some row →
    job ∈ σ.call.draws ∧ ∃ input, Created s w.rows (σ.after w) σ job row input
  oneNewJob : ∀ job job', w.rows.job job = none → (σ.after w).job job ≠ none →
    w.rows.job job' = none → (σ.after w).job job' ≠ none → job = job'
  /-- A validation job that ends, unless on request, leaves no run validating. -/
  validationsEnd : s.CollisionFree → ∀ job run, w.rows.Validates job run → ¬ w.rows.Terminal job →
    (σ.after w).Terminal job → σ.call.Cancels job ∨
      ∀ found, (σ.after w).run run = some found → found.state ≠ .validating
  attemptsBegin : ∀ job n, w.rows.attempt job n = none → (σ.after w).attempt job n ≠ none →
    σ.call.Claims job
  /-- A job is queued together with a notification of its new version. -/
  announced : ∀ job row, (σ.after w).job job = some row → row.state = .queued →
    w.rows.job job = some row ∨ ∃ sent, (σ.after w).outbox job row.rowVersion = some sent
  /-- A job succeeds when an attempt is completed. -/
  succeeds : ∀ job row, (σ.after w).job job = some row → row.state = .succeeded →
    w.rows.job job = some row ∨ σ.call.Completes job

/-- What a commit guarantees about the runs. -/
structure RunGuarantee (p : Policy) (s : Service) (σ : Session) (w : World) : Prop where
  runs : ∀ run, RunStep σ.now (w.rows.run run) ((σ.after w).run run)
  /-- A run that disappears takes all work on it along. -/
  runsDeleted : ∀ run old new, w.rows.run run = some old → (σ.after w).run run = some new →
    old.state ≠ .deleted → new.state = .deleted → ∀ job, (σ.after w).Over job run →
    (s.CollisionFree → (σ.after w).Terminal job) ∧ (p.fenced → (jobView (σ.after w) job).Idle)
  /-- A run becomes ready or invalid when its validation job ends. -/
  runsValidated : ∀ run old new, w.rows.run run = some old →
    (σ.after w).run run = some new → old.state = .validating →
    new.state = .ready ∨ new.state = .invalid →
    ∃ job, w.rows.Validates job run ∧ ¬ w.rows.Terminal job ∧ (σ.after w).Terminal job
  /-- A run becomes validating when its upload is completed, together with a job that
  validates it. -/
  runsUploaded : ∀ run old new, w.rows.run run = some old → (σ.after w).run run = some new →
    old.state = .pending → new.state = .validating →
    (∃ job, w.rows.job job = none ∧ (σ.after w).Validates job run) ∧
      ∃ version, new.bundleObjectVersion = some version ∧ σ.call.Uploads run version

/-- What a commit guarantees about the job inputs. -/
structure InputGuarantee (s : Service) (σ : Session) (w : World) : Prop where
  inputs : ∀ i input, w.rows.input i = some input → (σ.after w).input i = some input
  newInputs : ∀ i input, w.rows.input i = none → (σ.after w).input i = some input →
    input.runs.length = expectedInputs input.operation ∧ i ∈ σ.call.draws ∧
    ∀ run ∈ input.runs, ∃ found, (σ.after w).run run = some found ∧
      found.workspace = input.workspace
  digests : ∀ workspace digest i, (σ.after w).lookup (.inputDigest workspace digest) = some i →
    w.rows.lookup (.inputDigest workspace digest) = some i ∨
      ∃ input, (σ.after w).input i = some input ∧ Describes s workspace digest input
  keepsDigests : ∀ workspace digest i, w.rows.lookup (.inputDigest workspace digest) = some i →
    (σ.after w).lookup (.inputDigest workspace digest) = some i

/-- What a commit guarantees about the outbox. -/
structure OutboxGuarantee (σ : Session) (w : World) : Prop where
  outboxKept : ∀ job version sent, w.rows.outbox job version = some sent →
    (∃ sent', (σ.after w).outbox job version = some sent' ∧ sent'.payload = sent.payload ∧
      sent'.createdAt = sent.createdAt) ∨
    (σ.after w).outbox job version = none ∧ σ.call = .enforceRetention ∧
      sent.publishedAt.any (· < σ.now - publishedNotificationRetention) = true
  outboxNew : ∀ job version sent, w.rows.outbox job version = none →
    (σ.after w).outbox job version = some sent →
    σ.locks (.job job) = some .exclusive ∧
    (∃ row operation, (σ.after w).job job = some row ∧ version ≤ row.rowVersion ∧
      sent.payload = notificationPayload job version operation) ∧
    ∀ row, w.rows.job job = some row → row.rowVersion < version

/-- What a commit guarantees about the idempotency records. -/
structure RecordGuarantee (σ : Session) (w : World) : Prop where
  recordsKept : ∀ workspace key record, w.rows.idempotency workspace key = some record →
    (σ.after w).idempotency workspace key = some record ∨
    (σ.after w).idempotency workspace key = none ∧ record.expiresAt ≤ σ.now
  recordsNew : ∀ workspace key record, w.rows.idempotency workspace key = none →
    (σ.after w).idempotency workspace key = some record →
    (∃ request randomInput randomJob, σ.call = .createJob workspace key request randomInput randomJob) ∧
    ∃ row, (σ.after w).job record.responseID = some row ∧ row.workspace = workspace

/-- What a commit guarantees. -/
structure Guarantee (p : Policy) (s : Service) (σ : Session) (reply : Reply) (w : World) : Prop
    extends JobGuarantee p s σ w, RunGuarantee p s σ w, InputGuarantee s σ w, OutboxGuarantee σ w,
      RecordGuarantee σ w where
  time : σ.now ≤ w.clock
  effect : Effect p s σ reply w

end Tracewake.Hosted
