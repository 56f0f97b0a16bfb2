import Tracewake.ReadCommitted.Program
import Tracewake.Hosted.Schema

/-!
# The service

What the transactions of the control plane share: its errors, the worker key ring,
statement parameters, and the audit and outbox inserts.
-/

namespace Tracewake.Hosted

open ReadCommitted

/-- Why a statement fails in the database or while its row is scanned. -/
inductive DatabaseError
  | uniqueViolation (constraint : String)
  | checkViolation (constraint : String)
  | invalidText
  | outOfRange
  | nullScan
  | noRows
  deriving DecidableEq

/-- The errors of the service: its sentinels, its plain errors, and database errors
with the context they are wrapped in. -/
inductive Err
  | conflict
  | idempotencyConflict
  | invalidRequest (detail : String)
  | unsupported (detail : String)
  | leaseLost
  | notFound
  | rejected (text : String)
  | database (context : String) (cause : DatabaseError)
  deriving DecidableEq

/-- A transaction of the service. -/
abbrev Tx (α : Type) := Program Row Err α

/-- The hash functions of the deployment. -/
structure Hashes where
  /-- SHA-256 of a text, as 64 hexadecimal digits. -/
  sha256 : String → String
  /-- HMAC-SHA256 of a text under a key. -/
  hmac : List UInt8 → String → List UInt8

/-- `KeyRing`: the current token pepper and the one before it. -/
structure KeyRing where
  currentVersion : ℤ
  current : List UInt8
  previous : List UInt8

/-- `Service`: the parts of it that the lifecycle uses. -/
structure Service where
  hashes : Hashes
  workers : KeyRing

/-- `KeyRing.Verify`. -/
def Service.verify (s : Service) (version : ℤ) (token : String) (verifier : List UInt8) : Bool :=
  if version = s.workers.currentVersion then
    s.hashes.hmac s.workers.current token = verifier
  else if version ≠ s.workers.currentVersion - 1 ∨ s.workers.previous = [] then false
  else s.hashes.hmac s.workers.previous token = verifier

/-- Fail unless a condition holds. -/
def require (condition : Bool) (error : Err) : Tx Unit :=
  if condition then .pure () else .fail error

/-- `KeyRing.NewToken` for a freshly drawn token: its verifier under the current pepper. -/
def Service.newToken (s : Service) (token : String) : Tx (List UInt8) := do
  require (!s.workers.current.isEmpty && 1 ≤ s.workers.currentVersion)
    (.rejected "current token pepper is required")
  .pure (s.hashes.hmac s.workers.current token)

/-- A statement parameter of type `uuid`. -/
def uuidParam (context text : String) : Tx Uuid :=
  match Uuid.parse text with
  | some id => .pure id
  | none => .fail (.database context .invalidText)

/-- A statement parameter of type `uuid` that may be NULL. -/
def nullableUuidParam (context : String) : Option String → Tx (Option Uuid)
  | none => .pure none
  | some text => do
    let id ← uuidParam context text
    .pure (some id)

/-- Whether a value fits PostgreSQL's `integer`. -/
def fitsInteger (n : ℤ) : Bool := -2 ^ 31 ≤ n && n < 2 ^ 31

/-- A statement parameter of type `integer`. -/
def integerParam (context : String) (n : ℤ) : Tx Unit :=
  require (fitsInteger n) (.database context .outOfRange)

/-- An `INSERT` that fails on a uniqueness violation. -/
def insertInto (context constraint : String) (key : Key) (row : Row key) : Tx Unit := do
  let inserted ← Program.insertRow key row
  require inserted (.database context (.uniqueViolation constraint))

/-- `UPDATE runs ... WHERE id=` with further conditions on the row. -/
abbrev updateRun (id : Uuid) (qualifies : RunRow → Bool) (set : RunRow → RunRow) :
    Tx (Option RunRow) :=
  Program.updateKey (Key.run id) (fun _ => qualifies) set

/-- `UPDATE jobs ... WHERE id=` with further conditions on the row. -/
abbrev updateJob (id : Uuid) (qualifies : JobRow → Bool) (set : JobRow → JobRow) :
    Tx (Option JobRow) :=
  Program.updateKey (Key.job id) (fun _ => qualifies) set

/-- `UPDATE job_attempts ... WHERE job_id= AND attempt_number=` with further
conditions on the row. -/
abbrev updateAttempt (job : Uuid) (n : ℤ) (qualifies : AttemptRow → Bool)
    (set : AttemptRow → AttemptRow) : Tx (Option AttemptRow) :=
  Program.updateKey (Key.attempt job n) (fun _ => qualifies) set

/-- `INSERT INTO audit_records`. The database draws the id, so no other row has it. -/
def audit (now : Timestamp) (workspace : Uuid) (aggregate : Aggregate)
    (eventType actorType : String) (actorID : Option Uuid) (payload : AuditPayload) : Tx Unit :=
  .sequence fun id => .lock .exclusive (.audit id) fun _ =>
    .write (.audit id)
      (some { workspace, aggregate, eventType, actorType, actorID, payload
              createdAt := now
              retentionExpiresAt := now + days 365 })
      (.pure ())

/-- The notification of one version of a job. -/
def notificationPayload (job : Uuid) (version : ℤ) (operation : Operation) :
    NotificationPayload where
  protocolVersion := 1
  jobID := job.text
  jobVersion := version
  operation := operation.text

/-- The row of a notification that has just been recorded. -/
def OutboxRow.create (now : Timestamp) (id : ℕ) (payload : NotificationPayload) : OutboxRow where
  id := id
  payload := payload
  availableAt := now
  publishedAt := none
  publishAttempts := 0
  createdAt := now

/-- The unique constraint of the outbox. -/
def outboxConstraint : String := "outbox_aggregate_type_aggregate_id_aggregate_version_topic_key"

/-- `INSERT INTO outbox` for one version of a job. -/
def notify (now : Timestamp) (context : String) (job : Uuid) (version : ℤ)
    (operation : Operation) : Tx Unit :=
  .sequence fun id =>
    insertInto context outboxConstraint (.outbox job version)
      (OutboxRow.create now id (notificationPayload job version operation))

end Tracewake.Hosted
