import Tracewake.Hosted.Reconcile

/-!
# Retention and deletion

A retention pass hides runs whose time has passed and cancels the work on them. A
tenant's deletion of a run does the same at once and also expires every artifact
derived from the run.
-/

namespace Tracewake.Hosted

open ReadCommitted

/-- `Retention`: what one enforcement pass removed. -/
structure Retention where
  runsExpired : ℕ
  orphanArtifactsRemoved : ℕ
  idempotencyRecordsGone : ℕ
  auditRecordsGone : ℕ
  publishedNotifications : ℕ
  deriving DecidableEq

/-- Whether a job satisfies a condition on its row and its input. -/
def Store.jobOver (store : Store) (job : Uuid) (condition : JobRow → InputRow → Bool) : Bool :=
  (store.job job).any fun row => (store.jobInput row).any (condition row)

/-- Whether one of the runs of an input is deleted and past its retention. -/
def inputExpired (now : Timestamp) (store : Store) (input : InputRow) : Bool :=
  input.runs.any fun id =>
    (store.run id).any fun run => run.state = .deleted && run.retentionExpiresAt ≤ now

/-- `UPDATE job_attempts a SET state='cancelled' FROM jobs j JOIN job_inputs i`. -/
def fenceDerived (now : Timestamp) (condition : Store → JobRow → InputRow → Bool) :
    Tx (List ((_ : Uuid × ℤ) × AttemptRow)) :=
  Program.update (fun key : Uuid × ℤ => Key.attempt key.1 key.2)
    (fun store : Store => store.attempts)
    (fun (store : Store) key (row : AttemptRow) =>
      row.state = .running && store.jobOver key.1 (condition store))
    (fun _ row => AttemptRow.cancel row now)

/-- `WITH cancelled AS (UPDATE jobs j SET state='cancelled' ... RETURNING ...) INSERT
INTO audit_records`. -/
def cancelDerived (now : Timestamp) (actorType : String)
    (condition : Store → JobRow → InputRow → Bool) : Tx Unit := do
  let cancelled ← Program.update Key.job (fun store : Store => store.jobs)
    (fun (store : Store) _ (row : JobRow) =>
      row.cancellable && (store.jobInput row).any (condition store row))
    (fun _ row => JobRow.cancelDerived row now)
  Program.forEach (fun entry : (_ : Uuid) × JobRow =>
    audit now entry.2.workspace (.job entry.1) "job.cancelled" actorType none {}) cancelled

/-- How long a published notification is kept. -/
def publishedNotificationRetention : Timestamp := days 7

/-- `UPDATE runs SET state='deleted' ... WHERE retention_expires_at<=`. -/
def expireRuns (now : Timestamp) : Tx (List ((_ : Uuid) × RunRow)) :=
  Program.update Key.run (fun store : Store => store.runs)
    (fun _ _ (row : RunRow) => row.state ≠ .deleted && row.retentionExpiresAt ≤ now)
    (fun _ row => RunRow.expire row now)

/-- `DELETE FROM artifacts WHERE NOT authoritative`. -/
def removeOrphanArtifacts (now : Timestamp) : Tx ℕ :=
  Program.delete (fun key : Uuid × ArtifactKind => Key.artifact key.1 key.2)
    (fun store : Store => store.artifacts)
    (fun _ _ (row : ArtifactRow) => !row.authoritative && row.retentionExpiresAt ≤ now)

/-- `DELETE FROM idempotency_records`. -/
def removeIdempotencyRecords (now : Timestamp) : Tx ℕ :=
  Program.delete (fun key : Uuid × String => Key.idempotency key.1 key.2)
    (fun store : Store => store.idempotencies)
    (fun _ _ (row : IdempotencyRow) => row.expiresAt ≤ now)

/-- `DELETE FROM audit_records`. -/
def removeAuditRecords (now : Timestamp) : Tx ℕ :=
  Program.delete Key.audit (fun store : Store => store.audits)
    (fun _ _ (row : AuditRow) => row.retentionExpiresAt ≤ now)

/-- `DELETE FROM outbox` where published long enough ago. -/
def removePublished (now : Timestamp) : Tx ℕ :=
  Program.delete (fun key : Uuid × ℤ => Key.outbox key.1 key.2)
    (fun store : Store => store.outboxes)
    (fun _ _ (row : OutboxRow) => row.publishedAt.any (· < now - publishedNotificationRetention))

/-- `EnforceRetention`. -/
def enforceRetention (now : Timestamp) : Tx Retention := do
  let expired ← expireRuns now
  let artifacts ← removeOrphanArtifacts now
  let records ← removeIdempotencyRecords now
  let audits ← removeAuditRecords now
  let published ← removePublished now
  let _ ← fenceDerived now fun store _ input => inputExpired now store input
  cancelDerived now "retention" fun store _ input => inputExpired now store input
  .pure
    { runsExpired := expired.length
      orphanArtifactsRemoved := artifacts
      idempotencyRecordsGone := records
      auditRecordsGone := audits
      publishedNotifications := published }

/-- `UPDATE artifacts a SET retention_expires_at= ... FROM jobs j JOIN job_inputs i`. -/
def expireDerivedArtifacts (now : Timestamp) (workspace run : Uuid) :
    Tx (List ((_ : Uuid × ArtifactKind) × ArtifactRow)) :=
  Program.update (fun key : Uuid × ArtifactKind => Key.artifact key.1 key.2)
    (fun store : Store => store.artifacts)
    (fun (store : Store) key (row : ArtifactRow) =>
      row.workspace = workspace && store.jobOver key.1 fun _ input => run ∈ input.runs)
    (fun _ row => ArtifactRow.expire row now)

/-- `DeleteRun`. -/
def deleteRun (workspace : Uuid) (runID : String) (now : Timestamp) : Tx Unit := do
  let run ← uuidParam "delete run" runID
  let deleted ← updateRun run (fun row => row.workspace = workspace && row.state ≠ .deleted)
    (·.delete now)
  require deleted.isSome .notFound
  let _ ← fenceDerived now fun _ row input => row.workspace = workspace && run ∈ input.runs
  cancelDerived now "tenant" fun _ row input => row.workspace = workspace && run ∈ input.runs
  let _ ← expireDerivedArtifacts now workspace run
  audit now workspace (.run run) "run.deleted" "tenant" none {}

end Tracewake.Hosted
