import Tracewake.Hosted.Attempts

/-!
# Publication and reconciliation

Notifications go from the outbox to the queue, possibly more than once. The
reconciler ends attempts whose lease has expired, queues due retries, and announces
queued jobs again whose notification seems to be lost.
-/

namespace Tracewake.Hosted

open ReadCommitted

/-- `Notification`. -/
structure Notification where
  id : ℕ
  payload : NotificationPayload
  deriving DecidableEq

/-- A limit outside 1 to 100 means 100. -/
def passLimit (limit : ℤ) : ℕ := if limit < 1 ∨ 100 < limit then 100 else limit.toNat

/-- The outbox in the order of its ids. -/
def outboxByID (store : Store) : List (Uuid × ℤ) :=
  store.outboxes.mergeSort fun a b =>
    (store.outbox a.1 a.2).elim 0 (·.id) ≤ (store.outbox b.1 b.2).elim 0 (·.id)

/-- Whether a notification is due for publication. -/
def OutboxRow.publishable (row : OutboxRow) (now : Timestamp) : Bool :=
  row.publishedAt.isNone && row.availableAt ≤ now

/-- `NextNotification`. -/
def nextNotification (now : Timestamp) : Tx Notification := do
  let found ← Program.select fun store : Store =>
    (outboxByID store).findSome? fun key =>
      (store.outbox key.1 key.2).filter (·.publishable now)
  match found with
  | none => .fail .notFound
  | some row => .pure { id := row.id, payload := row.payload }

/-- Send one notification and record it. The notifier has already taken `sent`
messages of this pass and fails after `accepted`. -/
def publishOne (now : Timestamp) (accepted : ℕ) (entry : ((_ : Uuid × ℤ) × OutboxRow) × ℕ) :
    Tx Unit := do
  require (entry.2 < accepted) (.rejected "publish")
  let _ ← Program.updateKey (Key.outbox entry.1.1.1 entry.1.1.2)
    (fun _ (row : OutboxRow) => row.id = entry.1.2.id) (fun row => OutboxRow.publish row now)

/-- `PublishOutbox`. The notifier accepts the given number of messages. -/
def publishOutbox (accepted : ℕ) (limit : ℤ) (now : Timestamp) : Tx ℕ := do
  let pending ← Program.selectSkipLocked (fun key : Uuid × ℤ => Key.outbox key.1 key.2)
    outboxByID (fun _ _ (row : OutboxRow) => row.publishable now) (passLimit limit)
  Program.forEach (publishOne now accepted) pending.zipIdx
  .pure pending.length

/-- `AcknowledgeNotification`. -/
def acknowledgeNotification (id : ℕ) (now : Timestamp) : Tx Unit := do
  let _ ← Program.update (fun key : Uuid × ℤ => Key.outbox key.1 key.2)
    (fun store : Store => store.outboxes) (fun _ _ (row : OutboxRow) => row.id = id)
    (fun _ row => OutboxRow.acknowledge row now)

/-- An expired attempt that a reconcile pass has found. -/
structure Expired where
  job : Uuid
  workspace : Uuid
  attempt : ℤ
  operation : Operation

/-- Whether the lease of a running job's current attempt has expired. -/
def leaseExpired (now : Timestamp) (n : ℤ) (row : JobRow) (attempt : AttemptRow) : Bool :=
  row.state = .running && row.currentAttemptNumber = some n && attempt.state = .running &&
    attempt.leaseExpiresAt ≤ now

/-- The expired attempt of a job with its lease time. -/
def expiredAttempt (now : Timestamp) (store : Store) (job : Uuid) : Option (Timestamp × Expired) := do
  let row ← store.job job
  let n ← row.currentAttemptNumber
  let attempt ← store.attempt job n
  let input ← store.jobInput row
  if leaseExpired now n row attempt then
    some (attempt.leaseExpiresAt, ⟨job, row.workspace, n, input.operation⟩)
  else none

/-- The expired attempts of a snapshot with their lease times. -/
def expiredAttempts (now : Timestamp) (store : Store) : List (Timestamp × Expired) :=
  store.jobs.filterMap (expiredAttempt now store)

/-- `FOR UPDATE OF j,a SKIP LOCKED LIMIT` over the expired attempts. -/
def lockExpired (now : Timestamp) : List Expired → ℕ → Tx (List Expired)
  | [], _ => .pure []
  | _, 0 => .pure []
  | item :: rest, limit + 1 =>
    .tryLock (.job item.job) fun
      | none => lockExpired now rest (limit + 1)
      | some (row : Option JobRow) =>
        .tryLock (.attempt item.job item.attempt) fun
          | none => lockExpired now rest (limit + 1)
          | some (attempt : Option AttemptRow) =>
            if row.any fun row => attempt.any (leaseExpired now item.attempt row) then do
              let items ← lockExpired now rest limit
              .pure (item :: items)
            else lockExpired now rest (limit + 1)

/-- The run of a validation job's input. -/
def validationRun (job : Uuid) (store : Store) : List Uuid :=
  ((((store.job job).bind store.jobInput).filter (·.operation = .validate)).map (·.runA)).toList

/-- The text of a delay in audit records. -/
def backoffText (n : ℤ) : String := if n = 2 then "30 seconds" else "5 seconds"

/-- The message of an attempt whose lease has expired. -/
def leaseMessage : String := "worker lease expired"

/-- End an expired attempt: schedule a retry, or fail the job after the third attempt. -/
def fenceExpired (now : Timestamp) (item : Expired) : Tx Unit := do
  if item.attempt < 3 then do
    let _ ← updateAttempt item.job item.attempt (·.state = .running)
      (·.finish .fenced now "lease_lost" leaseMessage)
    let _ ← updateJob item.job (·.state = .running) (·.retry now (backoff item.attempt))
    audit now item.workspace (.job item.job) "attempt.fenced" "reconciler" none
      { attempt := some item.attempt, failureCode := some "lease_lost" }
    audit now item.workspace (.job item.job) "job.retry_scheduled" "reconciler" none
      { attempt := some item.attempt, delay := some (backoffText item.attempt) }
  else do
    let _ ← updateAttempt item.job item.attempt (fun _ => true)
      (·.finish .failed now "retry_exhausted" leaseMessage)
    let _ ← updateJob item.job (fun _ => true) (·.fail now "retry_exhausted" leaseMessage)
    audit now item.workspace (.job item.job) "attempt.failed" "reconciler" none
      { attempt := some item.attempt, failureCode := some "retry_exhausted" }
    let invalidated ← invalidateRun (validationRun item.job) "retry_exhausted" leaseMessage
    match invalidated with
    | [] => .pure ()
    | ⟨run, _⟩ :: _ =>
      audit now item.workspace (.run run) "run.invalid" "reconciler" none
        { failureCode := some "retry_exhausted" }

/-- Whether a retry is due. -/
def JobRow.due (row : JobRow) (now : Timestamp) : Bool :=
  row.state = .retryWait && row.retryAt.any (· ≤ now) && row.cancelRequestedAt.isNone

/-- Whether a queued job's notification seems to be lost: the job has not changed for
a minute, and none of its notifications is unpublished or younger than that. -/
def stranded (now : Timestamp) (store : Store) (job : Uuid) (row : JobRow) : Bool :=
  row.state = .queued && row.updatedAt < now - seconds 60 &&
    store.outboxes.all fun key =>
      key.1 ≠ job || (store.outbox key.1 key.2).all fun sent =>
        sent.publishedAt.isSome && sent.createdAt ≤ now - seconds 60

/-- Change a locked job, audit the change, and announce the job's new version. -/
def announce (now : Timestamp) (store : Store) (set : JobRow → JobRow) (eventType : String)
    (entry : (_ : Uuid) × JobRow) : Tx Unit :=
  match store.jobInput entry.2 with
  | none => .fail (.database "" .noRows)
  | some input =>
    .write (.job entry.1) (some (set entry.2)) (do
      audit now entry.2.workspace (.job entry.1) eventType "reconciler" none {}
      notify now "" entry.1 (entry.2.rowVersion + 1) input.operation)

/-- Queue the retries that are due. -/
def enqueueDue (now : Timestamp) (limit : ℕ) : Tx ℕ :=
  .snapshot fun store : Store => do
    let due ← Program.lockSkipping Key.job (fun _ (row : JobRow) => row.due now)
      (store.jobs.filter fun job => (store.job job).any (·.due now)) limit
    Program.forEach (announce now store (·.requeue now) "job.retry_enqueued") due
    .pure due.length

/-- Announce the stranded jobs again. -/
def republishStranded (now : Timestamp) (limit : ℕ) : Tx ℕ :=
  .snapshot fun store : Store => do
    let found ← Program.lockSkipping Key.job (stranded now store)
      (store.jobs.filter fun job => (store.job job).any (stranded now store job)) limit
    Program.forEach (announce now store (·.republish now) "job.notification_republished") found
    .pure found.length

/-- `Reconcile`. -/
def reconcile (limit : ℤ) (now : Timestamp) : Tx ℕ := do
  let items ← .snapshot fun store : Store =>
    lockExpired now (((expiredAttempts now store).mergeSort fun a b => a.1 ≤ b.1).map (·.2))
      (passLimit limit)
  Program.forEach (fenceExpired now) items
  let enqueued ← enqueueDue now (passLimit limit)
  let republished ← republishStranded now (passLimit limit)
  .pure (items.length + enqueued + republished)

end Tracewake.Hosted
