import Tracewake.ReadCommitted.Frames
import Tracewake.Hosted.Calls

/-!
# Leases and progress are left alone

Only a heartbeat changes the lease of an attempt that exists, and only a progress report
changes a progress snapshot. A claim inserts an attempt with a lease of one minute from
its heartbeat. All other statements of the service leave leases and snapshots alone.
-/

namespace Tracewake.Hosted

open ReadCommitted Program

/-- The lease of an attempt lasts one minute from its heartbeat. -/
def AttemptRow.Leased (row : AttemptRow) : Prop :=
  row.leaseExpiresAt = row.heartbeatAt + seconds 60

/-- Two versions of an attempt with the same heartbeat and the same lease. -/
structure AttemptRow.SameLease (old new : AttemptRow) : Prop where
  leaseExpiresAt : new.leaseExpiresAt = old.leaseExpiresAt
  heartbeatAt : new.heartbeatAt = old.heartbeatAt

/-- How an attempt may change in a transaction that renews no lease. -/
inductive KeepsLease : Option AttemptRow → Option AttemptRow → Prop
  | same (attempt : Option AttemptRow) : KeepsLease attempt attempt
  | start (row : AttemptRow) : row.Leased → KeepsLease none (some row)
  | change (old new : AttemptRow) : old.SameLease new → KeepsLease (some old) (some new)

/-- Two changes that keep the lease keep it together. -/
theorem AttemptRow.SameLease.trans {old mid new : AttemptRow} (h : old.SameLease mid)
    (h' : mid.SameLease new) : old.SameLease new :=
  ⟨h'.leaseExpiresAt.trans h.leaseExpiresAt, h'.heartbeatAt.trans h.heartbeatAt⟩

/-- An attempt that keeps its lease and its heartbeat is still leased for one minute. -/
theorem AttemptRow.SameLease.leased {old new : AttemptRow} (h : old.SameLease new)
    (hold : old.Leased) : new.Leased := by
  rw [AttemptRow.Leased, h.leaseExpiresAt, h.heartbeatAt]
  exact hold

/-- A claim begins an attempt with a lease of one minute. -/
theorem AttemptRow.start_leased (worker : Uuid) (verifier : List UInt8) (version : ℤ)
    (now : Timestamp) : (AttemptRow.start worker verifier version (now + seconds 60) now).Leased :=
  rfl

/-- Ending an attempt, in whatever state, leaves its lease as it was. -/
theorem AttemptRow.sameLease_finish (row : AttemptRow) (state : AttemptState) (now : Timestamp)
    (code message : String) : row.SameLease (row.finish state now code message) :=
  ⟨rfl, rfl⟩

/-- An attempt that succeeds leaves its lease as it was. -/
theorem AttemptRow.sameLease_succeed (row : AttemptRow) (now : Timestamp) :
    row.SameLease (row.succeed now) :=
  ⟨rfl, rfl⟩

/-- Cancelling an attempt leaves its lease as it was. -/
theorem AttemptRow.sameLease_cancel (row : AttemptRow) (now : Timestamp) :
    row.SameLease (row.cancel now) :=
  ⟨rfl, rfl⟩

/-- Changes that renew no lease may follow one another: a new attempt that is then changed
is still a new one with a lease of one minute. -/
theorem KeepsLease.trans {old mid new : Option AttemptRow} (h : KeepsLease old mid)
    (h' : KeepsLease mid new) : KeepsLease old new := by
  cases h with
  | same => exact h'
  | start row hleased =>
    cases h' with
    | same => exact .start row hleased
    | change _ new hsame => exact .start new (hsame.leased hleased)
  | change old mid hsame =>
    cases h' with
    | same => exact .change old mid hsame
    | change _ new hsame' => exact .change old new (hsame.trans hsame')

/-- An attempt that exists keeps its lease. -/
theorem KeepsLease.some {old new : Option AttemptRow} (h : KeepsLease old new) {row : AttemptRow}
    (hrow : old = Option.some row) : ∃ row', new = Option.some row' ∧ row.SameLease row' := by
  subst hrow
  cases h with
  | same => exact ⟨row, rfl, rfl, rfl⟩
  | change _ row' hsame => exact ⟨row', rfl, hsame⟩

/-- An attempt whose lease lasts one minute keeps it so, and a new one begins so. -/
theorem KeepsLease.leased {old new : Option AttemptRow} (h : KeepsLease old new)
    (hold : ∀ row, old = Option.some row → row.Leased) (row : AttemptRow)
    (hrow : new = Option.some row) : row.Leased := by
  subst hrow
  cases h with
  | same => exact hold row rfl
  | start _ hleased => exact hleased
  | change old _ hsame => exact hsame.leased (hold old rfl)

/-- No lease is renewed and no progress snapshot changes. -/
def quiet : Footprint Row where
  Allows
    | .attempt _ _, old, new => KeepsLease old new
    | .progress _, old, new => new = old
    | _, _, _ => True
  refl key row := by
    cases key with
    | attempt job n => exact .same row
    | progress job => rfl
    | _ => trivial

/-- Changes that keep the footprint may follow one another, key by key. -/
theorem quiet_transitive : quiet.Transitive := by
  intro key old mid new h h'
  cases key with
  | attempt job n => exact KeepsLease.trans h h'
  | progress job => exact Eq.trans h' h
  | _ => trivial

section Statements

variable {F : Footprint Row} {seen : Seen Row}

/-- A check of a condition changes nothing. -/
theorem within_require {condition : Bool} {error : Err} :
    (require condition error).Within F seen := by
  cases condition <;> trivial

/-- Reading an identifier changes nothing. -/
theorem within_uuidParam {context text : String} : (uuidParam context text).Within F seen := by
  unfold uuidParam
  split <;> trivial

/-- Reading an optional identifier changes nothing. -/
theorem within_nullableUuidParam {context : String} {text : Option String} :
    (nullableUuidParam context text).Within F seen := by
  cases text with
  | none => trivial
  | some text => exact Within.bind within_uuidParam fun _ => trivial

/-- An insertion that must succeed keeps to a footprint that allows the row to appear. -/
theorem within_insertInto {context constraint : String} {key : Key} {row : Row key}
    (h : F.Allows key none (some row)) :
    (insertInto context constraint key row).Within F seen :=
  Within.bind (within_insertRow h) fun _ => within_require

/-- The check of an attempt only reads and locks rows, whatever it finds. -/
theorem within_checkAttempt {s : Service} {jobID token : String} {n : ℤ} {now : Timestamp} :
    (checkAttempt s jobID n token now).Within F seen := by
  unfold checkAttempt
  refine Within.bind within_uuidParam fun job => Within.bind within_require fun _ store => ?_
  dsimp only
  split
  · trivial
  split
  · trivial
  split
  · intro row input attempt
    dsimp only
    split
    · unfold checkAttempt.judge
      split
      · trivial
      split
      · trivial
      split <;> trivial
    · trivial
  · trivial

/-- A transaction that changes nothing after the check of its attempt. -/
theorem within_checked {α : Type} {s : Service} {jobID token : String} {n : ℤ} {now : Timestamp}
    {next : CurrentAttempt → Tx α} (h : ∀ current, (next current).Within F none) :
    ((checkAttempt s jobID n token now).bind next).Within F seen :=
  Within.bind within_checkAttempt h

/-- Audit records are of no concern to the footprint. -/
theorem within_audit {now : Timestamp} {workspace : Uuid} {aggregate : Aggregate}
    {eventType actorType : String} {actorID : Option Uuid} {payload : AuditPayload} :
    (audit now workspace aggregate eventType actorType actorID payload).Within quiet seen :=
  fun _ _ => ⟨fun _ _ => trivial, trivial⟩

/-- Notifications are of no concern to the footprint. -/
theorem within_notify {now : Timestamp} {context : String} {job : Uuid} {version : ℤ}
    {operation : Operation} : (notify now context job version operation).Within quiet seen :=
  fun _ => within_insertInto trivial

/-- Runs may change freely. -/
theorem within_updateRun {id : Uuid} {qualifies : RunRow → Bool} {set : RunRow → RunRow} :
    (updateRun id qualifies set).Within quiet seen :=
  within_updateKey fun _ => trivial

/-- Jobs may change freely. -/
theorem within_updateJob {id : Uuid} {qualifies : JobRow → Bool} {set : JobRow → JobRow} :
    (updateJob id qualifies set).Within quiet seen :=
  within_updateKey fun _ => trivial

/-- An update of an attempt has to keep its lease. -/
theorem within_updateAttempt {job : Uuid} {n : ℤ} {qualifies : AttemptRow → Bool}
    {set : AttemptRow → AttemptRow} (h : ∀ row : AttemptRow, row.SameLease (set row)) :
    (updateAttempt job n qualifies set).Within quiet seen :=
  within_updateKey fun row => .change row _ (h row)

/-- Invalidating runs changes runs only. -/
theorem within_invalidateRun {find : Store → List Uuid} {code message : String} :
    (invalidateRun find code message).Within quiet seen :=
  within_update fun _ _ => trivial

end Statements

section Transactions

variable {s : Service} {now : Timestamp} {seen : Seen Row}

/-- Declaring an upload inserts a run and nothing else. -/
theorem within_createUpload {workspace : Uuid} {digest : String} {size : ℤ}
    {random : BitVec 128} : (createUpload workspace digest size random now).Within quiet seen := by
  have htake : ∀ runID row, (insertRun.take runID row).Within quiet none := fun runID row =>
    ⟨fun _ _ => trivial, Within.bind (within_insertInto trivial) fun _ => trivial⟩
  unfold createUpload
  refine Within.bind within_require fun _ => Within.bind ?_ fun inserted => ?_
  · intro holder
    cases holder with
    | none => exact (htake _ _).mono
    | some holder =>
      intro held
      dsimp only
      split
      · trivial
      · exact (htake _ _).mono
  · split
    · trivial
    · refine Within.bind within_select fun existing => ?_
      cases existing <;> trivial

/-- Completing an upload changes the run and inserts the validation job with its
notification. -/
theorem within_completeUpload {workspace : Uuid} {runID version digest : String} {size : ℤ}
    {randomInput randomJob : BitVec 128} :
    (completeUpload s workspace runID version digest size randomInput randomJob now).Within
      quiet seen := by
  unfold completeUpload
  refine Within.bind within_uuidParam fun run => Within.bind within_updateRun fun uploaded => ?_
  refine Within.bind within_require fun _ => Within.bind (within_insertInto trivial) fun _ => ?_
  refine Within.bind (within_insertInto trivial) fun _ => ?_
  exact Within.bind (within_insertInto trivial) fun _ => within_notify

/-- Finding or inserting an input touches no attempt. -/
theorem within_normalizedInput {inputID : Uuid} {row : InputRow} :
    (normalizedInput inputID row).Within quiet seen := by
  unfold normalizedInput
  refine Within.bind within_require fun _ => ?_
  refine Within.bind (within_insertRow trivial) fun inserted => ?_
  split
  · exact Within.bind (within_insertInto trivial) fun _ => trivial
  · refine Within.bind within_select fun existing => ?_
    cases existing <;> trivial

/-- Locking an input run changes nothing. -/
theorem within_lockReadyRun {workspace : Uuid} {runID : String} :
    (lockReadyRun workspace runID).Within quiet seen := by
  unfold lockReadyRun
  split
  · trivial
  · exact Within.bind within_selectLocked fun _ => within_require

/-- Inserting a job touches no attempt: the job is not claimed yet. -/
theorem within_createFreshJob {workspace : Uuid} {key : String} {request : JobRequest}
    {operation : Operation} {digest : String} {randomInput randomJob : BitVec 128} :
    (createFreshJob workspace key request operation digest randomInput randomJob now).Within
      quiet seen := by
  unfold createFreshJob
  refine Within.bind (within_forEach fun _ _ => within_lockReadyRun) fun _ => ?_
  refine Within.bind within_uuidParam fun runA => ?_
  refine Within.bind within_nullableUuidParam fun runB => ?_
  refine Within.bind within_normalizedInput fun input => ?_
  refine Within.bind (within_insertInto trivial) fun _ => Within.bind within_notify fun _ => ?_
  refine Within.bind within_audit fun _ => ?_
  exact Within.bind (within_insertInto trivial) fun _ => trivial

/-- A job request finds an earlier job or inserts a new one. -/
theorem within_createJob {workspace : Uuid} {key : String} {request : JobRequest}
    {randomInput randomJob : BitVec 128} :
    (createJob s workspace key request randomInput randomJob now).Within quiet seen := by
  unfold createJob
  refine Within.bind within_require fun _ => Within.bind within_require fun _ => ?_
  split
  · trivial
  refine Within.bind within_select fun record => ?_
  cases record with
  | none => exact Within.bind within_createFreshJob fun _ => trivial
  | some record =>
    dsimp only
    split
    · trivial
    · refine Within.bind (Within.bind within_select fun found => ?_) fun _ => trivial
      cases found <;> trivial

/-- A claim inserts an attempt that is leased for one minute and changes none that
exists. -/
theorem within_claim {worker : Uuid} {jobID token : String} {version : ℤ} :
    (claim s worker jobID version token now).Within quiet seen := by
  unfold claim
  refine Within.bind within_uuidParam fun job => Within.bind ?_ fun ⟨row, input, next⟩ => ?_
  · intro store
    dsimp only
    split
    · trivial
    split
    · trivial
    · intro row input
      dsimp only
      split <;> trivial
  refine Within.bind within_require fun _ => ?_
  refine Within.bind (Within.bind within_require fun _ => trivial) fun verifier => ?_
  refine Within.bind (within_insertInto (.start _ (AttemptRow.start_leased ..))) fun _ => ?_
  refine Within.bind within_updateJob fun _ => Within.bind within_audit fun _ => ?_
  refine Within.bind within_select fun found => ?_
  split
  · trivial
  · exact Within.bind within_require fun _ => trivial

/-- A worker that asks whether its job is cancelled changes nothing. -/
theorem within_cancellation {jobID token : String} {n : ℤ} :
    (cancellation s jobID n token now).Within quiet seen := by
  unfold cancellation
  refine Within.bind within_uuidParam fun job => Within.bind within_require fun _ => ?_
  refine Within.bind within_select fun found => ?_
  split
  · trivial
  split
  · trivial
  · exact Within.bind within_require fun _ => Within.bind within_require fun _ => trivial

/-- A worker that proves its attempt changes nothing. -/
theorem within_authorizeAttempt {jobID token : String} {n : ℤ} :
    (authorizeAttempt s jobID n token now).Within quiet seen :=
  within_checked fun _ => trivial

/-- A worker that asks for an input artifact changes nothing. -/
theorem within_inputArtifact {jobID token artifactID : String} {n : ℤ} :
    (inputArtifact s jobID n token artifactID now).Within quiet seen := by
  unfold inputArtifact
  refine within_checked fun current => Within.bind within_uuidParam fun run => ?_
  refine Within.bind within_select fun found => ?_
  split
  · trivial
  · split <;> trivial

/-- A worker that asks for its inputs changes nothing. -/
theorem within_resultInputs {jobID token : String} {n : ℤ} :
    (resultInputs s jobID n token now).Within quiet seen := by
  unfold resultInputs
  refine within_checked fun current => Within.bind within_select fun found => ?_
  split <;> trivial

/-- Failing an attempt ends it with the lease it had, in both of the ways in which the job
goes on. -/
theorem within_failAttempt {jobID token code message : String} {n : ℤ} {retryable : Bool} :
    (failAttempt s jobID n token code message retryable now).Within quiet seen := by
  unfold failAttempt
  refine Within.bind within_require fun _ => Within.bind within_require fun _ => ?_
  refine within_checked fun current => ?_
  split
  · refine Within.bind (within_updateAttempt fun row => row.sameLease_finish ..) fun _ => ?_
    exact Within.bind within_updateJob fun _ => Within.bind within_audit fun _ => trivial
  · refine Within.bind (within_updateAttempt fun row => row.sameLease_finish ..) fun _ => ?_
    refine Within.bind within_updateJob fun _ => ?_
    dsimp only
    split
    · refine Within.bind within_invalidateRun fun _ => ?_
      exact Within.bind within_audit fun _ => trivial
    · exact Within.bind within_audit fun _ => trivial

/-- Registering an artifact touches no attempt. -/
theorem within_registerArtifact {context artifactID : String} {job : Uuid} {kind : ArtifactKind}
    {row : Uuid → ArtifactRow} :
    (registerArtifact context job kind artifactID row).Within quiet seen := by
  unfold registerArtifact
  refine Within.bind within_uuidParam fun id => Within.bind within_require fun _ => ?_
  refine Within.bind (within_insertInto trivial) fun _ => ?_
  exact Within.bind (within_insertInto trivial) fun _ => trivial

/-- Completing an attempt registers artifacts, may make the run ready, and ends the attempt
with the lease it had. -/
theorem within_completeAttempt {jobID token : String} {n : ℤ} {result : Completion}
    {random : BitVec 128} : (completeAttempt s jobID n token result random now).Within quiet seen := by
  have hready : ∀ job, (markRunReady job result now).Within quiet none := fun job => by
    unfold markRunReady
    refine Within.bind (within_update fun _ _ => trivial) fun updated => ?_
    exact Within.bind within_require fun _ => within_require
  have hend : ∀ (current : CurrentAttempt) artifact artifactID, ((updateAttempt current.job n
      (fun _ => true) (·.succeed now)).bind fun _ => (updateJob current.job
      (fun row => row.state = .running && row.currentAttemptNumber = some n)
      (fun row => row.succeed now artifact result.digest result.size result.schemaName
        result.schemaVersion)).bind fun updated => (require updated.isSome .leaseLost).bind fun _ =>
      audit now current.workspace (.job current.job) "job.succeeded" "worker" none
        { attempt := some n, artifactID := some artifactID }).Within quiet none := by
    intro current artifact artifactID
    refine Within.bind (within_updateAttempt fun row => row.sameLease_succeed now) fun _ => ?_
    exact Within.bind within_updateJob fun _ => Within.bind within_require fun _ => within_audit
  unfold completeAttempt
  refine within_checked fun current => Within.bind within_require fun _ => ?_
  refine Within.bind within_require fun _ => Within.bind within_require fun _ => ?_
  refine Within.bind (within_forEach fun entry _ => ?_) fun _ => ?_
  · exact Within.bind within_require fun _ => Within.bind within_registerArtifact fun _ => trivial
  refine Within.bind within_registerArtifact fun artifact => ?_
  dsimp only
  split
  · exact Within.bind (hready _) fun _ => hend current artifact _
  · exact hend current artifact _

/-- Cancelled attempts keep their leases. -/
theorem within_cancelAttempts {job : Uuid} : (cancelAttempts job now).Within quiet seen :=
  within_update fun _ row => .change row _ (row.sameLease_cancel now)

/-- Cancelling a job cancels its attempts, which keep their leases. -/
theorem within_requestCancellation {workspace : Uuid} {jobID : String} :
    (requestCancellation workspace jobID now).Within quiet seen := by
  unfold requestCancellation
  refine Within.bind within_uuidParam fun job => Within.bind within_updateJob fun requested => ?_
  split
  · trivial
  · refine Within.bind within_cancelAttempts fun _ => ?_
    exact Within.bind within_updateJob fun _ => within_audit

/-- Looking for the next notification changes nothing. -/
theorem within_nextNotification : (nextNotification now).Within quiet seen := by
  unfold nextNotification
  refine Within.bind within_select fun found => ?_
  cases found <;> trivial

/-- Publishing notifications changes the outbox only. -/
theorem within_publishOutbox {accepted : ℕ} {limit : ℤ} :
    (publishOutbox accepted limit now).Within quiet seen := by
  unfold publishOutbox
  refine Within.bind within_selectSkipLocked fun pending => ?_
  refine Within.bind (within_forEach fun entry _ => ?_) fun _ => trivial
  exact Within.bind within_require fun _ =>
    Within.bind (within_updateKey fun _ => trivial) fun _ => trivial

/-- Acknowledging a notification changes the outbox only. -/
theorem within_acknowledgeNotification {id : ℕ} :
    (acknowledgeNotification id now).Within quiet seen :=
  Within.bind (within_update fun _ _ => trivial) fun _ => trivial

/-- The search for expired attempts only locks rows. The induction is on the attempts
found. -/
theorem within_lockExpired {items : List Expired} {limit : ℕ} :
    (lockExpired now items limit).Within quiet seen := by
  induction items generalizing limit seen with
  | nil => trivial
  | cons item rest ih =>
    cases limit with
    | zero => trivial
    | succ limit =>
      refine ⟨ih, fun row => ⟨ih, fun attempt => ?_⟩⟩
      dsimp only
      split
      · exact Within.bind ih fun _ => trivial
      · exact ih

/-- An expired attempt is ended with the lease it had, whether or not its job goes on. -/
theorem within_fenceExpired {item : Expired} : (fenceExpired now item).Within quiet seen := by
  unfold fenceExpired
  split
  · refine Within.bind (within_updateAttempt fun row => row.sameLease_finish ..) fun _ => ?_
    refine Within.bind within_updateJob fun _ => Within.bind within_audit fun _ => within_audit
  · refine Within.bind (within_updateAttempt fun row => row.sameLease_finish ..) fun _ => ?_
    refine Within.bind within_updateJob fun _ => Within.bind within_audit fun _ => ?_
    refine Within.bind within_invalidateRun fun invalidated => ?_
    split
    · trivial
    · exact within_audit

/-- Announcing a job touches no attempt. -/
theorem within_announce {store : Store} {set : JobRow → JobRow} {eventType : String}
    {entry : (_ : Uuid) × JobRow} :
    (announce now store set eventType entry).Within quiet seen := by
  unfold announce
  split
  · trivial
  · exact ⟨fun _ _ => trivial, Within.bind within_audit fun _ => within_notify⟩

/-- Reconciliation ends expired attempts with the leases they had and announces jobs. -/
theorem within_reconcile {limit : ℤ} : (reconcile limit now).Within quiet seen := by
  unfold reconcile
  refine Within.bind (fun _ => within_lockExpired) fun items => ?_
  refine Within.bind (within_forEach fun _ _ => within_fenceExpired) fun _ => ?_
  refine Within.bind (fun _ => Within.bind within_lockSkipping fun due => ?_) fun enqueued => ?_
  · exact Within.bind (within_forEach fun _ _ => within_announce) fun _ => trivial
  refine Within.bind (fun _ => Within.bind within_lockSkipping fun found => ?_) fun _ => trivial
  exact Within.bind (within_forEach fun _ _ => within_announce) fun _ => trivial

/-- Fencing the attempts of derived jobs leaves their leases as they were. -/
theorem within_fenceDerived {condition : Store → JobRow → InputRow → Bool} :
    (fenceDerived now condition).Within quiet seen :=
  within_update fun _ row => .change row _ (row.sameLease_cancel now)

/-- Cancelling derived jobs touches no attempt. -/
theorem within_cancelDerived {actorType : String} {condition : Store → JobRow → InputRow → Bool} :
    (cancelDerived now actorType condition).Within quiet seen :=
  Within.bind (within_update fun _ _ => trivial) fun _ =>
    within_forEach fun _ _ => within_audit

/-- The sweep of what has expired fences attempts, which keep their leases. -/
theorem within_enforceRetention : (enforceRetention now).Within quiet seen := by
  unfold enforceRetention
  refine Within.bind (within_update fun _ _ => trivial) fun expired => ?_
  refine Within.bind (within_delete fun _ _ => trivial) fun artifacts => ?_
  refine Within.bind (within_delete fun _ _ => trivial) fun records => ?_
  refine Within.bind (within_delete fun _ _ => trivial) fun audits => ?_
  refine Within.bind (within_delete fun _ _ => trivial) fun published => ?_
  refine Within.bind within_fenceDerived fun _ => ?_
  exact Within.bind within_cancelDerived fun _ => trivial

/-- Deleting a run fences the attempts of jobs over it, which keep their leases. -/
theorem within_deleteRun {workspace : Uuid} {runID : String} :
    (deleteRun workspace runID now).Within quiet seen := by
  unfold deleteRun
  refine Within.bind within_uuidParam fun run => Within.bind within_updateRun fun deleted => ?_
  refine Within.bind within_require fun _ => Within.bind within_fenceDerived fun _ => ?_
  refine Within.bind within_cancelDerived fun _ => ?_
  exact Within.bind (within_update fun _ _ => trivial) fun _ => within_audit

/-- A call that is neither a heartbeat nor a progress report. -/
def Call.Quiet : Call → Prop
  | .heartbeat .. | .updateProgress .. => False
  | _ => True

/-- The other calls leave leases and progress alone. -/
theorem within_transaction {call : Call} (h : call.Quiet) :
    (transaction s call now).Within quiet none := by
  cases call with
  | createUpload => exact Within.bind within_createUpload fun _ => trivial
  | completeUpload => exact Within.bind within_completeUpload fun _ => trivial
  | createJob => exact Within.bind within_createJob fun _ => trivial
  | claim => exact Within.bind within_claim fun _ => trivial
  | heartbeat => exact h.elim
  | updateProgress => exact h.elim
  | cancellation => exact Within.bind within_cancellation fun _ => trivial
  | authorizeAttempt => exact Within.bind within_authorizeAttempt fun _ => trivial
  | inputArtifact => exact Within.bind within_inputArtifact fun _ => trivial
  | resultInputs => exact Within.bind within_resultInputs fun _ => trivial
  | failAttempt => exact Within.bind within_failAttempt fun _ => trivial
  | completeAttempt => exact Within.bind within_completeAttempt fun _ => trivial
  | requestCancellation => exact Within.bind within_requestCancellation fun _ => trivial
  | nextNotification => exact Within.bind within_nextNotification fun _ => trivial
  | publishOutbox => exact Within.bind within_publishOutbox fun _ => trivial
  | acknowledgeNotification => exact Within.bind within_acknowledgeNotification fun _ => trivial
  | reconcile => exact Within.bind within_reconcile fun _ => trivial
  | enforceRetention => exact Within.bind within_enforceRetention fun _ => trivial
  | deleteRun => exact Within.bind within_deleteRun fun _ => trivial

end Transactions

end Tracewake.Hosted
