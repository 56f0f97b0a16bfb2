import Tracewake.Hosted.Retention
import Tracewake.Hosted.Views
import Tracewake.ReadCommitted.Contract

/-!
# Calls

Every call that reaches the database, with its arguments, and the transaction that
serves it. Random identifiers and tokens are arguments too.
-/

namespace Tracewake.Hosted

open ReadCommitted

/-- The calls of the service. -/
inductive Call
  | createUpload (workspace : Uuid) (digest : String) (size : ℤ) (random : BitVec 128)
  | completeUpload (workspace : Uuid) (runID version digest : String) (size : ℤ)
      (randomInput randomJob : BitVec 128)
  | createJob (workspace : Uuid) (key : String) (request : JobRequest)
      (randomInput randomJob : BitVec 128)
  | claim (worker : Uuid) (jobID : String) (expectedVersion : ℤ) (token : String)
  | heartbeat (jobID : String) (attempt : ℤ) (token : String)
  | updateProgress (jobID : String) (attempt : ℤ) (token : String) (progress : Progress)
  | cancellation (jobID : String) (attempt : ℤ) (token : String)
  | authorizeAttempt (jobID : String) (attempt : ℤ) (token : String)
  | inputArtifact (jobID : String) (attempt : ℤ) (token artifactID : String)
  | resultInputs (jobID : String) (attempt : ℤ) (token : String)
  | failAttempt (jobID : String) (attempt : ℤ) (token code message : String) (retryable : Bool)
  | completeAttempt (jobID : String) (attempt : ℤ) (token : String) (result : Completion)
      (random : BitVec 128)
  | requestCancellation (workspace : Uuid) (jobID : String)
  | nextNotification
  | publishOutbox (accepted : ℕ) (limit : ℤ)
  | acknowledgeNotification (id : ℕ)
  | reconcile (limit : ℤ)
  | enforceRetention
  | deleteRun (workspace : Uuid) (runID : String)

/-- The identifiers that a call draws for the rows it inserts. -/
def Call.draws : Call → List Uuid
  | .createUpload _ _ _ random => [newID random]
  | .completeUpload _ _ _ _ _ randomInput randomJob => [newID randomInput, newID randomJob]
  | .createJob _ _ _ randomInput randomJob => [newID randomInput, newID randomJob]
  | _ => []

/-- The replies of the service. -/
inductive Reply
  | done
  | upload (value : Upload)
  | job (value : Job) (reused : Bool)
  | claim (value : Claim)
  | time (value : Timestamp)
  | flag (value : Bool)
  | workspace (value : Uuid)
  | input (value : InputArtifact)
  | inputs (value : List ResultInput)
  | state (value : JobState)
  | notification (value : Notification)
  | count (value : ℕ)
  | retention (value : Retention)
  deriving DecidableEq

/-- Reply with the value of a transaction. -/
def replying {α : Type} (p : Tx α) (reply : α → Reply) : Tx Reply :=
  p.bind fun value => .pure (reply value)

/-- The transaction that serves a call at a database time. -/
def transaction (s : Service) : Call → Timestamp → Tx Reply
  | .createUpload workspace digest size random, now =>
    replying (createUpload workspace digest size random now) .upload
  | .completeUpload workspace runID version digest size randomInput randomJob, now =>
    replying (completeUpload s workspace runID version digest size randomInput randomJob now)
      fun _ => .done
  | .createJob workspace key request randomInput randomJob, now =>
    replying (createJob s workspace key request randomInput randomJob now)
      fun (job, reused) => .job job reused
  | .claim worker jobID expectedVersion token, now =>
    replying (claim s worker jobID expectedVersion token now) .claim
  | .heartbeat jobID attempt token, now => replying (heartbeat s jobID attempt token now) .time
  | .updateProgress jobID attempt token progress, now =>
    replying (updateProgress s jobID attempt token progress now) fun _ => .done
  | .cancellation jobID attempt token, now =>
    replying (cancellation s jobID attempt token now) .flag
  | .authorizeAttempt jobID attempt token, now =>
    replying (authorizeAttempt s jobID attempt token now) .workspace
  | .inputArtifact jobID attempt token artifactID, now =>
    replying (inputArtifact s jobID attempt token artifactID now) .input
  | .resultInputs jobID attempt token, now =>
    replying (resultInputs s jobID attempt token now) .inputs
  | .failAttempt jobID attempt token code message retryable, now =>
    replying (failAttempt s jobID attempt token code message retryable now) .state
  | .completeAttempt jobID attempt token result random, now =>
    replying (completeAttempt s jobID attempt token result random now) fun _ => .done
  | .requestCancellation workspace jobID, now =>
    replying (requestCancellation workspace jobID now) fun _ => .done
  | .nextNotification, now => replying (nextNotification now) .notification
  | .publishOutbox accepted limit, now => replying (publishOutbox accepted limit now) .count
  | .acknowledgeNotification id, now => replying (acknowledgeNotification id now) fun _ => .done
  | .reconcile limit, now => replying (reconcile limit now) .count
  | .enforceRetention, now => replying (enforceRetention now) .retention
  | .deleteRun workspace runID, now => replying (deleteRun workspace runID now) fun _ => .done

/-- A transaction of the service that is open. -/
abbrev Session := ReadCommitted.Session Row Call

/-- The committed world of the service. -/
abbrev World := ReadCommitted.World Row Call Err Reply

/-- The committed world and the open transactions of the service. -/
abbrev System := ReadCommitted.System Row Call Err Reply

end Tracewake.Hosted

namespace Tracewake.ReadCommitted

open Hosted

/-- The committed rows. -/
abbrev World.rows (w : Hosted.World) : Store := w.store

/-- The rows that were committed when the transaction began. -/
abbrev Session.before (σ : Hosted.Session) : Store := σ.origin

/-- The rows that are committed once the transaction commits. -/
abbrev Session.after (σ : Hosted.Session) (w : Hosted.World) : Store := σ.view w.store

end Tracewake.ReadCommitted
