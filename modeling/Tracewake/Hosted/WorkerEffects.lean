import Tracewake.ReadCommitted.Promises
import Tracewake.Hosted.Frames
import Tracewake.Hosted.Verified

/-!
# What heartbeats and progress reports do

A heartbeat that commits renews the lease of its own running attempt and returns the new
lease. A progress report that commits is made by the running attempt of its job, and it
replaces the snapshot only by a later one. This is more than the contract of the service
says, so it is promised here on top of it.
-/

namespace Tracewake.Hosted

open ReadCommitted

variable {p : Policy} {s : Service} {σ₀ σ : Session} {w : World}

/-- The attempt is the one that its job is running, and the token is its own. -/
structure Holds (s : Service) (store : Store) (job : Uuid) (n : ℤ) (token : String)
    (row : JobRow) (attempt : AttemptRow) : Prop where
  running : (jobView store job).Running row n attempt
  verified : s.verify attempt.tokenPepperVersion token attempt.tokenVerifier = true

/-- The rows of one job are changed and those of the other jobs are not. -/
structure ChangesJob (old new : Store) (job : Uuid) (v : JobView) : Prop where
  view : jobView new job = v
  others : ∀ other, other ≠ job → jobView new other = jobView old other

/-- A report is newer than the stored snapshot. -/
def Supersedes (stored : Option ProgressRow) (n sequence : ℤ) : Prop :=
  ∀ row, stored = some row → row.attemptNumber < n ∨
    row.attemptNumber = n ∧ row.sequence < sequence

/-- The snapshot that a report is stored as. -/
def Progress.row (progress : Progress) (n : ℤ) (now : Timestamp) : ProgressRow where
  attemptNumber := n
  sequence := progress.sequence
  stage := progress.stage
  message := progress.message
  updatedAt := now

/-- What a heartbeat does when it commits. -/
def HeartbeatEffect (s : Service) (old new : Store) (now : Timestamp) (jobID : String) (n : ℤ)
    (token : String) (reply : Reply) : Prop :=
  ∃ job row attempt, Uuid.parse jobID = some job ∧ Holds s old job n token row attempt ∧
    reply = .time (now + seconds 60) ∧ ChangesJob old new job
      { jobView old job with
        attempts := Function.update (jobView old job).attempts n (some (attempt.beat now)) }

/-- What a progress report does when it commits. -/
def ReportEffect (s : Service) (old new : Store) (now : Timestamp) (jobID : String) (n : ℤ)
    (token : String) (progress : Progress) : Prop :=
  ∃ job row attempt stored, Uuid.parse jobID = some job ∧ Holds s old job n token row attempt ∧
    ChangesJob old new job { jobView old job with progress := stored } ∧
    (stored = old.progress job ∨ Supersedes (old.progress job) n progress.sequence ∧
      stored = some (progress.row n now))

/-- What a commit does to leases and to progress. -/
structure WorkerEffect (s : Service) (σ : Session) (reply : Reply) (w : World) : Prop where
  heartbeat : ∀ jobID n token, σ.call = .heartbeat jobID n token →
    HeartbeatEffect s w.rows (σ.after w) σ.now jobID n token reply
  report : ∀ jobID n token progress, σ.call = .updateProgress jobID n token progress →
    ReportEffect s w.rows (σ.after w) σ.now jobID n token progress
  quiet : σ.call.Quiet → ∀ key, quiet.Allows key (w.rows.lookup key) ((σ.after w).lookup key)

variable {permits : Session → World → Prop}

/-- What a transaction promises whose value is replied. -/
theorem wp_replying_promises {α : Type} {program : Tx α} {reply : α → Reply}
    (h : (contract p s).wp program
      (fun result => (contract p s).Promises permits (WorkerEffect s) (result.map reply)) σ w) :
    (contract p s).wp (replying program reply)
      ((contract p s).Promises permits (WorkerEffect s)) σ w := by
  rw [replying, Contract.wp_bind]
  refine Contract.wp_mono _ ?_ h
  intro result σ' w' hresult
  cases result with
  | ok value => exact Contract.wp_pure hresult
  | error error => exact hresult

/-- Nothing is promised of an error. -/
theorem promises_error {α : Type} {reply : α → Reply} {error : Err} :
    (contract p s).Promises permits (WorkerEffect s) ((Except.error error).map reply) σ w :=
  fun _ hvalue => nomatch hvalue

/-- A heartbeat promises to renew the lease of its own running attempt and to return it. -/
theorem promises_heartbeat {jobID : String} {n : ℤ} {token : String} :
    (contract p s).wp (heartbeat s jobID n token w.clock)
      (fun result => (contract p s).Promises permits (WorkerEffect s) (result.map .time))
      (.start (.heartbeat jobID n token) w.clock w.store) w := by
  unfold heartbeat
  refine Contract.wp_then (wp_checkAttempt (.start _ w) rfl ?_ ?_)
  swap
  · exact fun _ _ _ _ _ => promises_error
  intro current row input attempt σ₁ w₁ h₁ _ hchecked
  have hhandling := hchecked.handling h₁ (F := jobFootprint current.job fun _ _ _ => False)
  refine Contract.wp_then ?_
  refine hhandling.wp_updateAttempt hchecked.attemptLocked hchecked.running.found rfl ?_
  intro σ₂ w₂ _ _ h₂
  refine Contract.wp_pure fun reply hreply w₃ hrely _ _ _ => ?_
  have h₃ := h₂.later (.of_rely hrely)
  obtain rfl : Reply.time (w.clock + seconds 60) = reply := Except.ok.inj hreply
  have hcall := h₃.call
  have hnow := h₃.now
  refine ⟨?_, ?_, fun hquiet => ?_⟩
  · intro jobID' n' token' hcall'
    obtain ⟨rfl, rfl, rfl⟩ := Call.heartbeat.inj (hcall.symm.trans hcall')
    rw [hnow]
    refine ⟨current.job, row, attempt, hchecked.parsed, ⟨?_, hchecked.verified⟩, rfl, ?_, ?_⟩
    · rw [h₃.base]
      exact hchecked.running
    · rw [h₃.base]
      exact h₃.view
    · exact fun other hne => h₃.others hne
  · intro jobID' n' token' progress hcall'
    cases hcall.symm.trans hcall'
  · rw [hcall] at hquiet
    exact hquiet.elim

/-- A progress report promises to replace the snapshot by a later one, if at all. -/
theorem promises_updateProgress {jobID : String} {n : ℤ} {token : String} {progress : Progress} :
    (contract p s).wp (updateProgress s jobID n token progress w.clock)
      (fun result => (contract p s).Promises permits (WorkerEffect s) (result.map fun _ => .done))
      (.start (.updateProgress jobID n token progress) w.clock w.store) w := by
  unfold updateProgress
  refine Contract.wp_then (wp_require (fun _ => ?_) fun _ => promises_error)
  refine Contract.wp_then (wp_checkAttempt (.start _ w) rfl ?_ ?_)
  swap
  · exact fun _ _ _ _ _ => promises_error
  intro current row input attempt σ₁ w₁ h₁ _ hchecked
  refine Contract.wp_then (Contract.wp_select fun σ₂ w₂ hlater₂ _ _ => ?_)
  have hheld := (hchecked.handling h₁ (F := jobFootprint current.job fun _ _ _ => False)).later hlater₂
  have hstored : (σ₂.after w₂).progress current.job = (jobView w₁.rows current.job).progress :=
    congrArg JobView.progress hheld.view
  -- the snapshot is left alone or replaced by a later one
  have hend : ∀ stored, (stored = (jobView w₁.rows current.job).progress ∨
        Supersedes (jobView w₁.rows current.job).progress n progress.sequence ∧
          stored = some (progress.row n w.clock)) → ∀ σ' w',
      Handling (jobFootprint current.job fun _ _ _ => False)
        (.start (.updateProgress jobID n token progress) w.clock w.store) σ' w' current.job
        (jobView w₁.rows current.job)
        { jobView w₁.rows current.job with progress := stored } →
      (contract p s).Promises permits (WorkerEffect s)
        ((Except.ok ()).map fun _ : Unit => .done) σ' w' := by
    intro stored hreport σ' w' h' reply _ w₃ hrely _ _ _
    have h₃ := h'.later (.of_rely hrely)
    have hcall := h₃.call
    refine ⟨?_, ?_, fun hquiet => ?_⟩
    · intro jobID' n' token' hcall'
      cases hcall.symm.trans hcall'
    · intro jobID' n' token' progress' hcall'
      obtain ⟨rfl, rfl, rfl, rfl⟩ := Call.updateProgress.inj (hcall.symm.trans hcall')
      have hprogress : w₃.rows.progress current.job = (jobView w₁.rows current.job).progress :=
        congrArg JobView.progress h₃.base
      rw [h₃.now]
      refine ⟨current.job, row, attempt, stored, hchecked.parsed, ⟨?_, hchecked.verified⟩,
        ⟨?_, fun other hne => h₃.others hne⟩, ?_⟩
      · rw [h₃.base]
        exact hchecked.running
      · rw [h₃.base]
        exact h₃.view
      · rw [hprogress]
        exact hreport
    · rw [hcall] at hquiet
      exact hquiet.elim
  dsimp only
  split
  · exact Contract.wp_pure (hend _ (.inl rfl) _ _ hheld)
  · exact Contract.wp_fail promises_error
  next hdecide =>
  rw [hstored] at hdecide
  have hwritten : ∀ σ' w', Handling (jobFootprint current.job fun _ _ _ => False)
      (.start (.updateProgress jobID n token progress) w.clock w.store) σ' w' current.job
        (jobView w₁.rows current.job) (jobView w₁.rows current.job) →
      σ'.locks (.progress current.job) = some .exclusive →
      (contract p s).Promises permits (WorkerEffect s) ((Except.ok ()).map fun _ : Unit => .done)
        (σ'.write (.progress current.job) (some (progress.row n w.clock))) w' :=
    fun σ' w' h' hlocked => hend _ (.inr ⟨fun stored hsome => decideProgress_store hdecide hsome,
      rfl⟩) _ _ (h'.writeProgress hlocked _)
  unfold upsertProgress
  refine Contract.wp_then (Contract.wp_insertRow ?_ ?_)
  · intro w₃ hrely _ _
    refine Contract.wp_lock fun σ₄ w₄ hlater₄ hlock₄ _ => ?_
    have hlocked : σ₄.locks (.progress current.job) = some .exclusive := by
      rw [hlock₄]
      exact Session.lock_locks_self σ₂ _
    exact Contract.wp_write hlocked (Contract.wp_pure
      (hwritten _ _ ((hheld.later (.of_rely hrely)).later hlater₄) hlocked))
  · intro σ₃ w₃ hlater₃ _ hlocked _ _
    exact Contract.wp_pure (hwritten _ _ (hheld.later hlater₃) hlocked)

/-- The other calls leave leases and progress alone. -/
theorem promises_quiet {call : Call} (hquiet : call.Quiet) (hinv : Consistent p s w.rows)
    (hstarts : (contract p s).Starts call w) :
    (contract p s).wp (transaction s call w.clock)
      ((contract p s).Promises permits (WorkerEffect s)) (.start call w.clock w.store) w := by
  refine Contract.wp_mono _ ?_ (Contract.wp_within quiet_transitive (within_transaction hquiet)
    (.of_writes_empty (Session.start_writes ..)) .none
    ((verified p s).calls call w hinv hstarts))
  rintro result σ w' ⟨_, hkeeps, hcall, _⟩ reply _ w'' hrely _ _ _
  have hkept : Contract.Keeps Hosted.quiet σ w'' := hkeeps.later (.of_rely hrely)
  refine ⟨?_, ?_, fun _ => hkept.allows⟩
  · intro jobID n token hcall'
    rw [show call = _ from hcall.symm.trans hcall'] at hquiet
    exact hquiet.elim
  · intro jobID n token progress hcall'
    rw [show call = _ from hcall.symm.trans hcall'] at hquiet
    exact hquiet.elim

/-- The contract of the service with what it promises about leases and progress. -/
abbrev workerContract (p : Policy) (s : Service) (permits : Session → World → Prop) :
    Contract Row Call Err Reply :=
  (contract p s).restrict permits (WorkerEffect s)

/-- Every call of the service keeps the further promises. -/
theorem worker_verified (p : Policy) (s : Service) (permits : Session → World → Prop) :
    (workerContract p s permits).Verified (transaction s) := by
  refine (verified p s).restrict fun call w hinv hstarts => ?_
  cases call with
  | heartbeat => exact wp_replying_promises promises_heartbeat
  | updateProgress => exact wp_replying_promises promises_updateProgress
  | _ => exact promises_quiet trivial hinv hstarts

/-- Every schedule permits the commits of which nothing is asked. -/
theorem worker_schedules (s : Service) :
    (workerContract unrestricted s fun _ _ => True).Schedules Anything :=
  (anything_schedules s).restrict fun _ _ _ _ _ _ _ => trivial

end Tracewake.Hosted
