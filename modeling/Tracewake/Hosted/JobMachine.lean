import Mathlib.Logic.Relation
import Tracewake.Hosted.Attempts

/-!
# The job state machine

What a job is for, without its tables: a row, numbered attempts, artifacts and a
progress snapshot that change together. Every commit changes a job by steps of this
machine. The invariants of jobs are proved here once, for the steps.
-/

namespace Tracewake.Hosted

/-- The rows that belong to one job. -/
@[ext]
structure JobView where
  job : Option JobRow
  attempts : ℤ → Option AttemptRow
  artifacts : ArtifactKind → Option ArtifactRow
  progress : Option ProgressRow

/-- The job is running its attempt `n`. -/
structure JobView.Running (v : JobView) (row : JobRow) (n : ℤ) (attempt : AttemptRow) : Prop where
  job : v.job = some row
  state : row.state = .running
  current : row.currentAttemptNumber = some n
  found : v.attempts n = some attempt
  active : attempt.state = .running

/-- An attempt that is left alone, or that was running and is cancelled. -/
def CancelsAttempt (now : Timestamp) (old new : Option AttemptRow) : Prop :=
  new = old ∨ ∃ row, old = some row ∧ row.state = .running ∧ new = some (row.cancel now)

/-- An artifact that is left alone or whose retention ends now. -/
def ExpiresArtifact (now : Timestamp) (old new : Option ArtifactRow) : Prop :=
  new = old ∨ ∃ row, old = some row ∧ new = some (row.expire now)

/-- One step of a job. In a `fenced` deployment a deletion leaves no attempt running. -/
inductive JobStep (fenced : Prop) (now : Timestamp) (v : JobView) : JobView → Prop
  /-- A job is inserted. -/
  | create (workspace input : Uuid) : v.job = none →
      JobStep fenced now v { v with job := some (.create workspace input now) }
  /-- A worker starts the next attempt of a queued job. -/
  | claim (row : JobRow) (n : ℤ) (attempt : AttemptRow) : v.job = some row →
      row.state = .queued → v.attempts n = none → 1 ≤ n → n ≤ 3 →
      (1 < n → v.attempts (n - 1) ≠ none) → attempt.state = .running →
      JobStep fenced now v { v with
        job := some (row.claim now n)
        attempts := Function.update v.attempts n (some attempt) }
  /-- The worker renews its lease. -/
  | beat (row : JobRow) (n : ℤ) (attempt : AttemptRow) : v.Running row n attempt →
      JobStep fenced now v { v with
        attempts := Function.update v.attempts n (some (attempt.beat now)) }
  /-- The worker reports progress that supersedes the stored one. -/
  | report (row : JobRow) (n : ℤ) (attempt : AttemptRow) (report : ProgressRow) :
      v.Running row n attempt → report.attemptNumber = n →
      (∀ stored, v.progress = some stored → stored.attemptNumber < n ∨
        stored.attemptNumber = n ∧ stored.sequence < report.sequence) →
      JobStep fenced now v { v with progress := some report }
  /-- The attempt is over and may be followed by another one. -/
  | retry (row : JobRow) (n : ℤ) (attempt : AttemptRow) (code message : String) :
      v.Running row n attempt → n < 3 →
      JobStep fenced now v { v with
        job := some (row.retry now (backoff n))
        attempts := Function.update v.attempts n (some (attempt.finish .fenced now code message)) }
  /-- The attempt is over and the job with it. -/
  | fail (row : JobRow) (n : ℤ) (attempt : AttemptRow) (code message : String) :
      v.Running row n attempt →
      JobStep fenced now v { v with
        job := some (row.fail now code message)
        attempts := Function.update v.attempts n (some (attempt.finish .failed now code message)) }
  /-- The attempt commits its artifacts. -/
  | succeed (row : JobRow) (n : ℤ) (attempt : AttemptRow) (result : ArtifactRow)
      (schemaName : String) (schemaVersion : ℤ)
      (artifacts : ArtifactKind → Option ArtifactRow) : v.Running row n attempt →
      result.schemaName = some schemaName → result.schemaVersion = some schemaVersion →
      (∀ kind artifact, artifacts kind = some artifact → v.artifacts kind = some artifact ∨
        artifact.authoritative = true ∧ artifact.workspace = row.workspace ∧
          artifact.attemptNumber = n) →
      JobStep fenced now v { v with
        job := some (row.succeed now result.id result.digest result.size schemaName schemaVersion)
        attempts := Function.update v.attempts n (some (attempt.succeed now))
        artifacts := artifacts }
  /-- The tenant cancels the job. -/
  | cancel (row : JobRow) (attempts : ℤ → Option AttemptRow) : v.job = some row →
      row.state.terminal = false → (∀ n, CancelsAttempt now (v.attempts n) (attempts n)) →
      (∀ n attempt, attempts n = some attempt → attempt.state ≠ .running) →
      JobStep fenced now v { v with
        job := some ((row.requestCancel now).cancel now)
        attempts := attempts }
  /-- An input run is gone, and the work on it is cancelled. -/
  | remove (row : JobRow) (attempts : ℤ → Option AttemptRow)
      (artifacts : ArtifactKind → Option ArtifactRow) : v.job = some row →
      row.state.terminal = false → (∀ n, CancelsAttempt now (v.attempts n) (attempts n)) →
      (fenced → ∀ n attempt, attempts n = some attempt → attempt.state ≠ .running) →
      (∀ kind, ExpiresArtifact now (v.artifacts kind) (artifacts kind)) →
      JobStep fenced now v { v with
        job := some (row.cancelDerived now)
        attempts := attempts
        artifacts := artifacts }
  /-- An input run is gone, and the job was over already. -/
  | sweep (row : JobRow) (attempts : ℤ → Option AttemptRow)
      (artifacts : ArtifactKind → Option ArtifactRow) : v.job = some row →
      row.state.terminal = true → (∀ n, CancelsAttempt now (v.attempts n) (attempts n)) →
      (∀ kind, ExpiresArtifact now (v.artifacts kind) (artifacts kind)) →
      JobStep fenced now v { v with attempts := attempts, artifacts := artifacts }
  /-- A due retry is queued. -/
  | requeue (row : JobRow) : v.job = some row → row.state = .retryWait →
      JobStep fenced now v { v with job := some (row.requeue now) }
  /-- A stranded job is announced again. -/
  | republish (row : JobRow) : v.job = some row → row.state = .queued →
      JobStep fenced now v { v with job := some (row.republish now) }

/-- What one commit may do to a job. -/
def JobChange (fenced : Prop) (now : Timestamp) : JobView → JobView → Prop :=
  Relation.ReflTransGen (JobStep fenced now)

/-- The attempts of a job are numbered from 1 to `k`. -/
def JobView.Numbered (v : JobView) (k : ℤ) : Prop :=
  0 ≤ k ∧ k ≤ 3 ∧ ∀ n, v.attempts n ≠ none ↔ 1 ≤ n ∧ n ≤ k

/-- No attempt of the job is running. -/
def JobView.Idle (v : JobView) : Prop :=
  ∀ n attempt, v.attempts n = some attempt → attempt.state ≠ .running

/-- The invariant of a job. -/
structure JobView.Sound (fenced : Prop) (v : JobView) : Prop where
  numbered : ∃ k, v.Numbered k
  absent : v.job = none → (∀ n, v.attempts n = none) ∧ ∀ kind, v.artifacts kind = none
  running : ∀ row, v.job = some row → row.state = .running → ∃ k attempt,
    v.Running row k attempt ∧ v.Numbered k ∧
      ∀ n attempt, v.attempts n = some attempt → attempt.state = .running → n = k
  waiting : ∀ row, v.job = some row → row.state = .queued ∨ row.state = .retryWait →
    row.currentAttemptNumber = none ∧ v.Idle ∧ v.attempts 3 = none
  terminal : fenced → ∀ row, v.job = some row → row.state.terminal = true → v.Idle
  unfinished : ∀ row, v.job = some row → row.state ≠ .succeeded → ∀ kind, v.artifacts kind = none
  artifacts : ∀ kind artifact, v.artifacts kind = some artifact →
    artifact.authoritative = true ∧ ∃ row, v.job = some row ∧ artifact.workspace = row.workspace
  version : ∀ row, v.job = some row → 1 ≤ row.rowVersion

section Rows

variable (row : JobRow) (now : Timestamp)

/-- A new job waits in the queue. -/
@[simp] theorem JobRow.create_state (workspace input : Uuid) :
    (JobRow.create workspace input now).state = .queued := rfl

/-- A new job has the input it was requested for. -/
@[simp] theorem JobRow.create_input (workspace input : Uuid) :
    (JobRow.create workspace input now).input = input := rfl

/-- A new job belongs to the workspace that requested it. -/
@[simp] theorem JobRow.create_workspace (workspace input : Uuid) :
    (JobRow.create workspace input now).workspace = workspace := rfl

/-- The versions of a job begin with 1. -/
@[simp] theorem JobRow.create_rowVersion (workspace input : Uuid) :
    (JobRow.create workspace input now).rowVersion = 1 := rfl

/-- A claimed job is running. -/
@[simp] theorem JobRow.claim_state (n : ℤ) : (row.claim now n).state = .running := rfl

/-- A job that failed for now waits for its retry. -/
@[simp] theorem JobRow.retry_state (delay : Timestamp) :
    (row.retry now delay).state = .retryWait := rfl

/-- A job that failed for good has failed. -/
@[simp] theorem JobRow.fail_state (code message : String) :
    (row.fail now code message).state = .failed := rfl

/-- A completed job has succeeded. -/
@[simp] theorem JobRow.succeed_state (id : Uuid) (digest : String) (size : ℤ) (name : String)
    (version : ℤ) : (row.succeed now id digest size name version).state = .succeeded := rfl

/-- A request for cancellation alone leaves the job in its state. -/
@[simp] theorem JobRow.requestCancel_state : (row.requestCancel now).state = row.state := rfl

/-- A cancelled job is cancelled. -/
@[simp] theorem JobRow.cancel_state : (row.cancel now).state = .cancelled := rfl

/-- A job that is cancelled with its run is cancelled. -/
@[simp] theorem JobRow.cancelDerived_state : (row.cancelDerived now).state = .cancelled := rfl

/-- A retry that is due goes back to the queue. -/
@[simp] theorem JobRow.requeue_state : (row.requeue now).state = .queued := rfl

/-- Announcing a job again leaves it in its state. -/
@[simp] theorem JobRow.republish_state : (row.republish now).state = row.state := rfl

/-- A heartbeat leaves the attempt in its state. -/
@[simp] theorem AttemptRow.beat_state (attempt : AttemptRow) :
    (attempt.beat now).state = attempt.state := rfl

/-- An attempt ends in the state it is given. -/
@[simp] theorem AttemptRow.finish_state (attempt : AttemptRow) (state : AttemptState)
    (code message : String) : (attempt.finish state now code message).state = state := rfl

/-- A completed attempt has succeeded. -/
@[simp] theorem AttemptRow.succeed_state (attempt : AttemptRow) :
    (attempt.succeed now).state = .succeeded := rfl

/-- A cancelled attempt is cancelled. -/
@[simp] theorem AttemptRow.cancel_state (attempt : AttemptRow) :
    (attempt.cancel now).state = .cancelled := rfl

/-- An artifact that expires stays authoritative. -/
@[simp] theorem ArtifactRow.expire_authoritative (artifact : ArtifactRow) :
    (artifact.expire now).authoritative = artifact.authoritative := rfl

/-- An artifact that expires stays in its workspace. -/
@[simp] theorem ArtifactRow.expire_workspace (artifact : ArtifactRow) :
    (artifact.expire now).workspace = artifact.workspace := rfl

/-- A queued job may still change its state. -/
@[simp] theorem JobState.terminal_queued : JobState.queued.terminal = false := rfl

/-- A running job may still change its state. -/
@[simp] theorem JobState.terminal_running : JobState.running.terminal = false := rfl

/-- A job that waits for a retry may still change its state. -/
@[simp] theorem JobState.terminal_retryWait : JobState.retryWait.terminal = false := rfl

/-- A job that has succeeded is over. -/
@[simp] theorem JobState.terminal_succeeded : JobState.succeeded.terminal = true := rfl

/-- A job that has failed is over. -/
@[simp] theorem JobState.terminal_failed : JobState.failed.terminal = true := rfl

/-- A cancelled job is over. -/
@[simp] theorem JobState.terminal_cancelled : JobState.cancelled.terminal = true := rfl

end Rows

/-- A nonterminal job is queued, running, or waiting for a retry. -/
theorem JobState.of_not_terminal {state : JobState} (h : state.terminal = false) :
    state = .queued ∨ state = .running ∨ state = .retryWait := by
  cases state <;> simp_all

/-- A job can be cancelled exactly while it is not over. -/
theorem JobRow.cancellable_iff (row : JobRow) :
    row.cancellable = true ↔ row.state.terminal = false := by
  cases hstate : row.state <;> simp [JobRow.cancellable, hstate]

section Steps

variable {fenced : Prop} {now : Timestamp} {v v' : JobView}

/-- An attempt that was cancelled or left alone exists as before. -/
theorem CancelsAttempt.ne_none_iff {old new : Option AttemptRow} (h : CancelsAttempt now old new) :
    new ≠ none ↔ old ≠ none := by
  rcases h with rfl | ⟨row, rfl, _, rfl⟩
  · rfl
  · simp

/-- Cancelling makes no attempt run. -/
theorem CancelsAttempt.running {old new : Option AttemptRow} (h : CancelsAttempt now old new)
    {attempt : AttemptRow} (hnew : new = some attempt) (hstate : attempt.state = .running) :
    old = some attempt := by
  rcases h with rfl | ⟨row, rfl, _, rfl⟩
  · exact hnew
  · obtain rfl := Option.some.inj hnew
    simp at hstate

/-- A replaced attempt exists as before. -/
theorem JobView.Running.update_ne_none {row : JobRow} {n : ℤ} {attempt : AttemptRow}
    (h : v.Running row n attempt) (new : AttemptRow) (m : ℤ) :
    Function.update v.attempts n (some new) m ≠ none ↔ v.attempts m ≠ none := by
  by_cases hm : m = n
  · subst hm
    simp [h.found]
  · simp [hm]

/-- Ending the running attempt of a sound job leaves none running. -/
theorem JobView.Sound.idle_update (h : v.Sound fenced) {row : JobRow} {n : ℤ}
    {attempt : AttemptRow} (hrunning : v.Running row n attempt) (new : AttemptRow)
    (hnew : new.state ≠ .running) :
    ∀ m other, Function.update v.attempts n (some new) m = some other →
      other.state ≠ .running := by
  intro m other hother
  by_cases hm : m = n
  · subst hm
    rw [Function.update_self] at hother
    obtain rfl := Option.some.inj hother
    exact hnew
  · rw [Function.update_of_ne hm] at hother
    obtain ⟨k, _, hk, _, honly⟩ := h.running row hrunning.job hrunning.state
    have hnk : n = k := Option.some.inj (hrunning.current.symm.trans hk.current)
    intro hstate
    exact hm ((honly m other hother hstate).trans hnk.symm)

/-- The number of attempts does not change when the same attempts exist. -/
theorem JobView.Numbered.congr {k : ℤ} (h : v.Numbered k)
    (hattempts : ∀ n, v'.attempts n ≠ none ↔ v.attempts n ≠ none) : v'.Numbered k :=
  ⟨h.1, h.2.1, fun n => (hattempts n).trans (h.2.2 n)⟩

/-- A third attempt is the last one. -/
theorem JobView.Numbered.attempts_three {k : ℤ} (h : v.Numbered k) (hk : k < 3) :
    v.attempts 3 = none := by
  by_contra hne
  have := ((h.2.2 3).mp hne).2
  omega

/-! ### Sound jobs by their state -/

/-- A job that waits for a worker is sound when no attempt runs, the last one is left, and it
has no artifacts. -/
theorem JobView.Sound.of_waiting {k : ℤ} {row : JobRow} (hnumbered : v.Numbered k)
    (hjob : v.job = some row) (hstate : row.state = .queued ∨ row.state = .retryWait)
    (hcurrent : row.currentAttemptNumber = none) (hidle : v.Idle) (hthree : v.attempts 3 = none)
    (hartifacts : ∀ kind, v.artifacts kind = none) (hversion : 1 ≤ row.rowVersion) :
    v.Sound fenced where
  numbered := ⟨k, hnumbered⟩
  absent hnone := by simp [hjob] at hnone
  running other hother hrunning := by
    obtain rfl := Option.some.inj (hjob.symm.trans hother)
    simp [hrunning] at hstate
  waiting other hother _ := by
    obtain rfl := Option.some.inj (hjob.symm.trans hother)
    exact ⟨hcurrent, hidle, hthree⟩
  terminal _ _ _ _ := hidle
  unfinished _ _ _ kind := hartifacts kind
  artifacts kind artifact hartifact := by simp [hartifacts kind] at hartifact
  version other hother := by
    obtain rfl := Option.some.inj (hjob.symm.trans hother)
    exact hversion

/-- A job that runs its last attempt, and no other one, is sound when it has no artifacts. -/
theorem JobView.Sound.of_running {k : ℤ} {row : JobRow} {attempt : AttemptRow}
    (hnumbered : v.Numbered k) (hrunning : v.Running row k attempt)
    (honly : ∀ n other, v.attempts n = some other → other.state = .running → n = k)
    (hartifacts : ∀ kind, v.artifacts kind = none) (hversion : 1 ≤ row.rowVersion) :
    v.Sound fenced where
  numbered := ⟨k, hnumbered⟩
  absent hnone := by simp [hrunning.job] at hnone
  running other hother _ := by
    obtain rfl := Option.some.inj (hrunning.job.symm.trans hother)
    exact ⟨k, attempt, hrunning, hnumbered, honly⟩
  waiting other hother hwaiting := by
    obtain rfl := Option.some.inj (hrunning.job.symm.trans hother)
    simp [hrunning.state] at hwaiting
  terminal _ other hother hterminal := by
    obtain rfl := Option.some.inj (hrunning.job.symm.trans hother)
    simp [hrunning.state] at hterminal
  unfinished _ _ _ kind := hartifacts kind
  artifacts kind artifact hartifact := by simp [hartifacts kind] at hartifact
  version other hother := by
    obtain rfl := Option.some.inj (hrunning.job.symm.trans hother)
    exact hversion

/-- A job that has an artifact has succeeded. -/
theorem JobView.Sound.succeeded_of_artifact (h : v.Sound fenced) {kind : ArtifactKind}
    {artifact : ArtifactRow} (hartifact : v.artifacts kind = some artifact) :
    ∃ row, v.job = some row ∧ row.state = .succeeded := by
  obtain ⟨_, row, hrow, _⟩ := h.artifacts kind artifact hartifact
  refine ⟨row, hrow, ?_⟩
  by_contra hne
  simp [h.unfinished row hrow hne kind] at hartifact

/-- A job that is over is sound when no attempt runs, where that is asked for, and its artifacts
are those of a success. -/
theorem JobView.Sound.of_terminal {k : ℤ} {row : JobRow} (hnumbered : v.Numbered k)
    (hjob : v.job = some row) (hterminal : row.state.terminal = true) (hidle : fenced → v.Idle)
    (hunfinished : row.state ≠ .succeeded → ∀ kind, v.artifacts kind = none)
    (hartifacts : ∀ kind artifact, v.artifacts kind = some artifact →
      artifact.authoritative = true ∧ artifact.workspace = row.workspace)
    (hversion : 1 ≤ row.rowVersion) : v.Sound fenced where
  numbered := ⟨k, hnumbered⟩
  absent hnone := by simp [hjob] at hnone
  running other hother hrunning := by
    obtain rfl := Option.some.inj (hjob.symm.trans hother)
    simp [hrunning] at hterminal
  waiting other hother hwaiting := by
    obtain rfl := Option.some.inj (hjob.symm.trans hother)
    rcases hwaiting with hqueued | hretry
    · simp [hqueued] at hterminal
    · simp [hretry] at hterminal
  terminal hfenced _ _ _ := hidle hfenced
  unfinished other hother hne := by
    obtain rfl := Option.some.inj (hjob.symm.trans hother)
    exact hunfinished hne
  artifacts kind artifact hartifact :=
    ⟨(hartifacts kind artifact hartifact).1, row, hjob, (hartifacts kind artifact hartifact).2⟩
  version other hother := by
    obtain rfl := Option.some.inj (hjob.symm.trans hother)
    exact hversion

/-- A job that is not over has no artifacts. -/
theorem JobView.Sound.no_artifacts (h : v.Sound fenced) {row : JobRow} (hjob : v.job = some row)
    (hstate : row.state.terminal = false) (kind : ArtifactKind) : v.artifacts kind = none := by
  refine h.unfinished row hjob ?_ kind
  intro hsucceeded
  simp [hsucceeded] at hstate

/-- The attempt that a sound job runs is its last one. -/
theorem JobView.Sound.last_running (h : v.Sound fenced) {row : JobRow} {n : ℤ}
    {attempt : AttemptRow} (hrunning : v.Running row n attempt) :
    v.Numbered n ∧ ∀ m other, v.attempts m = some other → other.state = .running → m = n := by
  obtain ⟨k, current, hk, hnumbered, honly⟩ := h.running row hrunning.job hrunning.state
  obtain rfl : n = k := Option.some.inj (hrunning.current.symm.trans hk.current)
  exact ⟨hnumbered, honly⟩

/-- A running job is not over. -/
theorem JobView.Running.not_terminal {row : JobRow} {n : ℤ} {attempt : AttemptRow}
    (h : v.Running row n attempt) : row.state.terminal = false := by
  rw [h.state]
  rfl

/-! ### The transitions -/

/-- A new job waits for its first attempt. -/
theorem JobView.Sound.create (h : v.Sound fenced) (workspace input : Uuid) (hjob : v.job = none) :
    JobView.Sound fenced { v with job := some (.create workspace input now) } := by
  obtain ⟨hattempts, hartifacts⟩ := h.absent hjob
  obtain ⟨k, hk⟩ := h.numbered
  refine .of_waiting (hk.congr fun _ => Iff.rfl) rfl (.inl rfl) rfl ?_ (hattempts 3) hartifacts ?_
  · intro n attempt hn
    simp [hattempts n] at hn
  · simp

/-- A worker claims the attempt that comes after the last one. -/
theorem JobView.Sound.claim (h : v.Sound fenced) {row : JobRow} {n : ℤ} {attempt : AttemptRow}
    (hjob : v.job = some row) (hstate : row.state = .queued) (hfree : v.attempts n = none)
    (hlow : 1 ≤ n) (hhigh : n ≤ 3) (hprevious : 1 < n → v.attempts (n - 1) ≠ none)
    (hactive : attempt.state = .running) :
    JobView.Sound fenced { v with
      job := some (row.claim now n)
      attempts := Function.update v.attempts n (some attempt) } := by
  obtain ⟨k, hk⟩ := h.numbered
  obtain ⟨-, hidle, -⟩ := h.waiting row hjob (.inl hstate)
  have hn : n = k + 1 := by
    have hnot : ¬ (1 ≤ n ∧ n ≤ k) := fun hle => absurd hfree ((hk.2.2 n).mpr hle)
    rcases Int.lt_or_le 1 n with hlt | hle
    · have := ((hk.2.2 (n - 1)).mp (hprevious hlt)).2
      omega
    · have := hk.1
      omega
  have hnumbered : ∀ m, Function.update v.attempts n (some attempt) m ≠ none ↔
      1 ≤ m ∧ m ≤ n := by
    intro m
    by_cases hm : m = n
    · subst hm
      simp only [Function.update_self]
      simp [hlow]
    · rw [Function.update_of_ne hm, hk.2.2 m]
      omega
  refine .of_running (k := n) ⟨by omega, hhigh, hnumbered⟩
    (⟨rfl, rfl, rfl, by simp, hactive⟩ : JobView.Running _ _ n attempt) ?_ (h.no_artifacts hjob (by simp [hstate])) ?_
  · intro m other hother hrunning
    by_contra hm
    simp only [Function.update_of_ne hm] at hother
    exact hidle m other hother hrunning
  · have := h.version row hjob
    simp only [JobRow.claim]
    omega

/-- The attempt that beats goes on running. -/
theorem JobView.Sound.beat (h : v.Sound fenced) {row : JobRow} {n : ℤ} {attempt : AttemptRow}
    (hrunning : v.Running row n attempt) :
    JobView.Sound fenced { v with
      attempts := Function.update v.attempts n (some (attempt.beat now)) } := by
  obtain ⟨hnumbered, honly⟩ := h.last_running hrunning
  have hbeats : JobView.Running { v with
      attempts := Function.update v.attempts n (some (attempt.beat now)) } row n
        (attempt.beat now) :=
    ⟨hrunning.job, hrunning.state, hrunning.current, by simp, by simp [hrunning.active]⟩
  refine .of_running (hnumbered.congr (hrunning.update_ne_none (attempt.beat now))) hbeats ?_
    (h.no_artifacts hrunning.job hrunning.not_terminal) (h.version row hrunning.job)
  intro m other hother hactive
  by_cases hm : m = n
  · exact hm
  · simp only [Function.update_of_ne hm] at hother
    exact honly m other hother hactive

/-- A report changes the snapshot alone. -/
theorem JobView.Sound.report (h : v.Sound fenced) {row : JobRow} {n : ℤ} {attempt : AttemptRow}
    (hrunning : v.Running row n attempt) (report : ProgressRow) :
    JobView.Sound fenced { v with progress := some report } := by
  obtain ⟨hnumbered, honly⟩ := h.last_running hrunning
  exact .of_running (hnumbered.congr fun _ => Iff.rfl)
    ⟨hrunning.job, hrunning.state, hrunning.current, hrunning.found, hrunning.active⟩ honly
    (h.no_artifacts hrunning.job hrunning.not_terminal) (h.version row hrunning.job)

/-- An attempt before the third one ends, and the job waits for the next. -/
theorem JobView.Sound.retry (h : v.Sound fenced) {row : JobRow} {n : ℤ} {attempt : AttemptRow}
    (code message : String) (hrunning : v.Running row n attempt) (hn : n < 3) :
    JobView.Sound fenced { v with
      job := some (row.retry now (backoff n))
      attempts := Function.update v.attempts n (some (attempt.finish .fenced now code message)) } := by
  have hexists := hrunning.update_ne_none (attempt.finish .fenced now code message)
  have hnumbered := (h.last_running hrunning).1
  refine .of_waiting (hnumbered.congr hexists) rfl (.inr rfl) rfl
    (h.idle_update hrunning (attempt.finish .fenced now code message) (by simp)) ?_
    (h.no_artifacts hrunning.job hrunning.not_terminal) ?_
  · exact JobView.Numbered.attempts_three (hnumbered.congr hexists) hn
  · have := h.version row hrunning.job
    simp only [JobRow.retry]
    omega

/-- An attempt fails, and the job with it. -/
theorem JobView.Sound.fail (h : v.Sound fenced) {row : JobRow} {n : ℤ} {attempt : AttemptRow}
    (code message : String) (hrunning : v.Running row n attempt) :
    JobView.Sound fenced { v with
      job := some (row.fail now code message)
      attempts := Function.update v.attempts n (some (attempt.finish .failed now code message)) } := by
  have hartifacts := h.no_artifacts hrunning.job hrunning.not_terminal
  obtain ⟨k, hk⟩ := h.numbered
  refine .of_terminal (hk.congr (hrunning.update_ne_none _)) rfl rfl
    (fun _ => h.idle_update hrunning (attempt.finish .failed now code message) (by simp))
    (fun _ => hartifacts) ?_ ?_
  · intro kind artifact hartifact
    simp [hartifacts kind] at hartifact
  · have := h.version row hrunning.job
    simp only [JobRow.fail]
    omega

/-- An attempt succeeds with artifacts of its own. -/
theorem JobView.Sound.succeed (h : v.Sound fenced) {row : JobRow} {n : ℤ} {attempt : AttemptRow}
    (result : ArtifactRow) (schemaName : String) (schemaVersion : ℤ)
    {artifacts : ArtifactKind → Option ArtifactRow} (hrunning : v.Running row n attempt)
    (hartifacts : ∀ kind artifact, artifacts kind = some artifact →
      v.artifacts kind = some artifact ∨ artifact.authoritative = true ∧
        artifact.workspace = row.workspace ∧ artifact.attemptNumber = n) :
    JobView.Sound fenced { v with
      job := some (row.succeed now result.id result.digest result.size schemaName schemaVersion)
      attempts := Function.update v.attempts n (some (attempt.succeed now))
      artifacts := artifacts } := by
  obtain ⟨k, hk⟩ := h.numbered
  refine .of_terminal (hk.congr (hrunning.update_ne_none _)) rfl rfl
    (fun _ => h.idle_update hrunning (attempt.succeed now) (by simp)) ?_ ?_ ?_
  · intro hstate
    simp at hstate
  · intro kind artifact hartifact
    have hnone := h.no_artifacts hrunning.job hrunning.not_terminal kind
    rcases hartifacts kind artifact hartifact with hold | ⟨hauthoritative, hworkspace, _⟩
    · simp [hnone] at hold
    · exact ⟨hauthoritative, hworkspace⟩
  · have := h.version row hrunning.job
    simp only [JobRow.succeed]
    omega

/-- The tenant cancels a job with the attempt that it runs. -/
theorem JobView.Sound.cancel (h : v.Sound fenced) {row : JobRow}
    {attempts : ℤ → Option AttemptRow} (hjob : v.job = some row)
    (hstate : row.state.terminal = false)
    (hcancels : ∀ n, CancelsAttempt now (v.attempts n) (attempts n))
    (hidle : ∀ n attempt, attempts n = some attempt → attempt.state ≠ .running) :
    JobView.Sound fenced { v with
      job := some ((row.requestCancel now).cancel now)
      attempts := attempts } := by
  have hartifacts := h.no_artifacts hjob hstate
  obtain ⟨k, hk⟩ := h.numbered
  refine .of_terminal (hk.congr fun n => (hcancels n).ne_none_iff) rfl rfl (fun _ => hidle)
    (fun _ => hartifacts) ?_ ?_
  · intro kind artifact hartifact
    simp [hartifacts kind] at hartifact
  · have := h.version row hjob
    simp only [JobRow.cancel, JobRow.requestCancel]
    omega

/-- An artifact that is not there does not come by expiring. -/
theorem ExpiresArtifact.eq_none {old new : Option ArtifactRow} (h : ExpiresArtifact now old new)
    (hold : old = none) : new = none := by
  rcases h with heq | ⟨artifact, hsome, _⟩
  · rw [heq, hold]
  · simp [hold] at hsome

/-- The work on an input that is gone is cancelled. -/
theorem JobView.Sound.remove (h : v.Sound fenced) {row : JobRow}
    {attempts : ℤ → Option AttemptRow} {artifacts : ArtifactKind → Option ArtifactRow}
    (hjob : v.job = some row) (hstate : row.state.terminal = false)
    (hcancels : ∀ n, CancelsAttempt now (v.attempts n) (attempts n))
    (hidle : fenced → ∀ n attempt, attempts n = some attempt → attempt.state ≠ .running)
    (hexpires : ∀ kind, ExpiresArtifact now (v.artifacts kind) (artifacts kind)) :
    JobView.Sound fenced { v with
      job := some (row.cancelDerived now)
      attempts := attempts
      artifacts := artifacts } := by
  have hnone kind := (hexpires kind).eq_none (h.no_artifacts hjob hstate kind)
  obtain ⟨k, hk⟩ := h.numbered
  refine .of_terminal (hk.congr fun n => (hcancels n).ne_none_iff) rfl rfl hidle
    (fun _ => hnone) ?_ ?_
  · intro kind artifact hartifact
    simp [hnone kind] at hartifact
  · have := h.version row hjob
    simp only [JobRow.cancelDerived]
    omega

/-- A job that is over keeps its row when its input goes. -/
theorem JobView.Sound.sweep (h : v.Sound fenced) {row : JobRow}
    {attempts : ℤ → Option AttemptRow} {artifacts : ArtifactKind → Option ArtifactRow}
    (hjob : v.job = some row) (hterminal : row.state.terminal = true)
    (hcancels : ∀ n, CancelsAttempt now (v.attempts n) (attempts n))
    (hexpires : ∀ kind, ExpiresArtifact now (v.artifacts kind) (artifacts kind)) :
    JobView.Sound fenced { v with attempts := attempts, artifacts := artifacts } := by
  obtain ⟨k, hk⟩ := h.numbered
  refine .of_terminal (hk.congr fun n => (hcancels n).ne_none_iff) hjob hterminal ?_ ?_ ?_
    (h.version row hjob)
  · intro hfenced n attempt hattempt hrunning
    exact h.terminal hfenced row hjob hterminal n attempt
      ((hcancels n).running hattempt hrunning) hrunning
  · intro hne kind
    exact (hexpires kind).eq_none (h.unfinished row hjob hne kind)
  · intro kind artifact hartifact
    have hold : ∀ old, v.artifacts kind = some old →
        old.authoritative = true ∧ old.workspace = row.workspace := by
      intro old hsome
      obtain ⟨hauthoritative, other, hother, hworkspace⟩ := h.artifacts kind old hsome
      obtain rfl := Option.some.inj (hjob.symm.trans hother)
      exact ⟨hauthoritative, hworkspace⟩
    rcases hexpires kind with heq | ⟨old, hsome, hnew⟩
    · exact hold artifact (heq.symm.trans hartifact)
    · obtain rfl := Option.some.inj (hnew.symm.trans hartifact)
      exact hold old hsome

/-- A retry that is due waits for a worker. -/
theorem JobView.Sound.requeue (h : v.Sound fenced) {row : JobRow} (hjob : v.job = some row)
    (hstate : row.state = .retryWait) :
    JobView.Sound fenced { v with job := some (row.requeue now) } := by
  obtain ⟨hcurrent, hidle, hthree⟩ := h.waiting row hjob (.inr hstate)
  obtain ⟨k, hk⟩ := h.numbered
  refine .of_waiting (hk.congr fun _ => Iff.rfl) rfl (.inl rfl) hcurrent hidle hthree
    (h.no_artifacts hjob (by simp [hstate])) ?_
  have := h.version row hjob
  simp only [JobRow.requeue]
  omega

/-- A job that is announced again goes on waiting. -/
theorem JobView.Sound.republish (h : v.Sound fenced) {row : JobRow} (hjob : v.job = some row)
    (hstate : row.state = .queued) :
    JobView.Sound fenced { v with job := some (row.republish now) } := by
  obtain ⟨hcurrent, hidle, hthree⟩ := h.waiting row hjob (.inl hstate)
  obtain ⟨k, hk⟩ := h.numbered
  refine .of_waiting (hk.congr fun _ => Iff.rfl) rfl (.inl hstate) hcurrent hidle hthree
    (h.no_artifacts hjob (by simp [hstate])) ?_
  have := h.version row hjob
  simp only [JobRow.republish]
  omega

/-- Every step keeps the invariant of a job: one lemma for each transition. -/
theorem JobStep.sound (hstep : JobStep fenced now v v') (h : v.Sound fenced) :
    v'.Sound fenced := by
  cases hstep with
  | create workspace input hjob => exact h.create workspace input hjob
  | claim row n attempt hjob hstate hfree hlow hhigh hprevious hactive =>
    exact h.claim hjob hstate hfree hlow hhigh hprevious hactive
  | beat row n attempt hrunning => exact h.beat hrunning
  | report row n attempt report hrunning _ _ => exact h.report hrunning report
  | retry row n attempt code message hrunning hn => exact h.retry code message hrunning hn
  | fail row n attempt code message hrunning => exact h.fail code message hrunning
  | succeed row n attempt result schemaName schemaVersion artifacts hrunning _ _ hartifacts =>
    exact h.succeed result schemaName schemaVersion hrunning hartifacts
  | cancel row attempts hjob hstate hcancels hidle => exact h.cancel hjob hstate hcancels hidle
  | remove row attempts artifacts hjob hstate hcancels hidle hexpires =>
    exact h.remove hjob hstate hcancels hidle hexpires
  | sweep row attempts artifacts hjob hterminal hcancels hexpires =>
    exact h.sweep hjob hterminal hcancels hexpires
  | requeue row hjob hstate => exact h.requeue hjob hstate
  | republish row hjob hstate => exact h.republish hjob hstate

/-- A job stays in its workspace and on its input, and every change of its row
increases the version. -/
theorem JobStep.job_some (hstep : JobStep fenced now v v') {row : JobRow}
    (hjob : v.job = some row) : ∃ row', v'.job = some row' ∧ row'.workspace = row.workspace ∧
      row'.input = row.input ∧ (row' = row ∨ row.rowVersion < row'.rowVersion) := by
  cases hstep with
  | create workspace input hnone => simp [hnone] at hjob
  | beat => exact ⟨row, hjob, rfl, rfl, .inl rfl⟩
  | report => exact ⟨row, hjob, rfl, rfl, .inl rfl⟩
  | sweep => exact ⟨row, hjob, rfl, rfl, .inl rfl⟩
  | claim old n attempt hold =>
    obtain rfl := Option.some.inj (hold.symm.trans hjob)
    exact ⟨_, rfl, rfl, rfl, .inr (by simp [JobRow.claim])⟩
  | retry old n attempt code message hrunning =>
    obtain rfl := Option.some.inj (hrunning.job.symm.trans hjob)
    exact ⟨_, rfl, rfl, rfl, .inr (by simp [JobRow.retry])⟩
  | fail old n attempt code message hrunning =>
    obtain rfl := Option.some.inj (hrunning.job.symm.trans hjob)
    exact ⟨_, rfl, rfl, rfl, .inr (by simp [JobRow.fail])⟩
  | succeed old n attempt result name version artifacts hrunning =>
    obtain rfl := Option.some.inj (hrunning.job.symm.trans hjob)
    exact ⟨_, rfl, rfl, rfl, .inr (by simp [JobRow.succeed])⟩
  | cancel old attempts hold =>
    obtain rfl := Option.some.inj (hold.symm.trans hjob)
    refine ⟨_, rfl, rfl, rfl, .inr ?_⟩
    simp only [JobRow.cancel, JobRow.requestCancel]
    omega
  | remove old attempts artifacts hold =>
    obtain rfl := Option.some.inj (hold.symm.trans hjob)
    exact ⟨_, rfl, rfl, rfl, .inr (by simp [JobRow.cancelDerived])⟩
  | requeue old hold =>
    obtain rfl := Option.some.inj (hold.symm.trans hjob)
    exact ⟨_, rfl, rfl, rfl, .inr (by simp [JobRow.requeue])⟩
  | republish old hold =>
    obtain rfl := Option.some.inj (hold.symm.trans hjob)
    exact ⟨_, rfl, rfl, rfl, .inr (by simp [JobRow.republish])⟩

/-- A terminal job keeps its row, and its artifacts only expire. -/
theorem JobStep.terminal (hstep : JobStep fenced now v v') {row : JobRow}
    (hjob : v.job = some row) (hterminal : row.state.terminal = true) :
    v'.job = some row ∧ ∀ kind, ExpiresArtifact now (v.artifacts kind) (v'.artifacts kind) := by
  have hnot : ∀ {other : JobRow}, v.job = some other → other.state.terminal = false → False := by
    intro other hother hfalse
    obtain rfl := Option.some.inj (hother.symm.trans hjob)
    simp [hterminal] at hfalse
  cases hstep with
  | create workspace input hnone => simp [hnone] at hjob
  | beat old n attempt hrunning => exact (hnot hrunning.job (by simp [hrunning.state])).elim
  | report old n attempt report hrunning =>
    exact (hnot hrunning.job (by simp [hrunning.state])).elim
  | sweep old attempts artifacts _ _ _ hexpires => exact ⟨hjob, hexpires⟩
  | claim old n attempt hold hstate => exact (hnot hold (by simp [hstate])).elim
  | retry old n attempt code message hrunning =>
    exact (hnot hrunning.job (by simp [hrunning.state])).elim
  | fail old n attempt code message hrunning =>
    exact (hnot hrunning.job (by simp [hrunning.state])).elim
  | succeed old n attempt result name version artifacts hrunning =>
    exact (hnot hrunning.job (by simp [hrunning.state])).elim
  | cancel old attempts hold hstate => exact (hnot hold hstate).elim
  | remove old attempts artifacts hold hstate => exact (hnot hold hstate).elim
  | requeue old hold hstate => exact (hnot hold (by simp [hstate])).elim
  | republish old hold hstate => exact (hnot hold (by simp [hstate])).elim

/-- Attempts are never removed. -/
theorem JobStep.attempts (hstep : JobStep fenced now v v') {n : ℤ} (hn : v.attempts n ≠ none) :
    v'.attempts n ≠ none := by
  cases hstep with
  | create => exact hn
  | report => exact hn
  | requeue => exact hn
  | republish => exact hn
  | claim row m attempt =>
    by_cases hm : n = m
    · simp [hm]
    · simpa [hm] using hn
  | beat row m attempt hrunning => exact (hrunning.update_ne_none _ n).mpr hn
  | retry row m attempt code message hrunning => exact (hrunning.update_ne_none _ n).mpr hn
  | fail row m attempt code message hrunning => exact (hrunning.update_ne_none _ n).mpr hn
  | succeed row m attempt result name version artifacts hrunning =>
    exact (hrunning.update_ne_none _ n).mpr hn
  | cancel row attempts _ _ hcancels => exact (hcancels n).ne_none_iff.mpr hn
  | remove row attempts artifacts _ _ hcancels => exact (hcancels n).ne_none_iff.mpr hn
  | sweep row attempts artifacts _ _ hcancels => exact (hcancels n).ne_none_iff.mpr hn

/-- Only attempts that run go on running. -/
theorem JobStep.attempt_running (hstep : JobStep fenced now v v') {n : ℤ} (hn : v.attempts n ≠ none)
    {attempt : AttemptRow} (hnew : v'.attempts n = some attempt) (hstate : attempt.state = .running) :
    ∃ old, v.attempts n = some old ∧ old.state = .running := by
  have hupdate : ∀ {row m old new}, v.Running row m old →
      Function.update v.attempts m (some new) n = some attempt →
      ∃ old, v.attempts n = some old ∧ old.state = .running := by
    intro row m old new hrunning hnew
    by_cases hm : n = m
    · subst hm
      exact ⟨old, hrunning.found, hrunning.active⟩
    · rw [Function.update_of_ne hm] at hnew
      exact ⟨attempt, hnew, hstate⟩
  cases hstep with
  | create => exact ⟨attempt, hnew, hstate⟩
  | report => exact ⟨attempt, hnew, hstate⟩
  | requeue => exact ⟨attempt, hnew, hstate⟩
  | republish => exact ⟨attempt, hnew, hstate⟩
  | claim row m first _ _ hnone =>
    by_cases hm : n = m
    · exact absurd (hm ▸ hnone) hn
    · dsimp only at hnew
      rw [Function.update_of_ne hm] at hnew
      exact ⟨attempt, hnew, hstate⟩
  | beat row m old hrunning => exact hupdate hrunning hnew
  | retry row m old code message hrunning => exact hupdate hrunning hnew
  | fail row m old code message hrunning => exact hupdate hrunning hnew
  | succeed row m old result name version artifacts hrunning => exact hupdate hrunning hnew
  | cancel row attempts _ _ hcancels => exact ⟨attempt, (hcancels n).running hnew hstate, hstate⟩
  | remove row attempts artifacts _ _ hcancels =>
    exact ⟨attempt, (hcancels n).running hnew hstate, hstate⟩
  | sweep row attempts artifacts _ _ hcancels =>
    exact ⟨attempt, (hcancels n).running hnew hstate, hstate⟩

/-- Every commit keeps the invariant of a job. -/
theorem JobChange.sound (h : JobChange fenced now v v') (hv : v.Sound fenced) :
    v'.Sound fenced := by
  induction h with
  | refl => exact hv
  | tail _ hstep ih => exact hstep.sound ih

/-- A job that exists goes on existing in its workspace and over its input, and a changed
row has a later version. By induction on the steps of the commit. -/
theorem JobChange.job_some (h : JobChange fenced now v v') {row : JobRow}
    (hjob : v.job = some row) : ∃ row', v'.job = some row' ∧ row'.workspace = row.workspace ∧
      row'.input = row.input ∧ (row' = row ∨ row.rowVersion < row'.rowVersion) := by
  induction h with
  | refl => exact ⟨row, hjob, rfl, rfl, .inl rfl⟩
  | tail _ hstep ih =>
    obtain ⟨row₁, hrow₁, hworkspace₁, hinput₁, hversion₁⟩ := ih
    obtain ⟨row₂, hrow₂, hworkspace₂, hinput₂, hversion₂⟩ := hstep.job_some hrow₁
    refine ⟨row₂, hrow₂, hworkspace₂.trans hworkspace₁, hinput₂.trans hinput₁, ?_⟩
    rcases hversion₂ with rfl | hlt
    · exact hversion₁
    · rcases hversion₁ with rfl | hlt₁
      · exact .inr hlt
      · exact .inr (hlt₁.trans hlt)

/-- Expiring an artifact twice is expiring it once. -/
theorem ExpiresArtifact.trans {a b c : Option ArtifactRow} (h : ExpiresArtifact now a b)
    (h' : ExpiresArtifact now b c) : ExpiresArtifact now a c := by
  rcases h with rfl | ⟨row, rfl, rfl⟩
  · exact h'
  · rcases h' with rfl | ⟨row', hrow', rfl⟩
    · exact .inr ⟨row, rfl, rfl⟩
    · obtain rfl := Option.some.inj hrow'
      exact .inr ⟨row, rfl, rfl⟩

/-- A job that is over keeps its row, and its artifacts can only expire. -/
theorem JobChange.terminal (h : JobChange fenced now v v') {row : JobRow}
    (hjob : v.job = some row) (hterminal : row.state.terminal = true) :
    v'.job = some row ∧ ∀ kind, ExpiresArtifact now (v.artifacts kind) (v'.artifacts kind) := by
  induction h with
  | refl => exact ⟨hjob, fun kind => .inl rfl⟩
  | tail _ hstep ih =>
    obtain ⟨hjob', hexpires⟩ := hstep.terminal ih.1 hterminal
    exact ⟨hjob', fun kind => (ih.2 kind).trans (hexpires kind)⟩

/-- An attempt that exists goes on existing. -/
theorem JobChange.attempts (h : JobChange fenced now v v') {n : ℤ} (hn : v.attempts n ≠ none) :
    v'.attempts n ≠ none := by
  induction h with
  | refl => exact hn
  | tail _ hstep ih => exact hstep.attempts ih

/-- An old attempt that runs afterwards was running before. -/
theorem JobChange.attempt_running (h : JobChange fenced now v v') {n : ℤ}
    (hn : v.attempts n ≠ none) {attempt : AttemptRow} (hnew : v'.attempts n = some attempt)
    (hstate : attempt.state = .running) : ∃ old, v.attempts n = some old ∧ old.state = .running := by
  induction h generalizing attempt with
  | refl => exact ⟨attempt, hnew, hstate⟩
  | tail hchange hstep ih =>
    obtain ⟨middle, hmiddle, hstate'⟩ :=
      hstep.attempt_running (JobChange.attempts hchange hn) hnew hstate
    exact ih hmiddle hstate'

end Steps

end Tracewake.Hosted
