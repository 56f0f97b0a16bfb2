import Tracewake.Hosted.Guarantee

/-!
# The contract of the control plane

The invariant of the database, what the schedule of a run may rule out, and what an
error means. Guarantees keep the invariant, so a transaction is verified once its
commits are shown to give the guarantee.
-/

namespace Tracewake.Hosted

open ReadCommitted

/-- The invariant of the database. -/
structure Consistent (p : Policy) (s : Service) (store : Store) : Prop where
  jobs : ∀ job, (jobView store job).Sound p.fenced
  inputs : ∀ job row, store.job job = some row →
    ∃ input, store.jobInput row = some input ∧ input.workspace = row.workspace
  /-- The input runs of a job that is not over are in the state it needs. -/
  runs : s.CollisionFree → ∀ job row input, store.job job = some row → store.jobInput row = some input →
    ∀ run ∈ input.runs, ∃ found, store.run run = some found ∧ found.workspace = row.workspace ∧
      (row.state.terminal = false → found.state = input.operation.inputState) ∧
      (input.operation = .validate → found.state ≠ .pending)
  shapes : ∀ i input, store.input i = some input →
    input.runs.length = expectedInputs input.operation
  /-- The runs of an input exist in its workspace. -/
  placed : ∀ i input, store.input i = some input → ∀ run ∈ input.runs, ∃ found,
    store.run run = some found ∧ found.workspace = input.workspace
  /-- A run is validated by one job only. -/
  validations : s.CollisionFree → ∀ job job' run, store.Validates job run → store.Validates job' run → job = job'
  /-- A notification names its job and a version that the job has reached. -/
  outbox : ∀ job version sent, store.outbox job version = some sent →
    ∃ row operation, store.job job = some row ∧ version ≤ row.rowVersion ∧
      sent.payload = notificationPayload job version operation
  digests : ∀ workspace digest i, store.lookup (.inputDigest workspace digest) = some i →
    ∃ input, store.input i = some input ∧ Describes s workspace digest input
  records : ∀ workspace key record, store.idempotency workspace key = some record →
    ∃ row, store.job record.responseID = some row ∧ row.workspace = workspace

/-- No claim commits for a job that a deletion covers once the deletion has begun to
fence attempts. Fencing is the second statement of `DeleteRun` and the sixth of
`EnforceRetention`. -/
def FencedApart (call : Call) (now : Timestamp) (statements : ℕ) (τ : Session) (w : World) : Prop :=
  match call with
  | .deleteRun _ runID => 2 ≤ statements → ∀ job run, τ.call.Claims job →
    Uuid.parse runID = some run → ¬ w.rows.Over job run
  | .enforceRetention => 6 ≤ statements → ∀ job run found, τ.call.Claims job →
    w.rows.Over job run → w.rows.run run = some found → now < found.retentionExpiresAt
  | _ => True

/-- While a job request is served, no other call with the same idempotency key commits
that finds no record of it, and no call with a common random identifier. -/
def KeyedApart (call : Call) (τ : Session) (w : World) : Prop :=
  match call with
  | .createJob workspace key _ randomInput randomJob =>
    (w.rows.idempotency workspace key = none → ∀ request randomInput randomJob,
      τ.call ≠ .createJob workspace key request randomInput randomJob) ∧
    ∀ id ∈ [newID randomInput, newID randomJob], id ∉ τ.call.draws
  | _ => True

/-- A job request begins when its key has no expired record left and its random
identifiers are new. -/
def KeyedStart (call : Call) (w : World) : Prop :=
  match call with
  | .createJob workspace key _ randomInput randomJob =>
    (∀ record, w.rows.idempotency workspace key = some record → w.clock < record.expiresAt) ∧
    w.rows.input (newID randomInput) = none ∧ w.rows.job (newID randomJob) = none
  | _ => True

/-- The session is no cancellation request that has locked a validation job that is not over. -/
def PatientCommit (σ : Session) (w : World) : Prop :=
  ∀ job row input, σ.call.Cancels job → σ.locks (.job job) = some .exclusive →
    w.rows.job job = some row → w.rows.jobInput row = some input → input.operation = .validate →
    row.state.terminal = true

/-- A text names a ready run of the workspace. -/
def Store.ReadyRun (store : Store) (workspace : Uuid) (runID : String) : Prop :=
  ∃ run found, Uuid.parse runID = some run ∧ store.run run = some found ∧
    found.workspace = workspace ∧ found.state = .ready

/-- A job request that passes every check made before the database is asked, and whose
runs are distinct. -/
structure ValidRequest (s : Service) (key : String) (request : JobRequest)
    (operation : Operation) (digest : String) : Prop where
  key : validIdempotencyKey key = true
  runIDs : request.runIDs.all validID = true
  digest : normalizedDigest s request = .ok (operation, digest)
  distinct : (request.runIDs.map Uuid.parse).Nodup

/-- A job has been queued at a version since the transaction began. -/
def Claimable (σ : Session) (w : World) (jobID : String) (version : ℤ) : Prop :=
  ∃ job row row', Uuid.parse jobID = some job ∧ 0 < version ∧ σ.before.job job = some row ∧
    row.state = .queued ∧ row.rowVersion = version ∧ w.rows.job job = some row' ∧
    row'.state = .queued ∧ row'.rowVersion = version

/-- What a reported error means. -/
structure Refusal (p : Policy) (s : Service) (σ : Session) (error : Err) (w : World) : Prop where
  /-- No notification collides with another one. -/
  outbox : ∀ context, error ≠ .database context (.uniqueViolation outboxConstraint)
  /-- A claim at the version of a queued job is not turned down. -/
  claim : s.CollisionFree → ∀ worker jobID version token,
    σ.call = .claim worker jobID version token → Claimable σ w jobID version →
    error ≠ .conflict ∧ error ≠ .notFound
  /-- A valid request under a key in use is refused only for naming something else. -/
  reuse : ∀ workspace key request randomInput randomJob operation digest record,
    σ.call = .createJob workspace key request randomInput randomJob →
    ValidRequest s key request operation digest → σ.Remembers w.clock workspace key record →
    error = .idempotencyConflict ∧ record.requestDigest ≠ digest
  /-- A valid request over ready runs is not refused under a new key. -/
  create : p.keyed → ∀ workspace key request randomInput randomJob operation digest,
    σ.call = .createJob workspace key request randomInput randomJob →
    ValidRequest s key request operation digest → σ.before.idempotency workspace key = none →
    (∀ runID ∈ request.runIDs, σ.before.ReadyRun workspace runID) →
    ¬ ∀ runID ∈ request.runIDs, w.rows.ReadyRun workspace runID

/-- What is kept apart from a number of statements on is kept apart from any smaller one
on. -/
theorem FencedApart.mono {call : Call} {now : Timestamp} {m n : ℕ} {τ : Session} {w : World}
    (hmn : m ≤ n) (h : FencedApart call now n τ w) : FencedApart call now m τ w := by
  cases call with
  | deleteRun workspace runID => exact fun hm => h (hm.trans hmn)
  | enforceRetention => exact fun hm => h (hm.trans hmn)
  | _ => trivial

/-- The contract between the transactions of the control plane. -/
def contract (p : Policy) (s : Service) : Contract Row Call Err Reply where
  Inv w := Consistent p s w.store
  Starts call w := p.keyed → KeyedStart call w
  Apart call now statements τ w :=
    (p.fenced → FencedApart call now statements τ w) ∧ (p.keyed → KeyedApart call τ w)
  apart_mono _ _ _ _ _ _ hmn h := ⟨fun hfenced => (h.1 hfenced).mono hmn, h.2⟩
  Permits σ w := p.patient → PatientCommit σ w
  Guar := Guarantee p s
  Refused := Refusal p s

section Preservation

variable {p : Policy} {s : Service} {σ : Session} {reply : Reply} {w : World}

/-- A job's view has its row. -/
@[simp] theorem jobView_job (store : Store) (job : Uuid) :
    (jobView store job).job = store.job job := rfl

/-- A job's view has its attempts. -/
@[simp] theorem jobView_attempts (store : Store) (job : Uuid) :
    (jobView store job).attempts = store.attempt job := rfl

/-- A job's view has its artifacts. -/
@[simp] theorem jobView_artifacts (store : Store) (job : Uuid) :
    (jobView store job).artifacts = store.artifact job := rfl

/-- A job's view has its progress. -/
@[simp] theorem jobView_progress (store : Store) (job : Uuid) :
    (jobView store job).progress = store.progress job := rfl

/-- A job that exists keeps its workspace and its input. -/
theorem Guarantee.job_some (h : Guarantee p s σ reply w) {job : Uuid} {row : JobRow}
    (hrow : w.rows.job job = some row) : ∃ row', (σ.after w).job job = some row' ∧
      row'.workspace = row.workspace ∧ row'.input = row.input ∧
      (row' = row ∨ row.rowVersion < row'.rowVersion) :=
  (h.jobs job).job_some hrow

/-- A job that is over keeps its row. -/
theorem Guarantee.terminal (h : Guarantee p s σ reply w) {job : Uuid} {row : JobRow}
    (hrow : w.rows.job job = some row) (hterminal : row.state.terminal = true) :
    (σ.after w).job job = some row :=
  ((h.jobs job).terminal hrow hterminal).1

/-- The input of a job that exists stays the same. -/
theorem Guarantee.jobInput (h : Guarantee p s σ reply w) {row row' : JobRow} {input : InputRow}
    (hinput : w.rows.jobInput row = some input) (hsame : row'.input = row.input) :
    (σ.after w).jobInput row' = some input := by
  rw [Store.jobInput, hsame]
  exact h.inputs _ _ hinput

/-- A job of the new state existed before, with the same input, or is new. -/
theorem Guarantee.job_cases (hinv : Consistent p s w.rows) (h : Guarantee p s σ reply w)
    {job : Uuid} {row : JobRow} {input : InputRow} (hrow : (σ.after w).job job = some row)
    (hinput : (σ.after w).jobInput row = some input) :
    (∃ old, w.rows.job job = some old ∧ w.rows.jobInput old = some input ∧
      row.workspace = old.workspace ∧ row.input = old.input) ∨
    Created s w.rows (σ.after w) σ job row input := by
  cases hold : w.rows.job job with
  | none =>
    obtain ⟨_, input', hcreated⟩ := h.newJobs job row hold hrow
    obtain rfl := Option.some.inj (hcreated.found.symm.trans hinput)
    exact .inr hcreated
  | some old =>
    obtain ⟨row', hrow', hworkspace, hsame, _⟩ := h.job_some hold
    obtain rfl := Option.some.inj (hrow'.symm.trans hrow)
    obtain ⟨input', hinput', _⟩ := hinv.inputs job old hold
    obtain rfl := Option.some.inj ((h.jobInput hinput' hsame).symm.trans hinput)
    exact .inl ⟨old, rfl, hinput', hworkspace, hsame⟩

/-- A nonterminal job of the new state was not over before. -/
theorem Guarantee.not_terminal_of (h : Guarantee p s σ reply w) {job : Uuid} {old row : JobRow}
    (hold : w.rows.job job = some old) (hrow : (σ.after w).job job = some row)
    (hstate : row.state.terminal = false) : old.state.terminal = false := by
  cases hterminal : old.state.terminal with
  | false => rfl
  | true =>
    obtain rfl := Option.some.inj ((h.terminal hold hterminal).symm.trans hrow)
    simp [hterminal] at hstate

/-- A run that exists goes on existing in its workspace. -/
theorem RunStep.run_some {now : Timestamp} {old new : Option RunRow} (h : RunStep now old new)
    {row : RunRow} (hold : old = some row) : ∃ row', new = some row' ∧
      row'.workspace = row.workspace := by
  subst hold
  cases h with
  | same => exact ⟨row, rfl, rfl⟩
  | upload _ version => exact ⟨_, rfl, rfl⟩
  | ready => exact ⟨_, rfl, rfl⟩
  | invalidate => exact ⟨_, rfl, rfl⟩
  | expire => exact ⟨_, rfl, rfl⟩
  | delete => exact ⟨_, rfl, rfl⟩

/-- How the state of a run changes in one commit. -/
theorem RunStep.state {now : Timestamp} {old new : RunRow}
    (h : RunStep now (some old) (some new)) :
    new = old ∨ old.state = .pending ∧ new.state = .validating ∨
      old.state = .validating ∧ (new.state = .ready ∨ new.state = .invalid) ∨
      old.state ≠ .deleted ∧ new.state = .deleted := by
  cases h with
  | same => exact .inl rfl
  | upload _ _ hstate => exact .inr (.inl ⟨hstate, rfl⟩)
  | ready _ _ _ _ _ _ hstate => exact .inr (.inr (.inl ⟨hstate, .inl rfl⟩))
  | invalidate _ _ _ hstate => exact .inr (.inr (.inl ⟨hstate, .inr rfl⟩))
  | expire _ hstate _ => exact .inr (.inr (.inr ⟨hstate, rfl⟩))
  | delete _ hstate => exact .inr (.inr (.inr ⟨hstate, rfl⟩))

/-- A deleted run keeps its row. -/
theorem RunStep.run_deleted {now : Timestamp} {old new : Option RunRow} (h : RunStep now old new)
    {row : RunRow} (hold : old = some row) (hdeleted : row.state = .deleted) : new = some row := by
  subst hold
  cases h with
  | same => rfl
  | upload _ _ hstate => simp [hdeleted] at hstate
  | ready _ _ _ _ _ _ hstate => simp [hdeleted] at hstate
  | invalidate _ _ _ hstate => simp [hdeleted] at hstate
  | expire _ hstate _ => exact absurd hdeleted hstate
  | delete _ hstate => exact absurd hdeleted hstate

/-- Only pending runs become pending. -/
theorem RunStep.pending {now : Timestamp} {old new : RunRow}
    (h : RunStep now (some old) (some new)) (hnew : new.state = .pending) : old.state = .pending := by
  rcases h.state with rfl | ⟨hold, _⟩ | ⟨_, hstate | hstate⟩ | ⟨_, hstate⟩
  · exact hnew
  · exact hold
  · simp [hnew] at hstate
  · simp [hnew] at hstate
  · simp [hnew] at hstate

/-- A validation of the new state was one before, or belongs to a new job over a run
that was pending. -/
theorem Guarantee.validates_cases (hfree : s.CollisionFree) (hinv : Consistent p s w.rows)
    (h : Guarantee p s σ reply w)
    {job run : Uuid} (hvalidates : (σ.after w).Validates job run) :
    w.rows.Validates job run ∨ w.rows.job job = none ∧
      ∃ found, w.rows.run run = some found ∧ found.state = .pending := by
  obtain ⟨row, input, hrow, hinput, hoperation, hrun⟩ := hvalidates
  rcases h.job_cases hinv hrow hinput with ⟨old, hold, hinput', _, _⟩ | hcreated
  · exact .inl ⟨old, input, hold, hinput', hoperation, hrun⟩
  · exact .inr ⟨hcreated.absent, hcreated.pending hfree hoperation run hrun⟩

/-- A run that a job validates is no longer pending. -/
theorem Consistent.validates_run (hfree : s.CollisionFree) {store : Store}
    (hinv : Consistent p s store) {job run : Uuid}
    (h : store.Validates job run) : ∃ found, store.run run = some found ∧ found.state ≠ .pending := by
  obtain ⟨row, input, hrow, hinput, hoperation, hrun⟩ := h
  obtain ⟨found, hfound, _, _, hpending⟩ := hinv.runs hfree job row input hrow hinput run hrun
  exact ⟨found, hfound, hpending hoperation⟩

/-- The input runs of a job of the new state. -/
theorem Guarantee.runs_after (hfree : s.CollisionFree) (hinv : Consistent p s w.rows)
    (h : Guarantee p s σ reply w)
    {job : Uuid} {row : JobRow} {input : InputRow} (hrow : (σ.after w).job job = some row)
    (hinput : (σ.after w).jobInput row = some input) {run : Uuid} (hrun : run ∈ input.runs) :
    ∃ found, (σ.after w).run run = some found ∧ found.workspace = row.workspace ∧
      (row.state.terminal = false → found.state = input.operation.inputState) ∧
      (input.operation = .validate → found.state ≠ .pending) := by
  rcases h.job_cases hinv hrow hinput with ⟨old, hold, hinput', hworkspace, _⟩ | hcreated
  · obtain ⟨found, hfound, hfoundWorkspace, hstate, hpending⟩ :=
      hinv.runs hfree job old input hold hinput' run hrun
    have hstep := h.runs run
    obtain ⟨found', hfound', hfoundWorkspace'⟩ := hstep.run_some hfound
    rw [hfound, hfound'] at hstep
    refine ⟨found', hfound', ?_, ?_, fun hoperation hnew => hpending hoperation (hstep.pending hnew)⟩
    · rw [hfoundWorkspace', hfoundWorkspace, hworkspace]
    · intro hnonterminal
      have holdState := h.not_terminal_of hold hrow hnonterminal
      have hneed := hstate holdState
      have hlive : ¬ (σ.after w).Terminal job := by
        rintro ⟨row', hrow', hterminal⟩
        obtain rfl := Option.some.inj (hrow.symm.trans hrow')
        simp [hnonterminal] at hterminal
      rcases hstep.state with rfl | ⟨hpend, _⟩ | ⟨hvalidating, hend⟩ | ⟨hexists, hdeleted⟩
      · exact hneed
      · rw [hpend] at hneed
        cases hoperation : input.operation <;> simp [hoperation, Operation.inputState] at hneed
      · -- the run's validation ends, and this job is the one that validates it
        rw [hvalidating] at hneed
        have hoperation : input.operation = .validate := by
          cases hoperation : input.operation <;> simp [hoperation, Operation.inputState] at hneed ⊢
        obtain ⟨job', hvalidates, _, hterminal⟩ :=
          h.runsValidated run found found' hfound hfound' hvalidating hend
        have hsame := hinv.validations hfree job job' run ⟨old, input, hold, hinput', hoperation, hrun⟩
          hvalidates
        exact absurd (hsame ▸ hterminal) hlive
      · exact absurd ((h.runsDeleted run found found' hfound hfound' hexists hdeleted job
          ⟨row, input, hrow, hinput, hrun⟩).1 hfree) hlive
  · obtain ⟨found, hfound, hfoundWorkspace, hstate⟩ := hcreated.runs hfree run hrun
    refine ⟨found, hfound, hfoundWorkspace, fun _ => hstate, ?_⟩
    intro hoperation hpending
    rw [hstate, hoperation] at hpending
    simp [Operation.inputState] at hpending

/-- Guarantees keep the invariant of the database. -/
theorem Guarantee.consistent (hinv : Consistent p s w.rows) (h : Guarantee p s σ reply w) :
    Consistent p s (σ.after w) where
  jobs job := (h.jobs job).sound (hinv.jobs job)
  inputs := by
    intro job row hrow
    cases hold : w.rows.job job with
    | none =>
      obtain ⟨_, input, hcreated⟩ := h.newJobs job row hold hrow
      refine ⟨input, hcreated.found, ?_⟩
      rw [hcreated.row_eq]
      rfl
    | some old =>
      obtain ⟨row', hrow', hworkspace, hsame, _⟩ := h.job_some hold
      obtain rfl := Option.some.inj (hrow'.symm.trans hrow)
      obtain ⟨input, hinput, hinputWorkspace⟩ := hinv.inputs job old hold
      exact ⟨input, h.jobInput hinput hsame, hinputWorkspace.trans hworkspace.symm⟩
  runs := fun hfree job row input hrow hinput run hrun => h.runs_after hfree hinv hrow hinput hrun
  shapes := by
    intro i input hinput
    cases hold : w.rows.input i with
    | none => exact (h.newInputs i input hold hinput).1
    | some old =>
      obtain rfl := Option.some.inj ((h.inputs i old hold).symm.trans hinput)
      exact hinv.shapes i old hold
  placed := by
    intro i input hinput run hrun
    cases hold : w.rows.input i with
    | none => exact (h.newInputs i input hold hinput).2.2 run hrun
    | some old =>
      obtain rfl := Option.some.inj ((h.inputs i old hold).symm.trans hinput)
      obtain ⟨found, hfound, hworkspace⟩ := hinv.placed i old hold run hrun
      obtain ⟨found', hfound', hworkspace'⟩ := (h.runs run).run_some hfound
      exact ⟨found', hfound', hworkspace'.trans hworkspace⟩
  validations := by
    intro hfree job job' run hvalidates hvalidates'
    rcases h.validates_cases hfree hinv hvalidates with hold | ⟨hnew, found, hfound, hpending⟩
    · rcases h.validates_cases hfree hinv hvalidates' with hold' | ⟨_, found, hfound, hpending⟩
      · exact hinv.validations hfree job job' run hold hold'
      · obtain ⟨found', hfound', hnot⟩ := hinv.validates_run hfree hold
        obtain rfl := Option.some.inj (hfound.symm.trans hfound')
        exact absurd hpending hnot
    · rcases h.validates_cases hfree hinv hvalidates' with hold' | ⟨hnew', _⟩
      · obtain ⟨found', hfound', hnot⟩ := hinv.validates_run hfree hold'
        obtain rfl := Option.some.inj (hfound.symm.trans hfound')
        exact absurd hpending hnot
      · obtain ⟨row, _, hrow, _⟩ := hvalidates
        obtain ⟨row', _, hrow', _⟩ := hvalidates'
        exact h.oneNewJob job job' hnew (by simp [hrow]) hnew' (by simp [hrow'])
  outbox := by
    intro job version sent hsent
    cases hold : w.rows.outbox job version with
    | none =>
      exact (h.outboxNew job version sent hold hsent).2.1
    | some old =>
      obtain ⟨row, operation, hrow, hle, hpayload⟩ := hinv.outbox job version old hold
      obtain ⟨row', hrow', _, _, hversion⟩ := h.job_some hrow
      refine ⟨row', operation, hrow', ?_, ?_⟩
      · rcases hversion with rfl | hlt
        · exact hle
        · omega
      · rcases h.outboxKept job version old hold with ⟨sent', hsent', hsame, _⟩ | ⟨hgone, _⟩
        · obtain rfl := Option.some.inj (hsent.symm.trans hsent')
          exact hsame.trans hpayload
        · simp [hgone] at hsent
  digests := by
    intro workspace digest i hi
    rcases h.digests workspace digest i hi with hold | hnew
    · obtain ⟨input, hinput, hdescribes⟩ := hinv.digests workspace digest i hold
      exact ⟨input, h.inputs i input hinput, hdescribes⟩
    · exact hnew
  records := by
    intro workspace key record hrecord
    cases hold : w.rows.idempotency workspace key with
    | none => exact (h.recordsNew workspace key record hold hrecord).2
    | some old =>
      have hsame : old = record := by
        rcases h.recordsKept workspace key old hold with hkept | ⟨hgone, _⟩
        · exact Option.some.inj (hkept.symm.trans hrecord)
        · simp [hgone] at hrecord
      subst hsame
      obtain ⟨row, hrow, hworkspace⟩ := hinv.records workspace key old hold
      obtain ⟨row', hrow', hworkspace', _⟩ := h.job_some hrow
      exact ⟨row', hrow', hworkspace'.trans hworkspace⟩

end Preservation

end Tracewake.Hosted
