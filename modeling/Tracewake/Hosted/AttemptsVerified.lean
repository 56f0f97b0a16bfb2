import Tracewake.Hosted.Commits

/-!
# The worker's transactions

Each transaction of a worker first checks its attempt. The check locks the job while
it runs that attempt, so the job's rows are the worker's until the transaction ends.
-/

namespace Tracewake.Hosted

open ReadCommitted

variable {p : Policy} {s : Service} {σ₀ σ σ' : Session} {w w' : World}

/-- What the attempt check has established: the attempt is the running attempt of the
job, its lease holds, and both rows are locked. -/
structure Checked (s : Service) (σ : Session) (w : World) (jobID : String) (n : ℤ) (token : String)
    (current : CurrentAttempt) (row : JobRow) (input : InputRow) (attempt : AttemptRow) : Prop where
  parsed : Uuid.parse jobID = some current.job
  running : (jobView w.rows current.job).Running row n attempt
  found : w.rows.jobInput row = some input
  workspace : current.workspace = row.workspace
  operation : current.operation = input.operation
  locked : σ.locks (.job current.job) = some .exclusive
  attemptLocked : σ.locks (.attempt current.job n) = some .exclusive
  lease : σ.now < attempt.leaseExpiresAt
  verified : s.verify attempt.tokenPepperVersion token attempt.tokenVerifier = true

/-- The attempt check changes nothing. -/
theorem wp_checkAttempt {jobID : String} {n : ℤ} {token : String} {now : Timestamp}
    {post : Except Err CurrentAttempt → Session → World → Prop}
    (h : Working nothing σ₀ σ w) (hnow : σ₀.now = now)
    (hok : ∀ current row input attempt σ' w', Working nothing σ₀ σ' w' → Consistent p s w'.rows →
      Checked s σ' w' jobID n token current row input attempt → post (.ok current) σ' w')
    (herror : ∀ error σ' w', Working nothing σ₀ σ' w' → error.Ordinary →
      post (.error error) σ' w') :
    (contract p s).wp (checkAttempt s jobID n token now) post σ w := by
  unfold checkAttempt
  refine Contract.wp_then (wp_uuidParam (fun job hjob => ?_) ?_)
  swap
  · exact herror _ _ _ h (by simp [Err.Ordinary])
  refine Contract.wp_then (wp_require (fun hfits => ?_) fun _ => ?_)
  swap
  · exact herror _ _ _ h (by simp [Err.Ordinary])
  refine Contract.wp_snapshot fun σ₁ w₁ hlater₁ _ hinv₁ => ?_
  have h₁ := h.later hlater₁
  have hlost : ∀ σ' w', Working nothing σ₀ σ' w' →
      (contract p s).wp (.fail .leaseLost) post σ' w' :=
    fun σ' w' h' => Contract.wp_fail (herror _ σ' w' h' (by simp [Err.Ordinary]))
  split
  · exact hlost _ _ h₁
  next found hfound =>
  split
  · exact hlost _ _ h₁
  next foundInput hfoundInput =>
  split
  swap
  · exact hlost _ _ h₁
  refine Contract.wp_lock fun σ₂ w₂ hlater₂ hlock₂ hinv₂ => ?_
  refine Contract.wp_lock fun σ₃ w₃ hlater₃ hlock₃ hinv₃ => ?_
  refine Contract.wp_lock fun σ₄ w₄ hlater₄ hlock₄ hinv₄ => ?_
  have h₄ := ((h₁.later hlater₂).later hlater₃).later hlater₄
  split
  swap
  · exact hlost _ _ h₄
  next row input attempt hrow hinput hattempt =>
  unfold checkAttempt.judge
  split
  · exact hlost _ _ h₄
  next hlease =>
  split
  · exact Contract.wp_fail (herror _ _ _ h₄ (by simp [Err.Ordinary]))
  next current hcurrent =>
  split
  swap
  · exact hlost _ _ h₄
  next hvalid =>
  obtain ⟨hstate, hactive, rfl, hverified⟩ := hvalid
  have hjobLocked₂ : σ₂.locks (.job job) = some .exclusive := by
    rw [hlock₂]
    exact Session.lock_locks_self σ₁ _
  have hinputLocked₃ : σ₃.locks (.input found.input) = some .exclusive := by
    rw [hlock₃]
    exact Session.lock_locks_self σ₂ _
  have hattemptLocked : σ₄.locks (.attempt job current) = some .exclusive := by
    rw [hlock₄]
    exact Session.lock_locks_self σ₃ _
  have hrow₄ : w₄.rows.job job = some row :=
    (((h₁.later hlater₂).lookup_later (hlater₃.trans hlater₄) (by simp [hjobLocked₂])).trans hrow)
  have hattempt₄ : w₄.rows.attempt job current = some attempt :=
    (h₄.after_lookup (.attempt job current)).symm.trans hattempt
  have hinput₄ : w₄.rows.input found.input = some input :=
    (((h₁.later hlater₂).later hlater₃).lookup_later hlater₄ (by simp [hinputLocked₃])).trans hinput
  have hsame : row.input = found.input := by
    obtain ⟨row', hrow', _, hsame, _⟩ := rely_job ((hlater₂.trans hlater₃).trans hlater₄).rely
      ((h₁.after_lookup (.job job)).symm.trans hfound)
    obtain rfl := Option.some.inj (hrow'.symm.trans hrow₄)
    exact hsame
  have hrunning : (jobView w₄.rows job).Running row current attempt :=
    ⟨hrow₄, hstate, hcurrent, hattempt₄, hactive⟩
  have hfound₄ : w₄.rows.jobInput row = some input := by
    rw [Store.jobInput, hsame]
    exact hinput₄
  have hlease₄ : σ₄.now < attempt.leaseExpiresAt := by
    rw [h₄.now, hnow]
    exact lt_of_not_ge hlease
  exact Contract.wp_pure (hok _ row input attempt _ _ h₄ hinv₄ ⟨hjob, hrunning, hfound₄, rfl, rfl,
    (hlater₃.trans hlater₄).exclusive _ hjobLocked₂, hattemptLocked, hlease₄, hverified⟩)

/-- The transaction goes on with the job that the attempt check has locked. -/
theorem Checked.handling {F : Footprint Row} {jobID token : String} {n : ℤ}
    {current : CurrentAttempt} {row : JobRow} {input : InputRow} {attempt : AttemptRow}
    (h : Checked s σ w jobID n token current row input attempt)
    (hworking : Working nothing σ₀ σ w) : Handling F σ₀ σ w current.job
      (jobView w.rows current.job) (jobView w.rows current.job) :=
  ⟨hworking.of_nothing, h.locked, ⟨row, h.running.job, by simp [h.running.state]⟩, rfl,
    hworking.after_jobView current.job⟩

/-- A transaction that changes nothing may commit. -/
theorem Working.replies {α : Type} {reply : α → Reply} {value : α} (h : Working nothing σ₀ σ w)
    (heffect : ∀ w', Effect p s σ (reply value) w') : Replies p s reply (.ok value) σ w :=
  .ok fun w' hrely _ _ => (h.rely hrely).guarantee (heffect w')

/-- Authorizing an attempt is verified: it changes nothing. -/
theorem wp_authorizeAttempt {jobID : String} {n : ℤ} {token : String} :
    (contract p s).wp (authorizeAttempt s jobID n token w.clock) (Replies p s .workspace)
      (.start (.authorizeAttempt jobID n token) w.clock w.store) w := by
  unfold authorizeAttempt
  refine Contract.wp_then (wp_checkAttempt (.start _ w) rfl ?_ ?_)
  · intro current row input attempt σ₁ w₁ h₁ _ _
    refine Contract.wp_pure (h₁.replies fun w' => ?_)
    rw [Effect, h₁.call]
    trivial
  · exact fun error σ' w' h hordinary => .error (h.call ▸ trivial) hordinary

/-- Asking for an input artifact is verified: it changes nothing. -/
theorem wp_inputArtifact {jobID : String} {n : ℤ} {token artifactID : String} :
    (contract p s).wp (inputArtifact s jobID n token artifactID w.clock) (Replies p s .input)
      (.start (.inputArtifact jobID n token artifactID) w.clock w.store) w := by
  unfold inputArtifact
  refine Contract.wp_then (wp_checkAttempt (.start _ w) rfl ?_ ?_)
  swap
  · exact fun error σ' w' h hordinary => .error (h.call ▸ trivial) hordinary
  intro current row input attempt σ₁ w₁ h₁ _ _
  refine Contract.wp_then (wp_uuidParam (fun run _ => ?_) ?_)
  swap
  · exact .error (h₁.call ▸ trivial) (by simp [Err.Ordinary])
  refine Contract.wp_then (Contract.wp_select fun σ₂ w₂ hlater₂ _ _ => ?_)
  have h₂ := h₁.later hlater₂
  dsimp only
  split
  · exact Contract.wp_fail (.error (h₂.call ▸ trivial) (by simp [Err.Ordinary]))
  split
  · exact Contract.wp_fail (.error (h₂.call ▸ trivial) (by simp [Err.Ordinary]))
  · refine Contract.wp_pure (h₂.replies fun w' => ?_)
    rw [Effect, h₂.call]
    trivial

/-- Asking for the inputs of a result is verified: it changes nothing. -/
theorem wp_resultInputs {jobID : String} {n : ℤ} {token : String} :
    (contract p s).wp (resultInputs s jobID n token w.clock) (Replies p s .inputs)
      (.start (.resultInputs jobID n token) w.clock w.store) w := by
  unfold resultInputs
  refine Contract.wp_then (wp_checkAttempt (.start _ w) rfl ?_ ?_)
  swap
  · exact fun error σ' w' h hordinary => .error (h.call ▸ trivial) hordinary
  intro current row input attempt σ₁ w₁ h₁ _ _
  refine Contract.wp_then (Contract.wp_select fun σ₂ w₂ hlater₂ _ _ => ?_)
  have h₂ := h₁.later hlater₂
  dsimp only
  split
  · exact Contract.wp_fail (.error (h₂.call ▸ trivial) (by simp [Err.Ordinary]))
  · refine Contract.wp_pure (h₂.replies fun w' => ?_)
    rw [Effect, h₂.call]
    trivial

/-- Asking for cancellation is verified: it changes nothing. -/
theorem wp_cancellation {jobID : String} {n : ℤ} {token : String} :
    (contract p s).wp (cancellation s jobID n token w.clock) (Replies p s .flag)
      (.start (.cancellation jobID n token) w.clock w.store) w := by
  unfold cancellation
  refine Contract.wp_then (wp_uuidParam (fun job _ => ?_) ?_)
  swap
  · exact .error trivial (by simp [Err.Ordinary])
  refine Contract.wp_then (wp_require (fun _ => ?_) fun _ => ?_)
  swap
  · exact .error trivial (by simp [Err.Ordinary])
  refine Contract.wp_then (Contract.wp_select fun σ₁ w₁ hlater₁ _ _ => ?_)
  have h₁ := (Working.start (F := nothing) (.cancellation jobID n token) w).later hlater₁
  have hplain : σ₁.call.Plain := h₁.call ▸ trivial
  dsimp only
  split
  · exact Contract.wp_fail (.error hplain (by simp [Err.Ordinary]))
  split
  · exact Contract.wp_fail (.error hplain (by simp [Err.Ordinary]))
  refine Contract.wp_then (wp_require (fun _ => ?_) fun _ => ?_)
  swap
  · exact .error hplain (by simp [Err.Ordinary])
  refine Contract.wp_then (wp_require (fun _ => ?_) fun _ => ?_)
  swap
  · exact .error hplain (by simp [Err.Ordinary])
  refine Contract.wp_pure (h₁.replies fun w' => ?_)
  rw [Effect, h₁.call]
  trivial

/-- A commit that changes one job but not whether it runs. -/
theorem Handling.guarantee_running {job : Uuid} {v₀ v : JobView} {row : JobRow} {n : ℤ}
    {attempt : AttemptRow} {reply : Reply}
    (h : Handling (jobFootprint job fun _ _ _ => False) σ₀ σ w job v₀ v)
    (hrunning : v₀.Running row n attempt) (hjob : v.job = v₀.job)
    (hattempts : ∀ m, v.attempts m ≠ none → v₀.attempts m ≠ none)
    (hstep : JobStep p.fenced σ₀.now v₀ v) (heffect : Effect p s σ reply w) :
    Guarantee p s σ reply w := by
  have hrow : ∀ row', v.job = some row' → row' = row := fun row' hrow' =>
    Option.some.inj (hrow'.symm.trans (hjob.trans hrunning.job))
  refine h.guarantee (.single hstep) (fun _ _ _ => False.elim) (fun _ _ _ => False.elim)
    ?_ ?_ ?_ ?_ heffect
  · intro _ _ row' _ hrow' hterminal
    obtain rfl := hrow row' hrow'
    simp [hrunning.state] at hterminal
  · exact fun m hnone hsome => absurd hnone (hattempts m hsome)
  · intro row' hrow' hqueued
    obtain rfl := hrow row' hrow'
    simp [hrunning.state] at hqueued
  · intro row' hrow' hsucceeded
    obtain rfl := hrow row' hrow'
    simp [hrunning.state] at hsucceeded

/-- A heartbeat is verified: it renews the lease of the running attempt of the job. -/
theorem wp_heartbeat {jobID : String} {n : ℤ} {token : String} :
    (contract p s).wp (heartbeat s jobID n token w.clock) (Replies p s .time)
      (.start (.heartbeat jobID n token) w.clock w.store) w := by
  unfold heartbeat
  refine Contract.wp_then (wp_checkAttempt (.start _ w) rfl ?_ ?_)
  swap
  · exact fun error σ' w' h hordinary => .error (h.call ▸ trivial) hordinary
  intro current row input attempt σ₁ w₁ h₁ _ hchecked
  have hhandling := hchecked.handling h₁ (F := jobFootprint current.job fun _ _ _ => False)
  refine Contract.wp_then ?_
  refine hhandling.wp_updateAttempt hchecked.attemptLocked hchecked.running.found rfl ?_
  intro σ₂ w₂ _ _ h₂
  refine Contract.wp_pure (.ok fun w₃ hrely _ _ => ?_)
  have h₃ := h₂.later (.of_rely hrely)
  refine h₃.guarantee_running hchecked.running rfl ?_ (.beat row n attempt hchecked.running) ?_
  · exact fun m hm => (hchecked.running.update_ne_none _ m).mp hm
  · rw [Effect, h₃.call]
    trivial

/-- What a stored snapshot says about a progress report that supersedes it. -/
theorem decideProgress_store {n : ℤ} {progress : Progress} {stored : Option ProgressRow}
    (h : decideProgress n progress stored = .store) {row : ProgressRow} (hrow : stored = some row) :
    row.attemptNumber < n ∨ row.attemptNumber = n ∧ row.sequence < progress.sequence := by
  subst hrow
  simp only [decideProgress] at h
  split at h
  · next hsame =>
    split at h
    · split at h <;> cases h
    · split at h
      · cases h
      · exact .inr ⟨hsame, by omega⟩
  · split at h
    · cases h
    · exact .inl (by omega)

/-- A progress report is verified: it replaces only an older snapshot of the running
attempt. -/
theorem wp_updateProgress {jobID : String} {n : ℤ} {token : String} {progress : Progress} :
    (contract p s).wp (updateProgress s jobID n token progress w.clock) (Replies p s fun _ => .done)
      (.start (.updateProgress jobID n token progress) w.clock w.store) w := by
  unfold updateProgress
  refine Contract.wp_then (wp_require (fun _ => ?_) fun _ => ?_)
  swap
  · exact .error trivial (by simp [Err.Ordinary])
  refine Contract.wp_then (wp_checkAttempt (.start _ w) rfl ?_ ?_)
  swap
  · exact fun error σ' w' h hordinary => .error (h.call ▸ trivial) hordinary
  intro current row input attempt σ₁ w₁ h₁ _ hchecked
  refine Contract.wp_then (Contract.wp_select fun σ₂ w₂ hlater₂ _ _ => ?_)
  have h₂ := h₁.later hlater₂
  have hheld := (hchecked.handling h₁ (F := jobFootprint current.job fun _ _ _ => False)).later hlater₂
  have hstored : (σ₂.after w₂).progress current.job = (jobView w₁.rows current.job).progress :=
    congrArg JobView.progress hheld.view
  dsimp only
  split
  · refine Contract.wp_pure (.ok fun w₃ hrely _ _ => ?_)
    have h₃ := h₂.rely hrely
    refine h₃.guarantee ?_
    rw [Effect, h₃.call]
    trivial
  · exact Contract.wp_fail (.error (h₂.call ▸ trivial) (by simp [Err.Ordinary]))
  next hdecide =>
  rw [hstored] at hdecide
  -- the row is either inserted or, when it exists, locked and replaced
  have hend : ∀ σ' w', Handling (jobFootprint current.job fun _ _ _ => False)
      (.start (.updateProgress jobID n token progress) w.clock w.store) σ' w' current.job
        (jobView w₁.rows current.job) (jobView w₁.rows current.job) →
      σ'.locks (.progress current.job) = some .exclusive →
      Replies p s (fun _ : Unit => .done) (.ok ()) (σ'.write (.progress current.job)
        (some ⟨n, progress.sequence, progress.stage, progress.message, w.clock⟩)) w' := by
    intro σ' w' h' hlocked
    refine .ok fun w₃ hrely _ _ => ?_
    have h₃ := (h'.writeProgress hlocked _).later (.of_rely hrely)
    refine h₃.guarantee_running hchecked.running rfl (fun _ => id)
      (.report row n attempt _ hchecked.running rfl ?_) ?_
    · exact fun stored hsome => decideProgress_store hdecide hsome
    · rw [Effect, h₃.call]
      trivial
  unfold upsertProgress
  refine Contract.wp_then (Contract.wp_insertRow ?_ ?_)
  · intro w₃ hrely _ _
    refine Contract.wp_lock fun σ₄ w₄ hlater₄ hlock₄ _ => ?_
    have hlocked : σ₄.locks (.progress current.job) = some .exclusive := by
      rw [hlock₄]
      exact Session.lock_locks_self σ₂ _
    exact Contract.wp_write hlocked (Contract.wp_pure
      (hend _ _ ((hheld.later (.of_rely hrely)).later hlater₄) hlocked))
  · intro σ₃ w₃ hlater₃ _ hlocked _ _
    exact Contract.wp_pure (hend _ _ (hheld.later hlater₃) hlocked)

/-- The run that a validation job validates. -/
theorem Consistent.validates_runA (hinv : Consistent p s w.rows) {job run : Uuid} {row : JobRow}
    {input : InputRow} (hrow : w.rows.job job = some row)
    (hinput : w.rows.jobInput row = some input) (hvalidates : w.rows.Validates job run) :
    input.operation = .validate ∧ run = input.runA := by
  obtain ⟨row', input', hrow', hinput', hoperation, hrun⟩ := hvalidates
  obtain rfl := Option.some.inj (hrow.symm.trans hrow')
  obtain rfl := Option.some.inj (hinput.symm.trans hinput')
  refine ⟨hoperation, ?_⟩
  have hlength := hinv.shapes _ _ hinput
  rw [hoperation] at hlength
  cases hrunB : input.runB with
  | none => simpa [InputRow.runs, hrunB] using hrun
  | some runB => simp [InputRow.runs, hrunB, expectedInputs] at hlength

/-- How the failure of an attempt changes runs. -/
def failedRun (input : InputRow) (code message : String) (run : Uuid) (row row' : RunRow) : Prop :=
  input.operation = .validate ∧ run = input.runA ∧ row.state = .validating ∧
    row' = row.invalidate code message

/-- The transaction has changed a run so that it is not validating. -/
def EndsValidation (σ : Session) (run : Uuid) : Prop :=
  ∃ found, σ.writes.lookup (.run run) = some (some found) ∧ found.state ≠ .validating

/-- A run that the session has written as no longer validating stays so. -/
theorem EndsValidation.later {run : Uuid} (h : EndsValidation σ run)
    (hlater : (contract p s).Later σ w σ' w') : EndsValidation σ' run := by
  rw [EndsValidation, hlater.writes]
  exact h

/-- Writes to other rows leave the run no longer validating. -/
theorem EndsValidation.write {run : Uuid} (h : EndsValidation σ run) {key : Key}
    (hkey : Key.run run ≠ key) (row : Option (Row key)) : EndsValidation (σ.write key row) run := by
  obtain ⟨found, hwritten, hstate⟩ := h
  refine ⟨found, ?_, hstate⟩
  rw [Session.write_writes, AList.lookup_insert_ne hkey]
  exact hwritten

/-- When the session commits, the run is not validating. -/
theorem EndsValidation.after {run : Uuid} (h : EndsValidation σ run) (w : World) :
    ∃ found, (σ.after w).run run = some found ∧ found.state ≠ .validating := by
  obtain ⟨found, hwritten, hstate⟩ := h
  exact ⟨found, by simp [Store.run, Session.view, hwritten], hstate⟩

/-- A commit that fails a job for good. A run that it validates has become invalid. -/
theorem Handling.guarantee_failed {job : Uuid} {v₀ : JobView} {row : JobRow} {n : ℤ}
    {attempt : AttemptRow} {input : InputRow} {code message : String} {reply : Reply}
    (h : Handling (jobFootprint job (failedRun input code message)) σ₀ σ w job v₀
      { v₀ with
        job := some (row.fail σ₀.now code message)
        attempts := Function.update v₀.attempts n
          (some (attempt.finish .failed σ₀.now code message)) })
    (hinv : Consistent p s w.rows) (hrunning : v₀.Running row n attempt)
    (hinput : w.rows.jobInput row = some input)
    (hinvalid : s.CollisionFree → input.operation = .validate → EndsValidation σ input.runA)
    (heffect : Effect p s σ reply w) : Guarantee p s σ reply w := by
  have hrow : w.rows.job job = some row := (congrArg JobView.job h.base).trans hrunning.job
  refine h.guarantee (.single (.fail row n attempt code message hrunning)) ?_ ?_ ?_ ?_ ?_ ?_ heffect
  · rintro run old new ⟨_, _, hvalidating, rfl⟩
    exact ⟨.invalidate old code message hvalidating, hvalidating, .inr rfl⟩
  · rintro run old new ⟨hoperation, rfl, _, _⟩
    exact ⟨⟨row, input, hrow, hinput, hoperation, by simp [InputRow.runs]⟩, _, rfl, by simp⟩
  · intro hfree run _ hvalidates _ _
    obtain ⟨hoperation, rfl⟩ := hinv.validates_runA hrow hinput hvalidates
    obtain ⟨found, hfound, hstate⟩ := (hinvalid hfree hoperation).after w
    refine .inr fun found' hfound' => ?_
    obtain rfl := Option.some.inj (hfound'.symm.trans hfound)
    exact hstate
  · exact fun m hnone hsome => absurd hnone ((hrunning.update_ne_none _ m).mp hsome)
  · rintro row' ⟨⟩ hqueued
    simp at hqueued
  · rintro row' ⟨⟩ hsucceeded
    simp at hsucceeded

/-- Failing an attempt is verified, both where the job waits for a retry and where it is
over. -/
theorem wp_failAttempt {jobID : String} {n : ℤ} {token code message : String} {retryable : Bool} :
    (contract p s).wp (failAttempt s jobID n token code message retryable w.clock)
      (Replies p s .state)
      (.start (.failAttempt jobID n token code message retryable) w.clock w.store) w := by
  unfold failAttempt
  refine Contract.wp_then (wp_require (fun _ => ?_) fun _ => ?_)
  swap
  · exact .error trivial (by simp [Err.Ordinary])
  refine Contract.wp_then (wp_require (fun _ => ?_) fun _ => ?_)
  swap
  · exact .error trivial (by simp [Err.Ordinary])
  refine Contract.wp_then (wp_checkAttempt (.start _ w) rfl ?_ ?_)
  swap
  · exact fun error σ' w' h hordinary => .error (h.call ▸ trivial) hordinary
  intro current row input attempt σ₁ w₁ h₁ hinv₁ hchecked
  dsimp only
  split
  · next hretry =>
    have hhandling := hchecked.handling h₁ (F := jobFootprint current.job fun _ _ _ => False)
    refine Contract.wp_then ?_
    refine hhandling.wp_updateAttempt hchecked.attemptLocked hchecked.running.found rfl ?_
    intro σ₂ w₂ _ _ h₂
    refine Contract.wp_then ?_
    refine h₂.wp_updateJob hchecked.running.job rfl ?_
    intro σ₃ w₃ _ _ h₃
    refine Contract.wp_then (wp_audit fun id record σ₄ w₄ hlater₄ _ hlocked => ?_)
    refine Contract.wp_pure (.ok fun w₅ hrely _ _ => ?_)
    have h₅ := ((h₃.later hlater₄).writeAudit hlocked record).later (.of_rely hrely)
    refine h₅.guarantee (.single (.retry row n attempt code message hchecked.running hretry.2))
      (fun _ _ _ => False.elim) (fun _ _ _ => False.elim) ?_ ?_ ?_ ?_ ?_
    · rintro _ _ row' _ ⟨⟩ hterminal
      simp at hterminal
    · exact fun m hnone hsome => absurd hnone ((hchecked.running.update_ne_none _ m).mp hsome)
    · rintro row' ⟨⟩ hqueued
      simp at hqueued
    · rintro row' ⟨⟩ hsucceeded
      simp at hsucceeded
    · rw [Effect, h₅.call]
      trivial
  · next hretry =>
    generalize (if retryable then "retry_exhausted" else code) = code'
    have hhandling := hchecked.handling h₁ (F := jobFootprint current.job fun _ _ _ => False)
    refine Contract.wp_then ?_
    refine hhandling.wp_updateAttempt hchecked.attemptLocked hchecked.running.found rfl ?_
    intro σ₂ w₂ hlater₂ _ h₂
    refine Contract.wp_then ?_
    refine h₂.wp_updateJob hchecked.running.job rfl ?_
    intro σ₃ w₃ hlater₃ _ h₃
    have hinput₃ : w₃.rows.jobInput row = some input :=
      rely_input hlater₃.rely (rely_input hlater₂.rely hchecked.found)
    -- what is left once the run, if any, has been dealt with
    have hend : ∀ σ' w', Handling (jobFootprint current.job (failedRun input code' message))
          (.start (.failAttempt jobID n token code message retryable) w.clock w.store) σ' w'
          current.job (jobView w₁.rows current.job)
          { jobView w₁.rows current.job with
            job := some (row.fail w.clock code' message)
            attempts := Function.update (jobView w₁.rows current.job).attempts n
              (some (attempt.finish .failed w.clock code' message)) } →
        w'.rows.jobInput row = some input →
        (s.CollisionFree → input.operation = .validate → EndsValidation σ' input.runA) →
        (contract p s).wp (do
          audit w.clock current.workspace (.job current.job) "attempt.failed" "worker" none
            { attempt := some n, failureCode := some code' }
          .pure .failed) (Replies p s .state) σ' w' := by
      intro σ' w' h' hinput' hinvalid
      refine Contract.wp_then (wp_audit fun id record σ₄ w₄ hlater₄ _ hlocked => ?_)
      refine Contract.wp_pure (.ok fun w₅ hrely hinv₅ _ => ?_)
      have h₅ := ((h'.later hlater₄).writeAudit hlocked record).later (.of_rely hrely)
      refine h₅.guarantee_failed hinv₅ hchecked.running
        (rely_input hrely (rely_input hlater₄.rely hinput')) ?_ ?_
      · exact fun hfree hoperation =>
          ((hinvalid hfree hoperation).later hlater₄).write (by simp) _
      · rw [Effect, h₅.call]
        trivial
    dsimp only
    split
    · next hvalidate =>
      rw [hchecked.operation] at hvalidate
      -- without collisions the run is validating, and the statement finds it
      have hfound : s.CollisionFree → ∀ σ' w', (contract p s).Later _ w₃ σ' w' →
          Consistent p s w'.rows → _ := fun hfree σ' w' hlater hinv =>
        (h₃.later hlater).validating hfree hinv hchecked.running.job
          (rely_input hlater.rely hinput₃) hvalidate
      refine Contract.wp_then (Contract.wp_update_single (i := input.runA) ?_ ?_ ?_ ?_)
      · exact fun σ' w' hlater _ =>
          (h₃.later hlater).inputRun_eq rfl rfl (rely_input hlater.rely hinput₃)
      · intro σ' w' hlater hinv hmissing
        refine hend _ _ (h₃.later hlater).allowRuns (rely_input hlater.rely hinput₃) fun hfree _ => ?_
        obtain ⟨found, hrun, hstate⟩ := hfound hfree σ' w' hlater hinv
        have hrun : (σ'.view w'.store).lookup (.run input.runA) = some found := hrun
        simp [hrun, hstate] at hmissing
      · intro σ' w' σ'' w'' hlater _ hlater' hinv hskip
        have hlater := hlater.trans hlater'
        refine hend _ _ (h₃.later hlater).allowRuns (rely_input hlater.rely hinput₃) fun hfree _ => ?_
        obtain ⟨found, hrun, hstate⟩ := hfound hfree σ'' w'' hlater hinv
        have hrun : (σ''.view w''.store).lookup (.run input.runA) = some found := hrun
        simp [hrun, hstate] at hskip
      · intro σ' w' σ'' w'' found hlater _ hlater' _ hlocked hrun hstate
        have h₄ := h₃.later (hlater.trans hlater')
        have hbase : w''.rows.run input.runA = some found := (h₄.after_run _).symm.trans hrun
        refine hend _ _ (h₄.allowRuns.writeRun hlocked hbase
          ⟨hvalidate, rfl, by simpa using hstate, rfl⟩) ?_ ?_
        · exact rely_input (hlater.trans hlater').rely hinput₃
        · exact fun _ _ => ⟨_, AList.lookup_insert _, by simp [RunRow.invalidate]⟩
    · next hvalidate =>
      rw [hchecked.operation] at hvalidate
      exact hend _ _ h₃.allowRuns hinput₃ fun _ hoperation => absurd hoperation hvalidate

/-- `cancelAttempts` leaves no attempt of the job running. -/
theorem wp_cancelAttempts {job : Uuid} {Runs : Uuid → RunRow → RunRow → Prop} {v₀ v : JobView}
    {now : Timestamp}
    {post : Except Err (List ((_ : Uuid × ℤ) × AttemptRow)) → Session → World → Prop}
    (h : Handling (jobFootprint job Runs) σ₀ σ w job v₀ v)
    (hpost : ∀ updated attempts σ' w',
      Handling (jobFootprint job Runs) σ₀ σ' w' job v₀ { v with attempts := attempts } →
      (∀ n, CancelsAttempt now (v.attempts n) (attempts n)) →
      (∀ n attempt, attempts n = some attempt → attempt.state ≠ .running) →
      post (.ok updated) σ' w') :
    (contract p s).wp (cancelAttempts job now) post σ w := by
  -- the attempts tried so far are no longer running, and the snapshot has the others
  refine Contract.wp_update (fun (store : Store) done σ' w' =>
    (∀ n, store.attempt job n = v.attempts n) ∧
    ∃ attempts, Handling (jobFootprint job Runs) σ₀ σ' w' job v₀ { v with attempts := attempts } ∧
      (∀ n, CancelsAttempt now (v.attempts n) (attempts n)) ∧
      ∀ n attempt, (job, n) ∈ done → attempts n = some attempt → attempt.state ≠ .running)
    ?_ ?_ ?_ ?_ ?_
  · intro σ' w' hlater _ _
    have h' := h.later hlater
    exact ⟨fun n => congrFun (congrArg JobView.attempts h'.view) n, v.attempts, h',
      fun n => .inl rfl, fun n attempt hmem => absurd hmem (by simp)⟩
  · rintro store done σ₁ w₁ σ₂ w₂ ⟨hstore, attempts, h₁, hcancels, hdone⟩ hlater _
    exact ⟨hstore, attempts, h₁.later hlater, hcancels, hdone⟩
  · rintro store done ⟨owner, m⟩ σ₁ w₁ _ hany ⟨hstore, attempts, h₁, hcancels, hdone⟩ _ _ hskip
    refine ⟨hstore, attempts, h₁, hcancels, fun n attempt hmem hattempt hstate => ?_⟩
    rcases List.mem_append.mp hmem with hmem | hmem
    · exact hdone n attempt hmem hattempt hstate
    · obtain ⟨rfl, rfl⟩ := Prod.mk.inj (List.mem_singleton.mp hmem)
      have hrow : (σ₁.view w₁.store).lookup (.attempt job n) = some attempt :=
        (congrFun (congrArg JobView.attempts h₁.view) n).trans hattempt
      simp [hrow, hstate] at hskip
  · rintro store done ⟨owner, m⟩ row σ₁ w₁ _ _ ⟨hstore, attempts, h₁, hcancels, hdone⟩ _ hlocked
      hrow hqualifies
    simp only [Bool.and_eq_true, decide_eq_true_eq] at hqualifies
    obtain ⟨rfl, hstate⟩ := hqualifies
    have hattempt : attempts m = some row :=
      (congrFun (congrArg JobView.attempts h₁.view) m).symm.trans hrow
    refine ⟨hstore, _, h₁.writeAttempt hlocked (row.cancel now), fun n => ?_,
      fun n attempt hmem hsome => ?_⟩
    · by_cases hn : n = m
      · subst hn
        simp only [Function.update_self]
        exact .inr ⟨row, (hcancels n).running hattempt hstate, hstate, rfl⟩
      · simp only [Function.update_of_ne hn]
        exact hcancels n
    · by_cases hn : n = m
      · subst hn
        simp only [Function.update_self] at hsome
        obtain rfl := Option.some.inj hsome
        simp
      · simp only [Function.update_of_ne hn] at hsome
        refine hdone n attempt ?_ hsome
        simpa [hn] using hmem
  · rintro store updated σ' w' ⟨hstore, attempts, h', hcancels, hdone⟩
    refine hpost updated attempts σ' w' h' hcancels fun n attempt hattempt hstate => ?_
    have hrow : store.lookup (.attempt job n) = some attempt :=
      (hstore n).trans ((hcancels n).running hattempt hstate)
    refine hdone n attempt (List.mem_filter.mpr ⟨Store.mem_attempts.mpr ?_, ?_⟩) hattempt hstate
    · simp [Store.attempt, hrow]
    · simp [hrow, hstate]

/-- A request for cancellation is verified: the attempts are cancelled with their job. -/
theorem wp_requestCancellation {workspace : Uuid} {jobID : String} :
    (contract p s).wp (requestCancellation workspace jobID w.clock) (Replies p s fun _ => .done)
      (.start (.requestCancellation workspace jobID) w.clock w.store) w := by
  have h := Working.start (F := nothing) (.requestCancellation workspace jobID) w
  unfold requestCancellation
  refine Contract.wp_then (wp_uuidParam (fun job hjob => ?_) ?_)
  swap
  · exact .error trivial (by simp [Err.Ordinary])
  have hnothing : ∀ σ' w', Working nothing
        (.start (.requestCancellation workspace jobID) w.clock w.store) σ' w' →
      Replies p s (fun _ : Unit => .done) (.ok ()) σ' w' := by
    intro σ' w' h'
    refine h'.replies fun w'' => ?_
    rw [Effect, h'.call]
    trivial
  refine Contract.wp_then (Contract.wp_updateKey ?_ ?_ ?_)
  · exact fun σ' w' hlater _ _ => Contract.wp_pure (hnothing σ' w' (h.later hlater))
  · exact fun σ₁ w₁ σ' w' hlater _ hlater' _ _ _ _ =>
      Contract.wp_pure (hnothing σ' w' ((h.later hlater).later hlater'))
  intro σ₁ w₁ σ₂ w₂ row hlater₁ _ hlater₂ _ hlocked hrow hqualifies
  simp only [Bool.and_eq_true, decide_eq_true_eq] at hqualifies
  have h₂ := (h.later hlater₁).later hlater₂
  have hbase : w₂.rows.job job = some row := (h₂.after_lookup (.job job)).symm.trans hrow
  have hlive : row.state.terminal = false := row.cancellable_iff.mp hqualifies.2
  have hhandling : Handling (jobFootprint job fun _ _ _ => False) _ σ₂ w₂ job
      (jobView w₂.rows job) (jobView w₂.rows job) :=
    ⟨h₂.of_nothing, hlocked, ⟨row, hbase, hlive⟩, rfl, h₂.after_jobView job⟩
  refine Contract.wp_then (wp_cancelAttempts (hhandling.writeJob _) ?_)
  intro updated attempts σ₃ w₃ h₃ hcancels hidle
  refine Contract.wp_then ?_
  refine h₃.wp_updateJob rfl ?_ ?_
  · rw [JobRow.cancellable_iff]
    exact hlive
  intro σ₄ w₄ _ _ h₄
  refine wp_audit fun id record σ₅ w₅ hlater₅ _ hlocked₅ => .ok fun w₆ hrely _ _ => ?_
  have h₆ := ((h₄.later hlater₅).writeAudit hlocked₅ record).later (.of_rely hrely)
  refine h₆.guarantee (.single (.cancel row attempts hbase hlive hcancels hidle))
    (fun _ _ _ => False.elim) (fun _ _ _ => False.elim) ?_ ?_ ?_ ?_ ?_
  · exact fun _ _ _ _ _ _ => .inl ⟨workspace, jobID, rfl, hjob⟩
  · exact fun m hnone hsome => absurd hnone ((hcancels m).ne_none_iff.mp hsome)
  · rintro row' ⟨⟩ hqueued
    simp at hqueued
  · rintro row' ⟨⟩ hsucceeded
    simp at hsucceeded
  · rw [Effect, h₆.call]
    trivial

end Tracewake.Hosted
