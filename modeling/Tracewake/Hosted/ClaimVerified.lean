import Tracewake.Hosted.Commits

/-!
# Claims

A claim computes the number of the next attempt before it holds the job. The attempt
it inserts is nevertheless the next one, because its key would otherwise be taken.
-/

namespace Tracewake.Hosted

open ReadCommitted

variable {p : Policy} {s : Service} {σ₀ σ σ' : Session} {w w' : World}

section NextAttempt

/-- The maximum of some numbers and a start is one of them. -/
theorem foldr_max_mem (numbers : List ℤ) (start : ℤ) :
    numbers.foldr max start = start ∨ numbers.foldr max start ∈ numbers := by
  induction numbers with
  | nil => exact .inl rfl
  | cons m rest ih =>
    rcases max_choice m (rest.foldr max start) with hmax | hmax
    · exact .inr (by simp [List.foldr_cons, hmax])
    · rw [List.foldr_cons, hmax]
      exact ih.imp_right (List.mem_cons_of_mem m)

variable {store : Store} {job : Uuid}

/-- The attempt numbers of a job are those of its rows. -/
theorem Store.mem_attemptNumbers {n : ℤ} :
    n ∈ store.attemptNumbers job ↔ store.attempt job n ≠ none := by
  rw [Store.attemptNumbers, List.mem_filterMap]
  constructor
  · rintro ⟨⟨owner, m⟩, hmem, heq⟩
    simp only [Option.ite_none_right_eq_some, Option.some.injEq] at heq
    obtain ⟨rfl, rfl⟩ := heq
    exact Store.mem_attempts.mp hmem
  · exact fun hne => ⟨(job, n), Store.mem_attempts.mpr hne, by simp⟩

/-- Attempts are numbered from 1. -/
theorem nextAttempt_pos : 1 ≤ nextAttempt store job := by
  have hnonneg : ∀ numbers : List ℤ, 0 ≤ numbers.foldr max 0 := by
    intro numbers
    induction numbers with
    | nil => exact le_rfl
    | cons m rest ih => exact ih.trans (le_max_right _ _)
  have := hnonneg (store.attemptNumbers job)
  simp only [nextAttempt]
  omega

/-- The attempt before the next one exists, unless the next one is the first. -/
theorem nextAttempt_previous (h : 1 < nextAttempt store job) :
    store.attempt job (nextAttempt store job - 1) ≠ none := by
  simp only [nextAttempt, add_sub_cancel_right] at h ⊢
  rcases foldr_max_mem (store.attemptNumbers job) 0 with hzero | hmem
  · omega
  · exact Store.mem_attemptNumbers.mp hmem

/-- The next attempt of a job with attempts up to `k` is at most the one after. -/
theorem nextAttempt_le {k : ℤ} (h : (jobView store job).Numbered k) :
    nextAttempt store job ≤ k + 1 := by
  simp only [nextAttempt]
  rcases foldr_max_mem (store.attemptNumbers job) 0 with hzero | hmem
  · have := h.1
    omega
  · have := ((h.2.2 _).mp (Store.mem_attemptNumbers.mp hmem)).2
    omega

end NextAttempt

/-- A job that is queued at one version at the beginning and at the end of a stretch
of time is queued at that version throughout. -/
theorem Claimable.now {τ : Session} {w₀ : World} {jobID : String} {version : ℤ}
    (hbefore : τ.before = w₀.rows) (hfirst : (contract p s).Rely σ w₀ w)
    (hrest : (contract p s).Rely σ' w w') (h : Claimable τ w' jobID version) :
    ∃ job row, Uuid.parse jobID = some job ∧ 0 < version ∧ w.rows.job job = some row ∧
      row.state = .queued ∧ row.rowVersion = version := by
  obtain ⟨job, row, row', hparse, hpositive, hrow, hstate, hversion, hrow', _, hversion'⟩ := h
  rw [hbefore] at hrow
  obtain ⟨row₁, hrow₁, _, _, hchange₁⟩ := rely_job hfirst hrow
  obtain ⟨row₂, hrow₂, _, _, hchange₂⟩ := rely_job hrest hrow₁
  obtain rfl := Option.some.inj (hrow₂.symm.trans hrow')
  have hsame : row₁ = row := by
    rcases hchange₁ with heq | hlt
    · exact heq
    · rcases hchange₂ with rfl | hlt'
      · omega
      · omega
  subst hsame
  exact ⟨job, row₁, hparse, hpositive, hrow₁, hstate, hversion⟩

/-- An ordinary error of a claim. It must not turn down a claimable job. -/
theorem Replies.claim_error {α : Type} {reply : α → Reply} {error : Err} {worker : Uuid}
    {jobID token : String} {version : ℤ} (hcall : σ.call = .claim worker jobID version token)
    (hordinary : error.Ordinary)
    (h : s.CollisionFree → ∀ w', (contract p s).Rely σ w w' → Claimable σ w' jobID version →
      error ≠ .conflict ∧ error ≠ .notFound) : Replies p s reply (.error error) σ w := by
  intro w' hrely _
  refine ⟨hordinary, ?_, ?_, ?_⟩
  · intro hfree worker' jobID' version' token' hcall' hclaimable
    rw [hcall] at hcall'
    cases hcall'
    exact h hfree w' hrely hclaimable
  · intro workspace key request randomInput randomJob operation digest record hcall'
    rw [hcall] at hcall'
    cases hcall'
  · intro _ workspace key request randomInput randomJob operation digest hcall'
    rw [hcall] at hcall'
    cases hcall'

/-- One result is computed for each value. -/
theorem mapM_length {α β : Type} {f : α → Option β} {values : List α} {results : List β}
    (h : values.mapM f = some results) : results.length = values.length := by
  induction values generalizing results with
  | nil =>
    obtain rfl : [] = results := by simpa using h
    rfl
  | cons value values ih =>
    rw [List.mapM_cons] at h
    obtain ⟨first, _, h⟩ := Option.bind_eq_some_iff.mp h
    obtain ⟨rest, hrest, h⟩ := Option.bind_eq_some_iff.mp h
    obtain rfl := Option.some.inj h
    simp [ih hrest]

/-- A job that waits for its next attempt has had at most two. -/
theorem JobView.Sound.nextAttempt_le {fenced : Prop} {store : Store} {job : Uuid}
    (h : (jobView store job).Sound fenced) {row : JobRow} (hrow : store.job job = some row)
    (hwaiting : row.state = .queued ∨ row.state = .retryWait) : nextAttempt store job ≤ 3 := by
  obtain ⟨k, hk⟩ := h.numbered
  have hthree : store.attempt job 3 = none := (h.waiting row hrow hwaiting).2.2
  have hlt : k < 3 := by
    by_contra hge
    exact (hk.2.2 3).mpr ⟨by omega, by omega⟩ hthree
  have := Hosted.nextAttempt_le hk
  omega

/-- A claim of a job finds all of its input runs. -/
theorem Consistent.claimInputs_length (hfree : s.CollisionFree) (hinv : Consistent p s w.rows)
    {job : Uuid} {row row' : JobRow} {input : InputRow} {store : Store}
    (hrow : w.rows.job job = some row) (hlive : row.state.terminal = false)
    (hinput : w.rows.jobInput row = some input) (hrow' : store.job job = some row')
    (hinput' : store.jobInput row' = some input) (hruns : ∀ run, store.run run = w.rows.run run) :
    (claimInputs job store).length = expectedInputs input.operation := by
  rw [← hinv.shapes _ _ hinput]
  simp only [claimInputs, hrow', Option.bind_some, hinput']
  refine List.filterMap_length_eq_length.mpr fun run hrun => ?_
  obtain ⟨found, hfound, _, hstate, _⟩ := hinv.runs hfree job row input hrow hinput run hrun
  simp [hruns, hfound, hstate hlive]

section Counted

variable {worker job : Uuid} {jobID token : String} {version : ℤ} {w₀ w₁ : World} {σ₁ : Session}
  {row : JobRow} {input : InputRow} {next : ℤ}

/-- A claim that has counted the attempts of a job and then locked the job and its input.
The count is older than the locks: it tells that the attempt before exists, and that a job
that has been claimable all along has attempts left. -/
structure Counted (p : Policy) (s : Service) (worker : Uuid) (jobID token : String) (version : ℤ)
    (job : Uuid) (w₀ : World) (row : JobRow) (input : InputRow) (next : ℤ) (σ : Session)
    (w : World) : Prop where
  parsed : Uuid.parse jobID = some job
  onward : (contract p s).Onward
    (.start (.claim worker jobID version token) w₀.clock w₀.store) w₀ σ w
  working : Working nothing (.start (.claim worker jobID version token) w₀.clock w₀.store) σ w
  locked : σ.locks (.job job) = some .exclusive
  found : w.rows.job job = some row
  foundInput : w.rows.jobInput row = some input
  positive : 1 ≤ next
  previous : 1 < next → w.rows.attempt job (next - 1) ≠ none
  bounded : ∀ w', (contract p s).Rely σ w w' → Claimable σ w' jobID version → next ≤ 3

/-- A claim counts the attempts and locks the job. Where it finds no job or no input, the job
has not been claimable all along. -/
theorem wp_lockQueuedJob {post : Except Err (JobRow × InputRow × ℤ) → Session → World → Prop}
    (hjob : Uuid.parse jobID = some job)
    (hok : ∀ row input next σ' w',
      Counted p s worker jobID token version job w row input next σ' w' →
        post (.ok (row, input, next)) σ' w')
    (herror : ∀ σ' w', Replies p s Reply.claim (.error .conflict) σ' w' →
      post (.error .conflict) σ' w') :
    (contract p s).wp (lockQueuedJob job) post
      (.start (.claim worker jobID version token) w.clock w.store) w := by
  have h₀ := Working.start (F := nothing) (.claim worker jobID version token) w
  unfold lockQueuedJob
  refine Contract.wp_snapshot fun σ₁ w₁ hlater₁ _ hinv₁ => ?_
  have h₁ := h₀.later hlater₁
  split
  · next hmissing =>
    refine Contract.wp_fail (herror _ _ (.claim_error hlater₁.call (by simp [Err.Ordinary]) ?_))
    intro _ w' hrely hclaimable
    obtain ⟨job', row, hparse, _, hrow, _⟩ :=
      hclaimable.now hlater₁.origin hlater₁.rely hrely
    obtain rfl := Option.some.inj (hjob.symm.trans hparse)
    have hrow₁ := (h₁.after_lookup (.job job)).trans hrow
    exact absurd (hmissing.symm.trans hrow₁) (by simp)
  next found hfound =>
  have hfound₁ : w₁.rows.job job = some found := (h₁.after_lookup (.job job)).symm.trans hfound
  obtain ⟨input, hinput₁, _⟩ := hinv₁.inputs job found hfound₁
  split
  · next hnone =>
    have hview : (σ₁.after w₁).jobInput found = some input :=
      (h₁.after_lookup (.input found.input)).trans hinput₁
    simp [hview] at hnone
  refine Contract.wp_lock fun σ₂ w₂ hlater₂ hlock₂ _ => ?_
  refine Contract.wp_lock fun σ₃ w₃ hlater₃ _ hinv₃ => ?_
  have h₂ := h₁.later hlater₂
  have h₃ := h₂.later hlater₃
  have hlocked₂ : σ₂.locks (.job job) = some .exclusive := by
    rw [hlock₂]
    exact Session.lock_locks_self σ₁ _
  -- the job and its input still exist once they are locked
  obtain ⟨row, hrow₂, _, hsame, _⟩ := rely_job hlater₂.rely hfound₁
  have hrow₃ : w₃.rows.job job = some row :=
    (hlater₃.lookup_eq (by simp [hlocked₂])).trans hrow₂
  have hinput₃ : w₃.rows.input found.input = some input :=
    rely_input hlater₃.rely (rely_input hlater₂.rely hinput₁)
  rw [show (σ₂.view w₂.store).lookup (.job job) = some row from (h₂.after_lookup _).trans hrow₂,
    show (σ₃.view w₃.store).lookup (.input found.input) = some input from
      (h₃.after_lookup _).trans hinput₃]
  dsimp only
  refine Contract.wp_pure (hok _ _ _ _ _ ⟨hjob, (hlater₁.trans (hlater₂.trans hlater₃)).toOnward,
    h₃, hlater₃.exclusive _ hlocked₂, hrow₃, ?_, nextAttempt_pos, ?_, ?_⟩)
  · rw [Store.jobInput, hsame]
    exact hinput₃
  · -- an attempt that was counted is there to stay
    intro hlt
    have hprevious := nextAttempt_previous hlt
    have hbase : w₁.rows.attempt job (nextAttempt (σ₁.view w₁.store) job - 1) ≠ none := by
      rwa [← show (σ₁.after w₁).attempt job _ = w₁.rows.attempt job _ from h₁.after_lookup _]
    exact rely_attempt (hlater₂.trans hlater₃).rely hbase
  · intro w' hrely hclaimable
    obtain ⟨job', row', hparse, _, hrow', hqueued, _⟩ := hclaimable.now
      (hlater₁.trans (hlater₂.trans hlater₃)).origin hlater₁.rely
      ((hlater₂.trans hlater₃).trans (.of_rely hrely)).rely
    obtain rfl := Option.some.inj (hjob.symm.trans hparse)
    have hsound := hinv₁.jobs job
    rw [← h₁.after_jobView job] at hsound
    exact hsound.nextAttempt_le ((h₁.after_lookup (.job job)).trans hrow') (.inl hqueued)

/-- The check of a claim only turns down a job that is not claimable. -/
theorem Counted.refused (h : Counted p s worker jobID token version job w₀ row input next σ w)
    (hinvalid : (row.state = .queued && next ≤ 3 &&
      (version ≤ 0 || version = row.rowVersion)) = false) :
    Replies p s Reply.claim (.error .conflict) σ w := by
  refine .claim_error h.onward.call (by simp [Err.Ordinary]) ?_
  intro _ w' hrely hclaimable
  obtain ⟨job', row', hparse, _, hrow', hqueued, hversion⟩ :=
    hclaimable.now h.onward.origin h.onward.rely hrely
  obtain rfl := Option.some.inj (h.parsed.symm.trans hparse)
  obtain rfl := Option.some.inj (h.found.symm.trans hrow')
  simp [hqueued, hversion, h.bounded w' hrely hclaimable] at hinvalid

/-- The commit of a claim starts the attempt and changes nothing else. -/
theorem Counted.guarantee {attempt : AttemptRow} {result : Claim}
    (h : Counted p s worker jobID token version job w₀ row input next σ₁ w₁)
    (hqueued : row.state = .queued) (hnext : next ≤ 3)
    (hversion : version ≤ 0 ∨ version = row.rowVersion)
    (hfree : w₁.rows.attempt job next = none) (hattempt : attempt.state = .running)
    (hhandling : Handling (jobFootprint job fun _ _ _ => False)
      (.start (.claim worker jobID version token) w₀.clock w₀.store) σ w job (jobView w₁.rows job)
      { jobView w₁.rows job with
        job := some (row.claim w₀.clock next)
        attempts := Function.update (jobView w₁.rows job).attempts next (some attempt) }) :
    Guarantee p s σ (.claim result) w := by
  refine hhandling.guarantee (.single (.claim row next attempt h.found hqueued hfree h.positive
    hnext h.previous hattempt)) (fun _ _ _ => False.elim) (fun _ _ _ => False.elim) ?_ ?_ ?_ ?_ ?_
  · rintro _ _ row' _ ⟨⟩ hterminal
    simp at hterminal
  · exact fun _ _ _ => ⟨worker, jobID, version, token, rfl, h.parsed⟩
  · rintro row' ⟨⟩ hrunning
    simp at hrunning
  · rintro row' ⟨⟩ hrunning
    simp at hrunning
  · rw [Effect, hhandling.call]
    have hrow : w.rows.job job = some row := (congrArg JobView.job hhandling.base).trans h.found
    refine ⟨job, row, next, h.parsed, hrow, hqueued, hversion, ?_⟩
    rw [hhandling.now]
    exact congrArg JobView.job hhandling.view

/-- Without collisions, a claim that has started its attempt finds the runs of the input. -/
theorem Counted.claimInputs_length {v : JobView}
    (h : Counted p s worker jobID token version job w₀ row input next σ₁ w₁)
    (hqueued : row.state = .queued) (honward : (contract p s).Onward σ₁ w₁ σ w)
    (hhandling : Handling (jobFootprint job fun _ _ _ => False)
      (.start (.claim worker jobID version token) w₀.clock w₀.store) σ w job (jobView w₁.rows job)
      v) (hclaimed : v.job = some (row.claim w₀.clock next)) (hcollision : s.CollisionFree)
    (hinv : Consistent p s w.rows) :
    (claimInputs job (σ.after w)).length = expectedInputs input.operation := by
  have hrow : w.rows.job job = some row := (congrArg JobView.job hhandling.base).trans h.found
  have hinput : w.rows.jobInput row = some input := rely_input honward.rely h.foundInput
  refine hinv.claimInputs_length hcollision hrow (by simp [hqueued]) hinput
    ((congrArg JobView.job hhandling.view).trans hclaimed) ?_ hhandling.after_run
  rw [Store.jobInput, hhandling.after_input]
  exact hinput

/-- A claim starts the next attempt of a queued job. It turns down a job only if the job has
not been claimable all along. -/
theorem wp_claim : (contract p s).wp (claim s worker jobID version token w.clock)
    (Replies p s .claim) (.start (.claim worker jobID version token) w.clock w.store) w := by
  unfold claim
  refine Contract.wp_then (wp_uuidParam (fun job hjob => ?_) ?_)
  swap
  · exact .claim_error rfl (by simp [Err.Ordinary]) fun _ _ _ _ => by simp
  refine Contract.wp_then (wp_lockQueuedJob hjob (fun row input next σ₁ w₁ h => ?_) fun _ _ => id)
  dsimp only
  have hrefuse : ∀ (error : Err) (σ' : Session) (w' : World), (contract p s).Onward σ₁ w₁ σ' w' →
      error.Ordinary → (s.CollisionFree → error ≠ .conflict ∧ error ≠ .notFound) →
      Replies p s .claim (.error error) σ' w' := fun error σ' w' honward hordinary hnot =>
    .claim_error (h.onward.trans honward).call hordinary fun hfree _ _ _ => hnot hfree
  refine Contract.wp_then (wp_require (fun hvalid => ?_) h.refused)
  simp only [Bool.and_eq_true, Bool.or_eq_true, decide_eq_true_eq] at hvalid
  obtain ⟨⟨hqueued, hnext⟩, hversion⟩ := hvalid
  unfold Service.newToken
  refine Contract.wp_then (Contract.wp_then (wp_require (fun _ => Contract.wp_pure ?_) fun _ => ?_))
  swap
  · exact hrefuse _ _ _ .refl (by simp [Err.Ordinary]) fun _ => by simp
  dsimp only
  -- the job is the claim's from here on
  have h₁ : Handling (jobFootprint job fun _ _ _ => False)
      (.start (.claim worker jobID version token) w.clock w.store) σ₁ w₁ job
      (jobView w₁.rows job) (jobView w₁.rows job) :=
    ⟨h.working.of_nothing, h.locked, ⟨row, h.found, by simp [hqueued]⟩, rfl,
      h.working.after_jobView job⟩
  refine Contract.wp_then (wp_insertInto ?_ ?_)
  · exact fun w' hlater _ _ => hrefuse _ _ _ hlater.toOnward
      (by simp [Err.Ordinary, outboxConstraint]) fun _ => by simp
  intro σ₂ w₂ hlater₂ _ hlocked₂ hnone
  have h₂ := h₁.later hlater₂
  have hfree : w₁.rows.attempt job next = none :=
    (congrFun (congrArg JobView.attempts h₂.view) _).symm.trans hnone
  refine Contract.wp_then ?_
  refine (h₂.writeAttempt hlocked₂ _).wp_updateJob h.found (by simp [hqueued]) ?_
  intro σ₃ w₃ hlater₃ _ h₃
  refine Contract.wp_then (wp_audit fun id record σ₄ w₄ hlater₄ _ hlocked₄ => ?_)
  have h₄ := (h₃.later hlater₄).writeAudit hlocked₄ record
  refine Contract.wp_then (Contract.wp_select fun σ₅ w₅ hlater₅ _ hinv₅ => ?_)
  have h₅ := h₄.later hlater₅
  have honward := (((hlater₂.toOnward.write _ _).trans hlater₃.toOnward).write _ _).trans
    hlater₄.toOnward |>.write (.audit id) record |>.trans hlater₅.toOnward
  dsimp only
  split
  · exact Contract.wp_fail (hrefuse _ _ _ honward (by simp [Err.Ordinary]) fun _ => by simp)
  next inputs hinputs =>
  refine Contract.wp_then (wp_require (fun _ => ?_) fun hshort => ?_)
  · exact Contract.wp_pure (.ok fun w' hrely _ _ =>
      h.guarantee hqueued hnext hversion hfree rfl (h₅.later (.of_rely hrely)))
  · -- without collisions the input runs are all there
    refine hrefuse _ _ _ honward (by simp [Err.Ordinary]) fun hcollision => ?_
    have hlength := h.claimInputs_length hqueued honward h₅ rfl hcollision hinv₅
    rw [mapM_length hinputs, hlength] at hshort
    simp at hshort

end Counted

end Tracewake.Hosted
