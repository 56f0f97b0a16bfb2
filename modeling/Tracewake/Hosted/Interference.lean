import Tracewake.Hosted.Contract

/-!
# What a transaction can rely on

Facts that hold from one point of a transaction to a later one although other
transactions commit in between. Some hold for good; others hold because the
session has locked a row.
-/

namespace Tracewake.Hosted

open ReadCommitted

variable {p : Policy} {s : Service} {σ : Session} {w w' : World}

/-- A row that a transaction does not change is committed unchanged. -/
theorem after_lookup {key : Key} (h : σ.writes.lookup key = none) :
    (σ.after w).lookup key = w.rows.lookup key := by
  simp [Session.view, h]

/-- A job none of whose rows is changed is committed unchanged. -/
theorem after_jobView {job : Uuid} (h : ∀ key, key.owner = some job → σ.writes.lookup key = none) :
    jobView (σ.after w) job = jobView w.rows job := by
  ext1
  · exact after_lookup (h (.job job) rfl)
  · exact funext fun n => after_lookup (h (.attempt job n) rfl)
  · exact funext fun kind => after_lookup (h (.artifact job kind) rfl)
  · exact after_lookup (h (.progress job) rfl)

/-- Two compatible sessions do not both lock a row when one of them does exclusively. -/
theorem locks_none_of_exclusive {τ : Session} (h : σ.Compatible τ) {key : Key}
    (hσ : σ.locks key ≠ none) : τ.locks key ≠ some .exclusive := by
  intro hτ
  obtain ⟨m, hm⟩ := Option.ne_none_iff_exists'.mp hσ
  have := (h key m _ hm hτ).2
  cases this

/-- A row that one session has locked exclusively no compatible session has locked. -/
theorem locks_none_of_locked {τ : Session} (h : σ.Compatible τ) {key : Key}
    (hσ : σ.locks key = some .exclusive) : τ.locks key = none := by
  by_contra hτ
  obtain ⟨m, hm⟩ := Option.ne_none_iff_exists'.mp hτ
  have := (h key _ m hσ hm).1
  cases this

/-- Whatever every commit of the others keeps, and time does not change, lasts. -/
theorem rely_keeps (P : World → Prop) (htick : ∀ w n, P w → P (w.tick n))
    (hdraw : ∀ w, P w → P w.draw) (hrefuse : ∀ w (τ : Session) (e : Err), P w → P (w.refuse τ e))
    (hcommit : ∀ (w : World) (τ : Session) (reply : Reply), Consistent p s w.rows → σ.Compatible τ →
      (contract p s).Apart σ.call σ.now σ.statements τ w → Guarantee p s τ reply w → P w →
      P (w.commit τ reply))
    (h : (contract p s).Rely σ w w') : P w → P w' := by
  refine Contract.Rely.preserves P (fun w w' hinv hstep _ hw => ?_) h
  cases hstep with
  | tick n => exact htick w n hw
  | draw => exact hdraw w hw
  | refuse τ e _ => exact hrefuse w τ e hw
  | commit τ reply hcompatible _ hapart _ hguar =>
    exact hcommit w τ reply hinv hcompatible hapart hguar hw

/-- Like `rely_keeps` for properties of the committed rows. -/
theorem rely_keeps_rows (P : Store → Prop)
    (hcommit : ∀ (w : World) (τ : Session) (reply : Reply), Consistent p s w.rows →
      σ.Compatible τ → (contract p s).Apart σ.call σ.now σ.statements τ w →
      Guarantee p s τ reply w → P w.rows →
      P (τ.after w))
    (h : (contract p s).Rely σ w w') : P w.rows → P w'.rows :=
  rely_keeps (fun w : World => P w.rows) (fun _ _ => id) (fun _ => id) (fun _ _ _ => id) hcommit h

variable (h : (contract p s).Rely σ w w')
include h

/-- Attempts are never removed. -/
theorem rely_attempt {job : Uuid} {n : ℤ} (hattempt : w.rows.attempt job n ≠ none) :
    w'.rows.attempt job n ≠ none :=
  rely_keeps_rows (fun rows : Store => rows.attempt job n ≠ none)
    (fun _ _ _ _ _ _ hguar hold => (hguar.jobs job).attempts hold) h hattempt

/-- Input rows never change. -/
theorem rely_input {i : Uuid} {input : InputRow} (hinput : w.rows.input i = some input) :
    w'.rows.input i = some input :=
  rely_keeps_rows (fun rows : Store => rows.input i = some input)
    (fun _ _ _ _ _ _ hguar hold => hguar.inputs i input hold) h hinput

/-- The input of a digest never changes. -/
theorem rely_digest {workspace i : Uuid} {digest : String}
    (hdigest : w.rows.lookup (.inputDigest workspace digest) = some i) :
    w'.rows.lookup (.inputDigest workspace digest) = some i :=
  rely_keeps_rows (fun rows : Store => rows.lookup (.inputDigest workspace digest) = some i)
    (fun _ _ _ _ _ _ hguar hold => hguar.keepsDigests workspace digest i hold) h hdigest

/-- A job stays in its workspace and on its input, and its version tells whether its
row has changed. -/
theorem rely_job {job : Uuid} {row : JobRow} (hrow : w.rows.job job = some row) :
    ∃ row', w'.rows.job job = some row' ∧ row'.workspace = row.workspace ∧
      row'.input = row.input ∧ (row' = row ∨ row.rowVersion < row'.rowVersion) := by
  refine rely_keeps_rows (fun rows : Store => ∃ row', rows.job job = some row' ∧
    row'.workspace = row.workspace ∧ row'.input = row.input ∧
    (row' = row ∨ row.rowVersion < row'.rowVersion)) ?_ h ⟨row, hrow, rfl, rfl, .inl rfl⟩
  rintro w τ reply _ _ _ hguar ⟨row₁, hrow₁, hworkspace₁, hinput₁, hversion₁⟩
  obtain ⟨row₂, hrow₂, hworkspace₂, hinput₂, hversion₂⟩ := hguar.job_some hrow₁
  refine ⟨row₂, hrow₂, hworkspace₂.trans hworkspace₁, hinput₂.trans hinput₁, ?_⟩
  rcases hversion₂ with rfl | hlt₂
  · exact hversion₁
  · rcases hversion₁ with rfl | hlt₁
    · exact .inr hlt₂
    · exact .inr (hlt₁.trans hlt₂)

/-- A job that is over keeps its row. -/
theorem rely_terminal {job : Uuid} {row : JobRow} (hrow : w.rows.job job = some row)
    (hterminal : row.state.terminal = true) : w'.rows.job job = some row :=
  rely_keeps_rows (fun rows : Store => rows.job job = some row)
    (fun _ _ _ _ _ _ hguar hold => hguar.terminal hold hterminal) h hrow

/-- While a job is locked and not over, nobody else changes any of its rows. -/
theorem rely_jobView {job : Uuid} (hlocked : σ.locks (.job job) ≠ none)
    (hlive : ¬ w.rows.Terminal job) : jobView w'.rows job = jobView w.rows job := by
  refine rely_keeps_rows (fun rows : Store => jobView rows job = jobView w.rows job) ?_ h rfl
  intro w₁ τ reply _ hcompatible _ hguar hsame
  rw [← hsame]
  rcases hguar.guarded job with hkept | hexclusive | ⟨row, hrow, hterminal⟩
  · exact hkept
  · exact absurd hexclusive (locks_none_of_exclusive hcompatible hlocked)
  · exact absurd ⟨row, (congrArg JobView.job hsame).symm.trans hrow, hterminal⟩ hlive

/-- While a run is locked exclusively, nobody else creates a job over it. -/
theorem rely_over (hfree : s.CollisionFree) {job run : Uuid} (hlocked : σ.locks (.run run) = some .exclusive)
    (hover : w'.rows.Over job run) : w.rows.Over job run := by
  refine rely_keeps_rows (fun rows : Store => rows.Over job run → w.rows.Over job run) ?_ h id hover
  rintro w₁ τ reply hinv hcompatible _ hguar hold ⟨row, input, hrow, hinput, hrun⟩
  rcases hguar.job_cases hinv hrow hinput with ⟨old, hold', hinput', _⟩ | hcreated
  · exact hold ⟨old, input, hold', hinput', hrun⟩
  · exact absurd (locks_none_of_locked hcompatible hlocked) (hcreated.locked hfree run hrun)

/-- A run goes on existing in its workspace. -/
theorem rely_run {run : Uuid} {row : RunRow} (hrow : w.rows.run run = some row) :
    ∃ row', w'.rows.run run = some row' ∧ row'.workspace = row.workspace := by
  refine rely_keeps_rows (fun rows : Store => ∃ row', rows.run run = some row' ∧
    row'.workspace = row.workspace) ?_ h ⟨row, hrow, rfl⟩
  rintro w₁ τ reply _ _ _ hguar ⟨row₁, hrow₁, hworkspace₁⟩
  obtain ⟨row₂, hrow₂, hworkspace₂⟩ := (hguar.runs run).run_some hrow₁
  exact ⟨row₂, hrow₂, hworkspace₂.trans hworkspace₁⟩

/-- A run that is ready or deleted never becomes anything but deleted. -/
theorem rely_run_settled {run : Uuid} {row : RunRow} (hrow : w.rows.run run = some row)
    (hstate : row.state = .ready ∨ row.state = .deleted) :
    ∃ row', w'.rows.run run = some row' ∧ row'.workspace = row.workspace ∧
      (row'.state = row.state ∨ row'.state = .deleted) := by
  refine rely_keeps_rows (fun rows : Store => ∃ row', rows.run run = some row' ∧
    row'.workspace = row.workspace ∧ (row'.state = row.state ∨ row'.state = .deleted)) ?_ h
    ⟨row, hrow, rfl, .inl rfl⟩
  rintro w₁ τ reply _ _ _ hguar ⟨row₁, hrow₁, hworkspace₁, hstate₁⟩
  have hstep := hguar.runs run
  obtain ⟨row₂, hrow₂, hworkspace₂⟩ := hstep.run_some hrow₁
  rw [hrow₁, hrow₂] at hstep
  have hsettled : row₁.state = .ready ∨ row₁.state = .deleted := by
    rcases hstate₁ with heq | hdeleted
    · rwa [heq]
    · exact .inr hdeleted
  refine ⟨row₂, hrow₂, hworkspace₂.trans hworkspace₁, ?_⟩
  rcases hstep.state with rfl | ⟨hpending, _⟩ | ⟨hvalidating, _⟩ | ⟨_, hdeleted⟩
  · exact hstate₁
  · simp [hpending] at hsettled
  · simp [hvalidating] at hsettled
  · exact .inr hdeleted

/-- A record is kept until it has expired. -/
theorem rely_record {workspace : Uuid} {key : String} {record : IdempotencyRow}
    (hrecord : w.rows.idempotency workspace key = some record) :
    w'.rows.idempotency workspace key = some record ∨ record.expiresAt ≤ w'.clock := by
  refine rely_keeps (fun w : World => w.rows.idempotency workspace key = some record ∨
    record.expiresAt ≤ w.clock) ?_ (fun _ => id) (fun _ _ _ => id) ?_ h (.inl hrecord)
  · rintro w n (hkept | hexpired)
    · exact .inl hkept
    · exact .inr (hexpired.trans (by simp))
  · rintro w₁ τ reply _ _ _ hguar (hkept | hexpired)
    · rcases hguar.recordsKept workspace key record hkept with hsame | ⟨_, hgone⟩
      · exact .inl hsame
      · exact .inr (hgone.trans hguar.time)
    · exact .inr hexpired

/-- While a job request is served under an exclusive key, the key stays free. -/
theorem rely_key_free (hkeyed : p.keyed) {workspace : Uuid} {key : String} {request : JobRequest}
    {randomInput randomJob : BitVec 128}
    (hcall : σ.call = .createJob workspace key request randomInput randomJob)
    (hfree : w.rows.idempotency workspace key = none) :
    w'.rows.idempotency workspace key = none := by
  refine rely_keeps_rows (fun rows : Store => rows.idempotency workspace key = none) ?_ h hfree
  intro w₁ τ reply _ _ hapart hguar hold
  by_contra hne
  obtain ⟨record, hrecord⟩ := Option.ne_none_iff_exists'.mp hne
  obtain ⟨⟨request', randomInput', randomJob', hτ⟩, _⟩ :=
    hguar.recordsNew workspace key record hold hrecord
  have happart := hapart.2 hkeyed
  rw [hcall] at happart
  exact happart.1 hold request' randomInput' randomJob' hτ

/-- While a job request is served under an exclusive key, its identifiers stay new. -/
theorem rely_ids_free (hkeyed : p.keyed) {workspace : Uuid} {key : String} {request : JobRequest}
    {randomInput randomJob : BitVec 128}
    (hcall : σ.call = .createJob workspace key request randomInput randomJob)
    (hinput : w.rows.input (newID randomInput) = none)
    (hjob : w.rows.job (newID randomJob) = none) :
    w'.rows.input (newID randomInput) = none ∧ w'.rows.job (newID randomJob) = none := by
  refine rely_keeps_rows (fun rows : Store => rows.input (newID randomInput) = none ∧
    rows.job (newID randomJob) = none) ?_ h ⟨hinput, hjob⟩
  rintro w₁ τ reply _ _ hapart hguar ⟨hinput₁, hjob₁⟩
  have happart := hapart.2 hkeyed
  rw [hcall] at happart
  refine ⟨?_, ?_⟩
  · by_contra hne
    obtain ⟨input, hnew⟩ := Option.ne_none_iff_exists'.mp hne
    exact happart.2 (newID randomInput) (by simp) (hguar.newInputs _ input hinput₁ hnew).2.1
  · by_contra hne
    obtain ⟨row, hnew⟩ := Option.ne_none_iff_exists'.mp hne
    exact happart.2 (newID randomJob) (by simp) (hguar.newJobs _ row hjob₁ hnew).1

end Tracewake.Hosted
