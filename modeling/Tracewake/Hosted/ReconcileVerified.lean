import Tracewake.Hosted.AttemptsVerified
import Tracewake.Hosted.PublicationVerified

/-!
# Reconciliation

A reconcile pass changes many jobs, one after the other. While it works on one job,
what it has done to the others stands: each of them is untouched, or it has been
changed by steps of the job machine and announced if it is queued again.
-/

namespace Tracewake.Hosted

open ReadCommitted

variable {p : Policy} {s : Service} {σ₀ σ₁ σ σ' : Session} {w₁ w w' : World} {job : Uuid}
  {v₀ v v' : JobView}

/-- What a reconcile pass may change. -/
def reconcileFootprint : Footprint Row where
  Allows
    | .job _, _, _ | .attempt _ _, _, _ | .run _, _, _ | .outbox _ _, _, _ | .audit _, _, _ => True
    | _, old, new => new = old
  refl key row := by
    cases key <;> trivial

/-- The transaction has changed no row of the job. -/
def Untouched (σ : Session) (job : Uuid) : Prop :=
  ∀ key : Key, key.owner = some job → σ.writes.lookup key = none

/-- The job was not over, and the transaction has ended it. -/
def Ended (σ : Session) (w : World) (job : Uuid) : Prop :=
  ∃ v₀ v row, Held σ w job v₀ v ∧ v.job = some row ∧ row.state.terminal = true

/-- The transaction has invalidated the run of a validation job that it has ended. -/
def Invalidated (σ : Session) (w : World) (run : Uuid) : Prop :=
  ∃ old code message job, Wrote σ w (.run run) (some old) (some (old.invalidate code message)) ∧
    old.state = .validating ∧ w.rows.Validates job run ∧ Ended σ w job

/-- The transaction has inserted a notification of a new version of a job. -/
def Announced (σ : Session) (w : World) (job : Uuid) (version : ℤ) : Prop :=
  ∃ sent operation v₀ v row₀ row, Wrote σ w (.outbox job version) none (some sent) ∧
    sent.payload = notificationPayload job version operation ∧ Held σ w job v₀ v ∧
    v₀.job = some row₀ ∧ row₀.rowVersion < version ∧ v.job = some row ∧ version ≤ row.rowVersion

/-- What the transaction has done to a job is complete. -/
structure Settled (p : Policy) (s : Service) (σ₀ σ : Session) (w : World) (job : Uuid)
    (v₀ v : JobView) : Prop extends Held σ w job v₀ v where
  change : JobChange p.fenced σ₀.now v₀ v
  attempts : ∀ n, v₀.attempts n = none → v.attempts n = none
  announced : ∀ row, v.job = some row → row.state = .queued →
    ∃ sent, σ.writes.lookup (.outbox job row.rowVersion) = some (some sent)
  ended : s.CollisionFree → ∀ row, v.job = some row → row.state.terminal = true →
    ∃ input, w.rows.jobInput row = some input ∧
      (input.operation = .validate → EndsValidation σ input.runA)
  unsucceeded : ∀ row, v.job = some row → row.state ≠ .succeeded

/-- Where a reconcile pass stands. At most the job it is busy with is not settled. -/
structure Reconciling (p : Policy) (s : Service) (busy : Option Uuid) (σ₀ σ : Session) (w : World) :
    Prop extends Working reconcileFootprint σ₀ σ w where
  jobs : ∀ job, busy ≠ some job → Untouched σ job ∨ ∃ v₀ v, Settled p s σ₀ σ w job v₀ v
  runs : ∀ run, σ.writes.lookup (.run run) = none ∨ Invalidated σ w run
  notifications : ∀ job version,
    σ.writes.lookup (.outbox job version) = none ∨ Announced σ w job version

section Stability

/-- What others commit writes nothing for this session. -/
theorem Untouched.later (h : Untouched σ job) (hlater : (contract p s).Later σ w σ' w') :
    Untouched σ' job :=
  fun key howner => hlater.writes ▸ h key howner

/-- A write to rows of another owner leaves the job untouched. -/
theorem Untouched.write (h : Untouched σ job) {key : Key} (hkey : key.owner ≠ some job)
    (row : Option (Row key)) : Untouched (σ.write key row) job := by
  intro other hother
  refine (AList.lookup_insert_ne ?_).trans (h other hother)
  rintro rfl
  exact hkey hother

/-- A job that the session has ended stays ended while it holds the job's lock. -/
theorem Ended.later (h : Ended σ w job) (hlater : (contract p s).Later σ w σ' w') :
    Ended σ' w' job := by
  obtain ⟨v₀, v, row, hheld, hrow⟩ := h
  exact ⟨v₀, v, row, hheld.later hlater, hrow⟩

/-- A write to rows of another owner leaves an ended job ended. -/
theorem Ended.write (h : Ended σ w job) {key : Key} (hkey : key.owner ≠ some job)
    (row : Option (Row key)) : Ended (σ.write key row) w job := by
  obtain ⟨v₀, v, row', hheld, hrow⟩ := h
  exact ⟨v₀, v, row', hheld.writeOther key hkey row, hrow⟩

/-- Which runs a job validates does not change. -/
theorem rely_validates {run : Uuid} (h : (contract p s).Rely σ w w')
    (hvalidates : w.rows.Validates job run) : w'.rows.Validates job run := by
  obtain ⟨row, input, hrow, hinput, hoperation⟩ := hvalidates
  obtain ⟨row', hrow', _, hsame, _⟩ := rely_job h hrow
  refine ⟨row', input, hrow', ?_, hoperation⟩
  rw [Store.jobInput, hsame]
  exact rely_input h hinput

/-- A run that the session has invalidated stays so while it holds the run's lock. -/
theorem Invalidated.later {run : Uuid} (h : Invalidated σ w run)
    (hlater : (contract p s).Later σ w σ' w') : Invalidated σ' w' run := by
  obtain ⟨old, code, message, job, hwrote, hold, hvalidates, hended⟩ := h
  exact ⟨old, code, message, job, hwrote.later hlater, hold, rely_validates hlater.rely hvalidates,
    hended.later hlater⟩

/-- A notification that the session has written stays among its writes. -/
theorem Announced.later {version : ℤ} (h : Announced σ w job version)
    (hlater : (contract p s).Later σ w σ' w') : Announced σ' w' job version := by
  obtain ⟨sent, operation, v₀, v, row₀, row, hwrote, hpayload, hheld, hrows⟩ := h
  exact ⟨sent, operation, v₀, v, row₀, row, hwrote.later hlater, hpayload, hheld.later hlater, hrows⟩

/-- What holds of a settled job goes on to hold while the session runs. -/
theorem Settled.later (h : Settled p s σ₀ σ w job v₀ v) (hlater : (contract p s).Later σ w σ' w') :
    Settled p s σ₀ σ' w' job v₀ v := by
  refine ⟨h.toHeld.later hlater, h.change, h.attempts, ?_, ?_, h.unsucceeded⟩
  · exact fun row hrow hstate => hlater.writes ▸ h.announced row hrow hstate
  · intro hfree row hrow hterminal
    obtain ⟨input, hinput, hends⟩ := h.ended hfree row hrow hterminal
    exact ⟨input, rely_input hlater.rely hinput, fun hoperation => (hends hoperation).later hlater⟩

/-- A run that the session has invalidated is no longer validating. -/
theorem Invalidated.endsValidation {run : Uuid} (h : Invalidated σ w run) :
    EndsValidation σ run := by
  obtain ⟨old, code, message, _, hwrote, _⟩ := h
  exact ⟨_, hwrote.written, by simp [RunRow.invalidate]⟩

/-- The notification of an announced version is among the writes. -/
theorem Announced.written {version : ℤ} (h : Announced σ w job version) :
    ∃ sent, σ.writes.lookup (.outbox job version) = some (some sent) := by
  obtain ⟨sent, _, _, _, _, _, hwrote, _⟩ := h
  exact ⟨sent, hwrote.written⟩

/-- A settled job stays settled when other rows are written, as runs are only
invalidated and notifications are only added. -/
theorem Settled.write (h : Settled p s σ₀ σ w job v₀ v) {key : Key} {row : Option (Row key)}
    (hkey : key.owner ≠ some job)
    (hruns : ∀ run, key = .run run → Invalidated (σ.write key row) w run)
    (hnotifications : ∀ other version, key = .outbox other version →
      Announced (σ.write key row) w other version) : Settled p s σ₀ (σ.write key row) w job v₀ v := by
  refine ⟨h.toHeld.writeOther key hkey row, h.change, h.attempts, ?_, ?_, h.unsucceeded⟩
  · intro found hfound hstate
    by_cases hsame : key = .outbox job found.rowVersion
    · exact (hnotifications _ _ hsame).written
    · obtain ⟨sent, hsent⟩ := h.announced found hfound hstate
      exact ⟨sent, (AList.lookup_insert_ne (Ne.symm hsame)).trans hsent⟩
  · intro hfree found hfound hterminal
    obtain ⟨input, hinput, hends⟩ := h.ended hfree found hfound hterminal
    refine ⟨input, hinput, fun hoperation => ?_⟩
    by_cases hsame : key = .run input.runA
    · exact (hruns _ hsame).endsValidation
    · exact (hends hoperation).write (Ne.symm hsame) row

namespace Reconciling

variable {busy : Option Uuid}

/-- The invariant of a reconciliation holds on while the others commit. -/
theorem later (h : Reconciling p s busy σ₀ σ w) (hlater : (contract p s).Later σ w σ' w') :
    Reconciling p s busy σ₀ σ' w' := by
  refine ⟨h.toWorking.later hlater, ?_, ?_, ?_⟩
  · intro job hjob
    exact (h.jobs job hjob).imp (·.later hlater) fun ⟨v₀, v, hsettled⟩ =>
      ⟨v₀, v, hsettled.later hlater⟩
  · exact fun run => (h.runs run).imp (fun hnone => hlater.writes ▸ hnone) (·.later hlater)
  · exact fun job version =>
      (h.notifications job version).imp (fun hnone => hlater.writes ▸ hnone) (·.later hlater)

/-- A row that belongs to no job is written. -/
theorem writeFree (h : Reconciling p s busy σ₀ σ w) {key : Key} {row : Option (Row key)}
    (howner : key.owner = none) (hlocked : σ.locks key = some .exclusive)
    (hallows : reconcileFootprint.Allows key (w.rows.lookup key) row)
    (hruns : ∀ run, key = .run run → Invalidated (σ.write key row) w run)
    (hnotifications : ∀ other version, key = .outbox other version →
      Announced (σ.write key row) w other version) :
    Reconciling p s busy σ₀ (σ.write key row) w := by
  have hother : ∀ job, key.owner ≠ some job := fun job => by simp [howner]
  refine ⟨h.toWorking.write hlocked hallows, ?_, ?_, ?_⟩
  · intro job hjob
    exact (h.jobs job hjob).imp (·.write (hother job) row) fun ⟨v₀, v, hsettled⟩ =>
      ⟨v₀, v, hsettled.write (hother job) hruns hnotifications⟩
  · intro run
    by_cases hsame : key = .run run
    · exact .inr (hruns run hsame)
    · refine (h.runs run).imp (AList.lookup_insert_ne (Ne.symm hsame)).trans ?_
      rintro ⟨old, code, message, job, hwrote, hold, hvalidates, hended⟩
      exact ⟨old, code, message, job, hwrote.write (Ne.symm hsame) row, hold, hvalidates,
        hended.write (hother job) row⟩
  · intro job version
    by_cases hsame : key = .outbox job version
    · exact .inr (hnotifications job version hsame)
    · refine (h.notifications job version).imp (AList.lookup_insert_ne (Ne.symm hsame)).trans ?_
      rintro ⟨sent, operation, v₀, v, row₀, row', hwrote, hpayload, hheld, hrows⟩
      exact ⟨sent, operation, v₀, v, row₀, row', hwrote.write (Ne.symm hsame) row, hpayload,
        hheld.writeOther key (hother job) row, hrows⟩

/-- An audit record concerns no job. -/
theorem writeAudit (h : Reconciling p s busy σ₀ σ w) {id : ℕ}
    (hlocked : σ.locks (.audit id) = some .exclusive) (row : Option AuditRow) :
    Reconciling p s busy σ₀ (σ.write (.audit id) row) w :=
  h.writeFree rfl hlocked trivial (by simp) (by simp)

/-- A row of the busy job is written, which was not over and keeps its notifications. -/
theorem writeBusy (h : Reconciling p s (some job) σ₀ σ w) {key : Key} {row : Option (Row key)}
    (howner : key.owner = some job) (hlocked : σ.locks key = some .exclusive)
    (hallows : reconcileFootprint.Allows key (w.rows.lookup key) row)
    (hheld : Held σ w job v₀ v) {old new : JobRow} (hold : v.job = some old)
    (hlive : old.state.terminal = false) (hheld' : Held (σ.write key row) w job v₀ v')
    (hnew : v'.job = some new) (hversion : old.rowVersion ≤ new.rowVersion) :
    Reconciling p s (some job) σ₀ (σ.write key row) w := by
  have hrun : ∀ run, key ≠ .run run := by
    rintro run rfl
    cases howner
  have hsent : ∀ other version, key ≠ .outbox other version := by
    rintro other version rfl
    cases howner
  refine ⟨h.toWorking.write hlocked hallows, ?_, ?_, ?_⟩
  · intro other hother
    have hkey : key.owner ≠ some other := howner ▸ hother
    exact (h.jobs other hother).imp (·.write hkey row) fun ⟨v₀, v, hsettled⟩ =>
      ⟨v₀, v, hsettled.write hkey (fun run heq => absurd heq (hrun run))
        fun other version heq => absurd heq (hsent other version)⟩
  · intro run
    refine (h.runs run).imp (AList.lookup_insert_ne (hrun run).symm).trans ?_
    rintro ⟨old', code, message, other, hwrote, hstate, hvalidates, hended⟩
    refine ⟨old', code, message, other, hwrote.write (hrun run).symm row, hstate, hvalidates, ?_⟩
    refine hended.write (fun heq => ?_) row
    -- an ended job is over in the view, and the busy one was not
    obtain rfl := Option.some.inj (howner.symm.trans heq)
    obtain ⟨_, v₁, row₁, hheld₁, hrow₁, hterminal⟩ := hended
    have hsame : v₁ = v := hheld₁.view.symm.trans hheld.view
    rw [hsame, hold] at hrow₁
    obtain rfl := Option.some.inj hrow₁
    simp [hlive] at hterminal
  · intro other version
    refine (h.notifications other version).imp (AList.lookup_insert_ne (hsent other version).symm).trans ?_
    rintro ⟨sent, operation, v₁, v₂, row₁, row₂, hwrote, hpayload, hheld₁, hrow₁, hlt, hrow₂, hle⟩
    by_cases hsame : other = job
    · subst hsame
      have hbase : v₁ = v₀ := hheld₁.base.symm.trans hheld.base
      have hview : v₂ = v := hheld₁.view.symm.trans hheld.view
      rw [hview, hold] at hrow₂
      obtain rfl := Option.some.inj hrow₂
      exact ⟨sent, operation, v₀, v', row₁, new, hwrote.write (hsent _ _).symm row, hpayload,
        hheld', hbase ▸ hrow₁, hlt, hnew, hle.trans hversion⟩
    · refine ⟨sent, operation, v₁, v₂, row₁, row₂, hwrote.write (hsent _ _).symm row, hpayload,
        hheld₁.writeOther key (fun heq => hsame ?_) row, hrow₁, hlt, hrow₂, hle⟩
      exact Option.some.inj (heq.symm.trans howner)

/-- The pass turns to a job that it has locked and that is not over. -/
theorem turn (h : Reconciling p s none σ₀ σ w) {row : JobRow}
    (hlocked : σ.locks (.job job) = some .exclusive) (hrow : (σ.after w).job job = some row)
    (hlive : row.state.terminal = false) :
    Reconciling p s (some job) σ₀ σ w ∧ ∃ v₀, Held σ w job v₀ (jobView (σ.after w) job) ∧
      JobChange p.fenced σ₀.now v₀ (jobView (σ.after w) job) ∧
      ∀ n, v₀.attempts n = none → (σ.after w).attempt job n = none := by
  refine ⟨⟨h.toWorking, fun other _ => h.jobs other (by simp), h.runs, h.notifications⟩, ?_⟩
  rcases h.jobs job (by simp) with huntouched | ⟨v₀, v, hsettled⟩
  · have hview := after_jobView (w := w) huntouched
    refine ⟨jobView w.rows job, ⟨hlocked, ⟨row, ?_, hlive⟩, rfl, rfl⟩, ?_, fun n hnone => ?_⟩
    · exact (congrArg JobView.job hview).symm.trans hrow
    · rw [hview]
      exact .refl
    · exact (congrFun (congrArg JobView.attempts hview) n).trans hnone
  · refine ⟨v₀, hsettled.view ▸ hsettled.toHeld, hsettled.view ▸ hsettled.change, fun n hnone => ?_⟩
    exact (congrFun (congrArg JobView.attempts hsettled.view) n).trans (hsettled.attempts n hnone)

/-- The pass is done with the job it was busy with. -/
theorem settle (h : Reconciling p s (some job) σ₀ σ w) (hsettled : Settled p s σ₀ σ w job v₀ v) :
    Reconciling p s none σ₀ σ w := by
  refine ⟨h.toWorking, fun other _ => ?_, h.runs, h.notifications⟩
  by_cases hsame : other = job
  · subst hsame
    exact .inr ⟨v₀, v, hsettled⟩
  · exact h.jobs other (fun heq => hsame (Option.some.inj heq).symm)

end Reconciling

end Stability

section Commit

variable {reply : Reply}

/-- What the commit of a pass says about one job. -/
theorem Reconciling.job_cases (h : Reconciling p s none σ₀ σ w) (job : Uuid) :
    jobView (σ.after w) job = jobView w.rows job ∨
      Settled p s σ₀ σ w job (jobView w.rows job) (jobView (σ.after w) job) := by
  rcases h.jobs job (by simp) with huntouched | ⟨v₀, v, hsettled⟩
  · exact .inl (after_jobView huntouched)
  · refine .inr ?_
    rw [hsettled.base, hsettled.view]
    exact hsettled

/-- When no job is under work, the commit gives the guarantee about jobs. Each job is
untouched or settled. -/
theorem Reconciling.jobGuarantee (h : Reconciling p s none σ₀ σ w)
    (hinv : Consistent p s w.rows) : JobGuarantee p s σ w := by
  have hborn : ∀ job, w.rows.job job = none → (σ.after w).job job = none := by
    intro job hnone
    rcases h.job_cases job with hsame | hsettled
    · exact (congrArg JobView.job hsame).trans hnone
    · obtain ⟨row, hrow, _⟩ := hsettled.live
      rw [hnone] at hrow
      cases hrow
  refine ⟨?_, ?_, ?_, ?_, ?_, ?_, ?_, ?_⟩
  · intro job
    rcases h.job_cases job with hsame | hsettled
    · rw [hsame]
      exact .refl
    · rw [h.now]
      exact hsettled.change
  · intro job
    exact (h.job_cases job).imp id fun hsettled => .inl hsettled.locked
  · intro job row hnone hsome
    rw [hborn job hnone] at hsome
    cases hsome
  · intro job _ hnone hsome
    exact absurd (hborn job hnone) hsome
  · rintro hfree job run hvalidates hlive ⟨row, hrow, hterminal⟩
    rcases h.job_cases job with hsame | hsettled
    · exact absurd ⟨row, (congrArg JobView.job hsame).symm.trans hrow, hterminal⟩ hlive
    · obtain ⟨input, hinput, hends⟩ := hsettled.ended hfree row hrow hterminal
      obtain ⟨old, hold, _⟩ := hsettled.live
      have hchange : JobChange p.fenced σ₀.now (jobView w.rows job) (jobView (σ.after w) job) :=
        hsettled.change
      obtain ⟨row', hrow', _, hsameInput, _⟩ := hchange.job_some hold
      obtain rfl := Option.some.inj (hrow.symm.trans hrow')
      have hinput' : w.rows.jobInput old = some input := by
        rw [Store.jobInput, ← hsameInput]
        exact hinput
      obtain ⟨hoperation, rfl⟩ := hinv.validates_runA hold hinput' hvalidates
      obtain ⟨found, hfound, hstate⟩ := (hends hoperation).after w
      refine .inr fun found' hfound' => ?_
      obtain rfl := Option.some.inj (hfound'.symm.trans hfound)
      exact hstate
  · intro job n hnone hsome
    rcases h.job_cases job with hsame | hsettled
    · exact absurd ((congrFun (congrArg JobView.attempts hsame) n).trans hnone) hsome
    · exact absurd (hsettled.attempts n hnone) hsome
  · intro job row hrow hqueued
    rcases h.job_cases job with hsame | hsettled
    · exact .inl ((congrArg JobView.job hsame).symm.trans hrow)
    · obtain ⟨sent, hsent⟩ := hsettled.announced row hrow hqueued
      exact .inr ⟨sent, by simp [Store.outbox, Session.view, hsent]⟩
  · intro job row hrow hsucceeded
    rcases h.job_cases job with hsame | hsettled
    · exact .inl ((congrArg JobView.job hsame).symm.trans hrow)
    · exact absurd hsucceeded (hsettled.unsucceeded row hrow)

/-- How the commit of a pass changes a run. -/
theorem Reconciling.run_cases (h : Reconciling p s none σ₀ σ w) (run : Uuid) :
    (σ.after w).run run = w.rows.run run ∨ ∃ old code message,
      w.rows.run run = some old ∧ (σ.after w).run run = some (old.invalidate code message) ∧
      old.state = .validating ∧
      ∃ job, w.rows.Validates job run ∧ ¬ w.rows.Terminal job ∧ (σ.after w).Terminal job := by
  rcases h.runs run with hnone | ⟨old, code, message, job, hwrote, hstate, hvalidates, hended⟩
  · exact .inl (after_lookup hnone)
  · obtain ⟨_, v, row, hheld, hrow, hterminal⟩ := hended
    refine .inr ⟨old, code, message, hwrote.base, hwrote.after, hstate, job, hvalidates,
      hheld.live.not_terminal, row, ?_, hterminal⟩
    exact (congrArg JobView.job hheld.view).trans hrow

/-- When no job is under work, the commit gives the guarantee about runs. A changed run has
been invalidated together with its validation job. -/
theorem Reconciling.runGuarantee (h : Reconciling p s none σ₀ σ w) : RunGuarantee p s σ w := by
  have hstate : ∀ run old new, w.rows.run run = some old → (σ.after w).run run = some new →
      new = old ∨ old.state = .validating ∧ new.state = .invalid ∧
        ∃ job, w.rows.Validates job run ∧ ¬ w.rows.Terminal job ∧ (σ.after w).Terminal job := by
    intro run old new hold hnew
    rcases h.run_cases run with hsame | ⟨old', code, message, hold', hnew', hvalidating, hjob⟩
    · exact .inl (Option.some.inj (hnew.symm.trans (hsame.trans hold)))
    · obtain rfl := Option.some.inj (hold.symm.trans hold')
      obtain rfl := Option.some.inj (hnew.symm.trans hnew')
      exact .inr ⟨hvalidating, rfl, hjob⟩
  refine ⟨?_, ?_, ?_, ?_⟩
  · intro run
    rcases h.run_cases run with hsame | ⟨old, code, message, hold, hnew, hvalidating, _⟩
    · rw [hsame]
      exact .same _
    · rw [hold, hnew]
      exact .invalidate old code message hvalidating
  · intro run old new hold hnew hexists hdeleted
    rcases hstate run old new hold hnew with rfl | ⟨_, hinvalid, _⟩
    · exact absurd hdeleted hexists
    · simp [hdeleted] at hinvalid
  · intro run old new hold hnew hvalidating hend
    rcases hstate run old new hold hnew with rfl | ⟨_, _, hjob⟩
    · simp [hvalidating] at hend
    · exact hjob
  · intro run old new hold hnew hpending hvalidating
    rcases hstate run old new hold hnew with rfl | ⟨hvalidating', _⟩
    · simp [hpending] at hvalidating
    · simp [hpending] at hvalidating'

/-- When no job is under work, the commit gives the guarantee about the outbox. A new
notification belongs to a job that was announced. -/
theorem Reconciling.outboxGuarantee (h : Reconciling p s none σ₀ σ w) : OutboxGuarantee σ w := by
  refine ⟨?_, ?_⟩
  · intro job version sent hsent
    rcases h.notifications job version with hnone | ⟨_, _, _, _, _, _, hwrote, _⟩
    · exact .inl ⟨sent, (after_lookup hnone).trans hsent, rfl, rfl⟩
    · have := hsent.symm.trans hwrote.base
      cases this
  · intro job version sent hnone hsent
    rcases h.notifications job version with
      hunwritten | ⟨sent', operation, v₀, v, row₀, row, hwrote, hpayload, hheld, hrow₀, hlt, hrow, hle⟩
    · have := hsent.symm.trans ((after_lookup hunwritten).trans hnone)
      cases this
    · obtain rfl := Option.some.inj (hsent.symm.trans hwrote.after)
      refine ⟨hheld.locked, ⟨row, operation, ?_, hle, hpayload⟩, fun found hfound => ?_⟩
      · exact (congrArg JobView.job hheld.view).trans hrow
      · have hbase := ((congrArg JobView.job hheld.base).trans hrow₀).symm.trans hfound
        obtain rfl := Option.some.inj hbase
        exact hlt

/-- The commit of a pass. -/
theorem Reconciling.guarantee (h : Reconciling p s none σ₀ σ w) (hinv : Consistent p s w.rows)
    (heffect : Effect p s σ reply w) : Guarantee p s σ reply w where
  toJobGuarantee := h.jobGuarantee hinv
  toRunGuarantee := h.runGuarantee
  toInputGuarantee :=
    .unchanged (fun i => h.keeps.allows (.input i)) fun _ _ => h.keeps.allows (.inputDigest _ _)
  toOutboxGuarantee := h.outboxGuarantee
  toRecordGuarantee := .unchanged fun _ _ => h.keeps.allows (.idempotency _ _)
  time := h.now.trans_le h.time
  effect := heffect

end Commit

section Loops

/-- Between two points of a pass it writes no row of any job but one. -/
structure Elsewhere (p : Policy) (s : Service) (job : Uuid) (σ : Session) (w : World)
    (σ' : Session) (w' : World) : Prop extends (contract p s).Onward σ w σ' w' where
  kept : ∀ (key : Key) other, key.owner = some other → other ≠ job →
    σ'.writes.lookup key = σ.writes.lookup key

/-- Nothing has happened elsewhere. -/
theorem Elsewhere.refl : Elsewhere p s job σ w σ w := ⟨.refl, fun _ _ _ _ => rfl⟩

/-- What others commit does not count as work of this session elsewhere. -/
theorem Elsewhere.later {σ'' : Session} {w'' : World} (h : Elsewhere p s job σ w σ' w')
    (hlater : (contract p s).Later σ' w' σ'' w'') : Elsewhere p s job σ w σ'' w'' :=
  ⟨h.toOnward.trans hlater.toOnward, fun key other howner hne =>
    hlater.writes ▸ h.kept key other howner hne⟩

/-- A write to rows of the one job is no work elsewhere. -/
theorem Elsewhere.write (h : Elsewhere p s job σ w σ' w') {k : Key}
    (hkey : ∀ other, k.owner = some other → other = job) (row : Option (Row k)) :
    Elsewhere p s job σ w (σ'.write k row) w' := by
  refine ⟨h.toOnward.write k row, fun other owner howner hne => ?_⟩
  refine (AList.lookup_insert_ne ?_).trans (h.kept other owner howner hne)
  rintro rfl
  exact hne (hkey owner howner)

/-- What the pass sees of a row that it has locked and that belongs to another job. -/
theorem Elsewhere.after_lookup (h : Elsewhere p s job σ w σ' w') {k : Key} {other : Uuid}
    (howner : k.owner = some other) (hne : other ≠ job) (hlocked : σ.locks k ≠ none) :
    (σ'.after w').lookup k = (σ.after w).lookup k := by
  simp only [Session.view, Writes.lookup_apply, h.kept k other howner hne,
    h.rely.lookup_eq hlocked]

/-- A loop that settles one job after the other. -/
theorem wp_forEachJob {ι : Type} (owner : ι → Uuid) (Ready : ι → Session → World → Prop)
    {body : ι → Tx Unit} {items : List ι} {post : Except Err Unit → Session → World → Prop}
    (hnodup : (items.map owner).Nodup)
    (hstable : ∀ i j σ w σ' w', owner i ≠ j → Ready i σ w → Elsewhere p s j σ w σ' w' →
      Ready i σ' w')
    (hbody : ∀ i σ w, Reconciling p s none σ₀ σ w → Ready i σ w →
      (contract p s).wp (body i) (fun result σ' w' => match result with
        | .ok _ => Reconciling p s none σ₀ σ' w' ∧ Elsewhere p s (owner i) σ w σ' w'
        | .error error => post (.error error) σ' w') σ w)
    (hpost : ∀ σ' w', Reconciling p s none σ₀ σ' w' → post (.ok ()) σ' w')
    (h : Reconciling p s none σ₀ σ w) (hready : ∀ i ∈ items, Ready i σ w) :
    (contract p s).wp (Program.forEach body items) post σ w := by
  refine Contract.wp_forEach (fun done σ' w' => Reconciling p s none σ₀ σ' w' ∧
    ∀ i ∈ items, owner i ∉ done.map owner → Ready i σ' w') ?_ (fun σ' w' h' => hpost σ' w' h'.1)
    ⟨h, fun i hi _ => hready i hi⟩
  rintro done i rest σ' w' rfl ⟨h', hready'⟩
  have hfresh : owner i ∉ done.map owner := by
    rw [List.map_append, List.map_cons, List.nodup_append] at hnodup
    exact fun hmem => hnodup.2.2 (owner i) hmem (owner i) List.mem_cons_self rfl
  refine Contract.wp_mono _ ?_ (hbody i σ' w' h' (hready' i (by simp) hfresh))
  intro result σ'' w'' hresult
  cases result with
  | error error => exact hresult
  | ok _ =>
    refine ⟨hresult.1, fun j hj hnew => ?_⟩
    simp only [List.map_append, List.map_cons, List.map_nil, List.mem_append, List.mem_singleton,
      not_or] at hnew
    exact hstable j (owner i) σ' w' σ'' w'' hnew.2 (hready' j hj hnew.1) hresult.2

/-- The pass is busy with a job to which it has turned at an earlier point. -/
structure Busy (p : Policy) (s : Service) (job : Uuid) (σ₀ σ₁ : Session) (w₁ : World)
    (v₀ v : JobView) (σ : Session) (w : World) : Prop
    extends Reconciling p s (some job) σ₀ σ w, Held σ w job v₀ v where
  elsewhere : Elsewhere p s job σ₁ w₁ σ w

namespace Busy

/-- Work on one job goes on while the others commit. -/
theorem later (h : Busy p s job σ₀ σ₁ w₁ v₀ v σ w) (hlater : (contract p s).Later σ w σ' w') :
    Busy p s job σ₀ σ₁ w₁ v₀ v σ' w' :=
  ⟨h.toReconciling.later hlater, h.toHeld.later hlater, h.elsewhere.later hlater⟩

/-- An audit record is no part of the work on a job. -/
theorem writeAudit (h : Busy p s job σ₀ σ₁ w₁ v₀ v σ w) {id : ℕ}
    (hlocked : σ.locks (.audit id) = some .exclusive) (row : Option AuditRow) :
    Busy p s job σ₀ σ₁ w₁ v₀ v (σ.write (.audit id) row) w :=
  ⟨h.toReconciling.writeAudit hlocked row,
    h.toHeld.writeOther (.audit id) (by simp [Key.owner]) row,
    h.elsewhere.write (k := .audit id) (by simp [Key.owner]) row⟩

/-- The job's row is replaced by a later version of it. -/
theorem writeJob (h : Busy p s job σ₀ σ₁ w₁ v₀ v σ w) {old : JobRow} (hold : v.job = some old)
    (hlive : old.state.terminal = false) (new : JobRow) (hversion : old.rowVersion ≤ new.rowVersion) :
    Busy p s job σ₀ σ₁ w₁ v₀ { v with job := some new } (σ.write (.job job) (some new)) w :=
  ⟨h.toReconciling.writeBusy rfl h.locked trivial h.toHeld hold hlive (h.toHeld.writeJob new) rfl
      hversion,
    h.toHeld.writeJob new, h.elsewhere.write (by simp [Key.owner]) _⟩

/-- An attempt of the job is replaced. -/
theorem writeAttempt (h : Busy p s job σ₀ σ₁ w₁ v₀ v σ w) {n : ℤ}
    (hlocked : σ.locks (.attempt job n) = some .exclusive) {row : JobRow} (hrow : v.job = some row)
    (hlive : row.state.terminal = false) (attempt : AttemptRow) :
    Busy p s job σ₀ σ₁ w₁ v₀
      { v with attempts := Function.update v.attempts n (some attempt) }
      (σ.write (.attempt job n) (some attempt)) w :=
  ⟨h.toReconciling.writeBusy rfl hlocked trivial h.toHeld hrow hlive
      (h.toHeld.writeAttempt n attempt) hrow le_rfl,
    h.toHeld.writeAttempt n attempt, h.elsewhere.write (by simp [Key.owner]) _⟩

/-- The job is announced at a version that is new and that it has reached. -/
theorem writeNotification (h : Busy p s job σ₀ σ₁ w₁ v₀ v σ w) {version : ℤ} (sent : OutboxRow)
    {operation : Operation} {row₀ row : JobRow}
    (hlocked : σ.locks (.outbox job version) = some .exclusive)
    (hnone : w.rows.outbox job version = none)
    (hpayload : sent.payload = notificationPayload job version operation)
    (hrow₀ : v₀.job = some row₀) (hlt : row₀.rowVersion < version) (hrow : v.job = some row)
    (hle : version ≤ row.rowVersion) :
    Busy p s job σ₀ σ₁ w₁ v₀ v (σ.write (.outbox job version) (some sent)) w := by
  have hheld := h.toHeld.writeOther (.outbox job version) (by simp [Key.owner]) (some sent)
  refine ⟨h.toReconciling.writeFree rfl hlocked trivial (by simp) ?_, hheld,
    h.elsewhere.write (by simp [Key.owner]) _⟩
  rintro other other' heq
  simp only [Key.outbox.injEq] at heq
  obtain ⟨rfl, rfl⟩ := heq
  exact ⟨sent, operation, v₀, v, row₀, row, .of_write hlocked hnone _, hpayload, hheld, hrow₀, hlt,
    hrow, hle⟩

/-- The run of the job, which has ended, becomes invalid. -/
theorem writeRun (h : Busy p s job σ₀ σ₁ w₁ v₀ v σ w) {run : Uuid} {old : RunRow} {row : JobRow}
    (code message : String) (hlocked : σ.locks (.run run) = some .exclusive)
    (hold : w.rows.run run = some old) (hstate : old.state = .validating)
    (hvalidates : w.rows.Validates job run) (hrow : v.job = some row)
    (hterminal : row.state.terminal = true) :
    Busy p s job σ₀ σ₁ w₁ v₀ v (σ.write (.run run) (some (old.invalidate code message))) w := by
  have hheld := h.toHeld.writeOther (.run run) (by simp [Key.owner])
    (some (old.invalidate code message))
  refine ⟨h.toReconciling.writeFree rfl hlocked trivial ?_ (by simp), hheld,
    h.elsewhere.write (by simp [Key.owner]) _⟩
  rintro other heq
  obtain rfl := Key.run.inj heq
  exact ⟨old, code, message, job, .of_write hlocked hold _, hstate, hvalidates, v₀, v, row, hheld,
    hrow, hterminal⟩

end Busy

/-- The pass turns to a job that it has locked and that is not over. -/
theorem Reconciling.busy (h : Reconciling p s none σ₀ σ w) {row : JobRow}
    (hlocked : σ.locks (.job job) = some .exclusive) (hrow : (σ.after w).job job = some row)
    (hlive : row.state.terminal = false) : ∃ v₀,
      Busy p s job σ₀ σ w v₀ (jobView (σ.after w) job) σ w ∧
      JobChange p.fenced σ₀.now v₀ (jobView (σ.after w) job) ∧
      ∀ n, v₀.attempts n = none → (σ.after w).attempt job n = none := by
  obtain ⟨hturn, v₀, hheld, hchange⟩ := h.turn hlocked hrow hlive
  exact ⟨v₀, ⟨hturn, hheld, .refl⟩, hchange⟩

end Loops

section Announcements

/-- A job that a statement has locked and read. -/
def Selected (entry : (_ : Uuid) × JobRow) (σ : Session) (w : World) : Prop :=
  σ.locks (.job entry.1) = some .exclusive ∧ (σ.after w).job entry.1 = some entry.2

/-- A job that is selected stays so while the work is on another job. -/
theorem Selected.elsewhere {entry : (_ : Uuid) × JobRow} (h : Selected entry σ w)
    (hne : entry.1 ≠ job) (helsewhere : Elsewhere p s job σ w σ' w') : Selected entry σ' w' :=
  ⟨helsewhere.exclusive _ h.1,
    (helsewhere.after_lookup (k := .job entry.1) rfl hne (by simp [h.1])).trans h.2⟩

/-- Announcing a job at its next version. -/
theorem wp_announce {now : Timestamp} {store : Store} {set : JobRow → JobRow} {eventType : String}
    {entry : (_ : Uuid) × JobRow} {post : Except Err Unit → Session → World → Prop}
    (h : Reconciling p s none σ₀ σ w) (hselected : Selected entry σ w)
    (hlive : entry.2.state.terminal = false)
    (hstep : ∀ v : JobView, v.job = some entry.2 →
      JobStep p.fenced σ₀.now v { v with job := some (set entry.2) })
    (hversion : (set entry.2).rowVersion = entry.2.rowVersion + 1)
    (hset : (set entry.2).state.terminal = false)
    (hok : ∀ σ' w', Reconciling p s none σ₀ σ' w' → Elsewhere p s entry.1 σ w σ' w' →
      post (.ok ()) σ' w')
    (herror : post (.error (.database "" .noRows)) σ w) :
    (contract p s).wp (announce now store set eventType entry) post σ w := by
  obtain ⟨hlocked, hrow⟩ := hselected
  obtain ⟨v₀, hbusy, hchange, hattempts⟩ := h.busy hlocked hrow hlive
  have hview : (jobView (σ.after w) entry.1).job = some entry.2 := hrow
  -- the version is beyond everything announced so far
  obtain ⟨row₀, hrow₀, _⟩ := hbusy.live
  have hrow₀' : v₀.job = some row₀ := (congrArg JobView.job hbusy.base).symm.trans hrow₀
  have hle : row₀.rowVersion ≤ entry.2.rowVersion := by
    obtain ⟨row', hrow', _, _, hversion'⟩ := hchange.job_some hrow₀'
    obtain rfl := Option.some.inj (hrow'.symm.trans hview)
    rcases hversion' with heq | hlt
    · rw [heq]
    · exact hlt.le
  have hunwritten : σ.writes.lookup (.outbox entry.1 (entry.2.rowVersion + 1)) = none := by
    rcases h.notifications entry.1 (entry.2.rowVersion + 1) with
      hnone | ⟨_, _, _, v, _, row, _, _, hheld, _, _, hrow', hreached⟩
    · exact hnone
    · rw [← hheld.view, hview] at hrow'
      obtain rfl := Option.some.inj hrow'
      omega
  unfold announce
  rcases store.jobInput entry.2 with _ | input
  · exact Contract.wp_fail herror
  dsimp only
  refine Contract.wp_write hlocked ?_
  have h₁ := hbusy.writeJob hview hlive (set entry.2) (by omega)
  refine Contract.wp_then (wp_audit fun id record σ₂ w₂ hlater₂ _ hlocked₂ => ?_)
  have h₂ := (h₁.later hlater₂).writeAudit hlocked₂ record
  have hunwritten₂ : (σ₂.write (.audit id) record).writes.lookup
      (.outbox entry.1 (entry.2.rowVersion + 1)) = none := by
    rw [Session.write_writes, AList.lookup_insert_ne (by simp), hlater₂.writes,
      Session.write_writes, AList.lookup_insert_ne (by simp)]
    exact hunwritten
  have hfree : ∀ σ' w', (contract p s).Later (σ₂.write (.audit id) record) w₂ σ' w' →
      Consistent p s w'.rows → w'.rows.outbox entry.1 (entry.2.rowVersion + 1) = none := by
    intro σ' w' hlater hinv
    by_contra hne
    obtain ⟨sent, hsent⟩ := Option.ne_none_iff_exists'.mp hne
    obtain ⟨row, _, hfound, hreached, _⟩ := hinv.outbox entry.1 _ sent hsent
    have hbase := (congrArg JobView.job (h₂.later hlater).base).trans hrow₀'
    obtain rfl := Option.some.inj (hfound.symm.trans hbase)
    omega
  refine wp_notify (fun w' hlater hinv htaken => ?_) fun sentID σ' w' hlater hinv hlocked' _ => ?_
  · have hnone : (Session.after (σ₂.write (.audit id) record) w').outbox entry.1
        (entry.2.rowVersion + 1) = none := (after_lookup hunwritten₂).trans (hfree _ w' hlater hinv)
    rw [hnone] at htaken
    simp at htaken
  · have h₃ := (h₂.later hlater).writeNotification
      (.create now sentID (notificationPayload entry.1 (entry.2.rowVersion + 1) input.operation))
      hlocked' (hfree σ' w' hlater hinv) rfl hrow₀' (by omega) rfl hversion.ge
    refine hok _ _ (h₃.settle ⟨h₃.toHeld, hchange.tail (hstep _ hview), hattempts, ?_, ?_, ?_⟩)
      h₃.elsewhere
    · rintro row ⟨⟩ _
      rw [hversion]
      exact ⟨_, AList.lookup_insert _⟩
    · rintro _ row ⟨⟩ hterminal
      simp [hset] at hterminal
    · rintro row ⟨⟩ hsucceeded
      simp [hsucceeded] at hset

/-- Announcing every job that a statement has selected. -/
theorem wp_announceAll {now : Timestamp} {store : Store} {set : JobRow → JobRow}
    {eventType : String} {condition : (job : Uuid) → JobRow → Bool} {limit : ℕ}
    {post : Except Err ℕ → Session → World → Prop} {jobs : List Uuid}
    (h : Reconciling p s none σ₀ σ w) (hinv : Consistent p s w.rows) (hnodup : jobs.Nodup)
    (hlive : ∀ job row, condition job row → row.state.terminal = false)
    (hstep : ∀ job row (v : JobView), condition job row → v.job = some row →
      JobStep p.fenced σ₀.now v { v with job := some (set row) })
    (hversion : ∀ row, (set row).rowVersion = row.rowVersion + 1)
    (hset : ∀ job row, condition job row → (set row).state.terminal = false)
    (hok : ∀ count σ' w', Reconciling p s none σ₀ σ' w' → post (.ok count) σ' w')
    (herror : ∀ σ' w', Reconciling p s none σ₀ σ' w' →
      post (.error (.database "" .noRows)) σ' w') :
    (contract p s).wp (do
      let found ← Program.lockSkipping Key.job condition jobs limit
      Program.forEach (announce now store set eventType) found
      .pure found.length) post σ w := by
  refine Contract.wp_then (Contract.wp_lockSkipping hinv
    fun selected σ₁ w₁ hlater₁ _ hsublist _ hselected => ?_)
  refine Contract.wp_then (wp_forEachJob Sigma.fst
    (fun entry σ' w' => Selected entry σ' w' ∧ condition entry.1 entry.2)
    (hsublist.nodup hnodup) ?_ ?_ ?_ (h.later hlater₁) ?_)
  · exact fun i j σ w σ' w' hne hi helsewhere => ⟨hi.1.elsewhere hne helsewhere, hi.2⟩
  · rintro entry σ₂ w₂ h₂ ⟨hready, hcondition⟩
    exact wp_announce h₂ hready (hlive _ _ hcondition) (fun v hv => hstep _ _ v hcondition hv)
      (hversion _) (hset _ _ hcondition) (fun σ' w' h' helsewhere => ⟨h', helsewhere⟩)
      (herror σ₂ w₂ h₂)
  · exact fun σ' w' h' => Contract.wp_pure (hok _ σ' w' h')
  · intro entry hentry
    obtain ⟨hlocked, hrow, hcondition⟩ := hselected entry hentry
    exact ⟨⟨hlocked, hrow⟩, hcondition⟩

end Announcements

/-- The scan of the jobs finds each of them once. -/
theorem Store.jobs_nodup (store : Store) : store.jobs.Nodup := by
  refine List.Nodup.filterMap ?_ store.nodupKeys
  intro k k' id hk hk'
  cases k <;> simp at hk
  cases k' <;> simp at hk'
  rw [hk, hk']

/-- Queueing the retries that are due. -/
theorem wp_enqueueDue {now : Timestamp} {limit : ℕ} {post : Except Err ℕ → Session → World → Prop}
    (h : Reconciling p s none σ₀ σ w) (hnow : σ₀.now = now)
    (hok : ∀ count σ' w', Reconciling p s none σ₀ σ' w' → post (.ok count) σ' w')
    (herror : ∀ σ' w', Reconciling p s none σ₀ σ' w' →
      post (.error (.database "" .noRows)) σ' w') :
    (contract p s).wp (enqueueDue now limit) post σ w := by
  have hwaiting : ∀ row : JobRow, row.due now = true → row.state = .retryWait := by
    intro row hdue
    simp only [JobRow.due, Bool.and_eq_true, decide_eq_true_eq] at hdue
    exact hdue.1.1
  refine Contract.wp_snapshot fun σ' w' hlater _ hinv => ?_
  refine wp_announceAll (h.later hlater) hinv ((Store.jobs_nodup _).filter _) ?_ ?_ (fun _ => rfl)
    (fun _ _ _ => rfl) hok herror
  · intro _ row hdue
    rw [hwaiting row hdue]
    rfl
  · intro _ row v hdue hrow
    rw [hnow]
    exact .requeue row hrow (hwaiting row hdue)

/-- Announcing the stranded jobs again. -/
theorem wp_republishStranded {now : Timestamp} {limit : ℕ}
    {post : Except Err ℕ → Session → World → Prop} (h : Reconciling p s none σ₀ σ w)
    (hnow : σ₀.now = now)
    (hok : ∀ count σ' w', Reconciling p s none σ₀ σ' w' → post (.ok count) σ' w')
    (herror : ∀ σ' w', Reconciling p s none σ₀ σ' w' →
      post (.error (.database "" .noRows)) σ' w') :
    (contract p s).wp (republishStranded now limit) post σ w := by
  refine Contract.wp_snapshot fun σ' w' hlater _ hinv => ?_
  have hqueued : ∀ job (row : JobRow), stranded now (σ'.view w'.store) job row = true →
      row.state = .queued := by
    intro job row hstranded
    simp only [stranded, Bool.and_eq_true, decide_eq_true_eq] at hstranded
    exact hstranded.1.1
  refine wp_announceAll (h.later hlater) hinv ((Store.jobs_nodup _).filter _) ?_ ?_ (fun _ => rfl)
    ?_ hok herror
  · intro job row hstranded
    rw [hqueued job row hstranded]
    rfl
  · intro job row v hstranded hrow
    rw [hnow]
    exact .republish row hrow (hqueued job row hstranded)
  · intro job row hstranded
    rw [JobRow.republish_state, hqueued job row hstranded]
    rfl

section Leases

/-- An expired attempt that the pass has locked together with its job. -/
def Locked (item : Expired) (σ : Session) (w : World) : Prop :=
  σ.locks (.job item.job) = some .exclusive ∧
    σ.locks (.attempt item.job item.attempt) = some .exclusive ∧
    ∃ row attempt, (jobView (σ.after w) item.job).Running row item.attempt attempt

/-- The pass goes on seeing a job that it has locked as running. -/
theorem Locked.of_lookup {item : Expired} (h : Locked item σ w)
    (hexclusive : ∀ key, σ.locks key = some .exclusive → σ'.locks key = some .exclusive)
    (hlookup : ∀ key : Key, key.owner = some item.job → σ.locks key ≠ none →
      (σ'.after w').lookup key = (σ.after w).lookup key) : Locked item σ' w' := by
  obtain ⟨hjob, hattempt, row, attempt, hrunning⟩ := h
  refine ⟨hexclusive _ hjob, hexclusive _ hattempt, row, attempt, ?_, hrunning.state,
    hrunning.current, ?_, hrunning.active⟩
  · exact (hlookup (.job item.job) rfl (by simp [hjob])).trans hrunning.job
  · exact (hlookup (.attempt item.job item.attempt) rfl (by simp [hattempt])).trans hrunning.found

/-- A locked item stays locked while the others commit. -/
theorem Locked.later {item : Expired} (h : Locked item σ w)
    (hlater : (contract p s).Later σ w σ' w') : Locked item σ' w' :=
  h.of_lookup hlater.exclusive fun _ _ hlocked => hlater.view_lookup_eq hlocked

/-- A locked item stays as it is while the work is on another job. -/
theorem Locked.elsewhere {item : Expired} (h : Locked item σ w) (hne : item.job ≠ job)
    (helsewhere : Elsewhere p s job σ w σ' w') : Locked item σ' w' :=
  h.of_lookup helsewhere.exclusive fun _ howner hlocked =>
    helsewhere.after_lookup howner hne hlocked

/-- An item whose lease has expired, with its job and its attempt locked, may be fenced. -/
theorem Locked.of_expired (now : Timestamp) {item : Expired}
    (hjob : σ.locks (.job item.job) = some .exclusive)
    (hattempt : σ.locks (.attempt item.job item.attempt) = some .exclusive)
    (hexpired : (((σ.after w).job item.job).any fun row =>
      ((σ.after w).attempt item.job item.attempt).any (leaseExpired now item.attempt row)) = true) :
    Locked item σ w := by
  refine ⟨hjob, hattempt, ?_⟩
  obtain ⟨row, hrow, hany⟩ := (Option.any_eq_true _ _).mp hexpired
  obtain ⟨attempt, hfound, hexpired⟩ := (Option.any_eq_true _ _).mp hany
  simp only [leaseExpired, Bool.and_eq_true, decide_eq_true_eq] at hexpired
  exact ⟨row, attempt, hrow, hexpired.1.1.1, hexpired.1.1.2, hfound, hexpired.1.2⟩

/-- The locking part of the first statement of a pass. -/
theorem wp_lockExpired {now : Timestamp} {items : List Expired} {limit : ℕ}
    {post : Except Err (List Expired) → Session → World → Prop}
    (h : ∀ selected σ' w', (contract p s).Later σ w σ' w' → selected.Sublist items →
      (∀ item ∈ selected, Locked item σ' w') → post (.ok selected) σ' w') :
    (contract p s).wp (lockExpired now items limit) post σ w := by
  induction items generalizing limit σ w post with
  | nil => exact Contract.wp_pure (h [] σ w .refl (List.Sublist.refl _) (by simp))
  | cons item rest ih =>
    cases limit with
    | zero => exact Contract.wp_pure (h [] σ w .refl (List.nil_sublist _) (by simp))
    | succ limit =>
      have hskip : ∀ σ' w', (contract p s).Later σ w σ' w' →
          (contract p s).wp (lockExpired now rest (limit + 1)) post σ' w' :=
        fun σ' w' hlater => ih fun selected σ'' w'' hlater' hsublist hlocked =>
          h selected σ'' w'' (hlater.trans hlater') (hsublist.cons item) hlocked
      refine Contract.wp_tryLock (fun w' hlater _ => hskip _ w' hlater)
        fun σ₁ w₁ hlater₁ hlock₁ _ => ?_
      dsimp only
      refine Contract.wp_tryLock (fun w' hlater _ => hskip _ w' (hlater₁.trans hlater))
        fun σ₂ w₂ hlater₂ hlock₂ _ => ?_
      have hlater := hlater₁.trans hlater₂
      dsimp only
      split
      · next hexpired =>
        refine Contract.wp_then (ih fun selected σ' w' hlater' hsublist hlocked => ?_)
        refine Contract.wp_pure (h _ σ' w' (hlater.trans hlater') (hsublist.cons_cons item) ?_)
        rintro other (_ | ⟨_, hother⟩)
        · refine Locked.later (.of_expired now ?_ ?_ ?_) hlater'
          · exact hlater₂.exclusive _ (hlock₁ ▸ Session.lock_locks_self σ _)
          · exact hlock₂ ▸ Session.lock_locks_self σ₁ _
          · have hjob := hlater₂.view_lookup_eq (k := .job item.job)
              (by simp [hlock₁])
            rw [← hjob] at hexpired
            exact hexpired
        · exact hlocked other hother
      · exact hskip σ₂ w₂ hlater

/-- Without collisions, a validation job's run that is seen not to be validating has been
invalidated by the pass itself. -/
theorem Busy.endsValidation (h : Busy p s job σ₀ σ₁ w₁ v₀ v σ w) (hfree : s.CollisionFree)
    (hinv : Consistent p s w.rows) {row₀ : JobRow} {input : InputRow} (hrow₀ : v₀.job = some row₀)
    (hinput : w.rows.jobInput row₀ = some input) (hoperation : input.operation = .validate)
    (hnot : ∀ found, (σ.after w).run input.runA = some found → found.state ≠ .validating) :
    EndsValidation σ input.runA := by
  rcases h.runs input.runA with hnone | hinvalidated
  · have hjob : w.rows.job job = some row₀ := (congrArg JobView.job h.base).trans hrow₀
    have hlive : row₀.state.terminal = false := by
      obtain ⟨row, hrow, hlive⟩ := h.live
      obtain rfl := Option.some.inj (hjob.symm.trans hrow)
      exact hlive
    obtain ⟨found, hfound, _, hstate, _⟩ :=
      hinv.runs hfree job row₀ input hjob hinput input.runA (by simp [InputRow.runs])
    refine absurd ?_ (hnot found ((after_lookup hnone).trans hfound))
    rw [hstate hlive, hoperation]
    rfl
  · exact hinvalidated.endsValidation

/-- The runs that the last statement on a failed job selects. -/
theorem Busy.validationRun_eq (h : Busy p s job σ₀ σ₁ w₁ v₀ v σ w) {row : JobRow}
    {input : InputRow} (hrow : v.job = some row) (hinput : w.rows.jobInput row = some input) :
    validationRun job (σ.after w) = if input.operation = .validate then [input.runA] else [] := by
  have hjob : (σ.after w).job job = some row := (congrArg JobView.job h.view).trans hrow
  have hfound : (σ.after w).jobInput row = some input :=
    (h.keeps.allows (.input row.input)).trans hinput
  by_cases hoperation : input.operation = .validate <;>
    simp [validationRun, hjob, hfound, hoperation]

/-- Invalidating the run of a validation job that has ended. -/
theorem Busy.wp_invalidateRun {row : JobRow} {code message : String}
    {post : Except Err (List ((_ : Uuid) × RunRow)) → Session → World → Prop}
    (h : Busy p s job σ₀ σ₁ w₁ v₀ v σ w) (hinv : Consistent p s w.rows) (hrow : v.job = some row)
    (hterminal : row.state.terminal = true)
    (hsame : ∀ row₀, v₀.job = some row₀ → row.input = row₀.input)
    (hok : ∀ invalidated σ' w' input, Busy p s job σ₀ σ₁ w₁ v₀ v σ' w' →
      w'.rows.jobInput row = some input →
      (s.CollisionFree → input.operation = .validate → EndsValidation σ' input.runA) →
      post (.ok invalidated) σ' w') :
    (contract p s).wp (invalidateRun (validationRun job) code message) post σ w := by
  obtain ⟨row₀, hjob, _⟩ := h.live
  have hrow₀ : v₀.job = some row₀ := (congrArg JobView.job h.base).symm.trans hjob
  obtain ⟨input, hinput₀, _⟩ := hinv.inputs job row₀ hjob
  have hinput : w.rows.jobInput row = some input := by
    rw [Store.jobInput, hsame row₀ hrow₀]
    exact hinput₀
  unfold invalidateRun
  by_cases hoperation : input.operation = .validate
  · refine Contract.wp_update_single (i := input.runA) ?_ ?_ ?_ ?_
    · intro σ' w' hlater _
      refine ((h.later hlater).validationRun_eq hrow (rely_input hlater.rely hinput)).trans ?_
      rw [if_pos hoperation]
    · intro σ' w' hlater hinv' hmissing
      refine hok [] σ' w' input (h.later hlater) (rely_input hlater.rely hinput) fun hfree _ => ?_
      refine (h.later hlater).endsValidation hfree hinv' hrow₀ (rely_input hlater.rely hinput₀)
        hoperation fun found hfound hstate => hmissing ?_
      rw [show (σ'.view w'.store).lookup (.run input.runA) = some found from hfound]
      simp [hstate]
    · intro σ₂ w₂ σ' w' hlater₂ _ hlater' hinv' hskip
      have hlater := hlater₂.trans hlater'
      refine hok [] σ' w' input (h.later hlater) (rely_input hlater.rely hinput) fun hfree _ => ?_
      refine (h.later hlater).endsValidation hfree hinv' hrow₀ (rely_input hlater.rely hinput₀)
        hoperation fun found hfound hstate => ?_
      rw [show (σ'.view w'.store).lookup (.run input.runA) = some found from hfound] at hskip
      simp [hstate] at hskip
    · intro σ₂ w₂ σ' w' found hlater₂ _ hlater' _ hlocked hfound hstate
      have hlater := hlater₂.trans hlater'
      have h' := h.later hlater
      have hvalidating : found.state = .validating := by simpa using hstate
      have hbase : w'.rows.run input.runA = some found := by
        rcases h'.runs input.runA with hnone | hinvalidated
        · exact (after_lookup hnone).symm.trans hfound
        · obtain ⟨other, hother, hends⟩ := hinvalidated.endsValidation.after w'
          obtain rfl := Option.some.inj (hother.symm.trans hfound)
          exact absurd hvalidating hends
      refine hok _ _ w' input (h'.writeRun code message hlocked hbase hvalidating ?_ hrow hterminal)
        (rely_input hlater.rely hinput) fun _ _ => ⟨_, AList.lookup_insert _, by simp [RunRow.invalidate]⟩
      exact ⟨row₀, input, (congrArg JobView.job h'.base).trans hrow₀,
        rely_input hlater.rely hinput₀, hoperation, by simp [InputRow.runs]⟩
  · refine Contract.wp_update (fun store _ σ' w' => validationRun job store = [] ∧
      Busy p s job σ₀ σ₁ w₁ v₀ v σ' w' ∧ w'.rows.jobInput row = some input) ?_ ?_ ?_ ?_ ?_
    · intro σ' w' hlater _ _
      refine ⟨?_, h.later hlater, rely_input hlater.rely hinput⟩
      refine ((h.later hlater).validationRun_eq hrow (rely_input hlater.rely hinput)).trans ?_
      rw [if_neg hoperation]
    · intro _ _ _ _ _ _ hkept hlater _
      obtain ⟨hscan, h', hinput'⟩ := hkept
      exact ⟨hscan, h'.later hlater, rely_input hlater.rely hinput'⟩
    · exact fun _ _ _ _ _ _ _ hJ _ _ _ => hJ
    · rintro store done run _ σ' w' hmem _ ⟨hscan, _⟩
      rw [hscan] at hmem
      cases hmem
    · intro _ updated σ' w' hkept
      obtain ⟨_, h', hinput'⟩ := hkept
      exact hok updated σ' w' input h' hinput' fun _ hvalidate => absurd hvalidate hoperation

/-- Ending one expired attempt. -/
theorem wp_fenceExpired {now : Timestamp} {item : Expired} {post : Except Err Unit → Session → World → Prop}
    (h : Reconciling p s none σ₀ σ w) (hnow : σ₀.now = now) (hlocked : Locked item σ w)
    (hok : ∀ σ' w', Reconciling p s none σ₀ σ' w' → Elsewhere p s item.job σ w σ' w' →
      post (.ok ()) σ' w') : (contract p s).wp (fenceExpired now item) post σ w := by
  obtain ⟨hlocked, hlockedAttempt, row, attempt, hrunning⟩ := hlocked
  have hlive : row.state.terminal = false := by rw [hrunning.state]; rfl
  obtain ⟨v₀, h₀, hchange, hattempts⟩ := h.busy hlocked hrunning.job hlive
  have hkept : ∀ (new : AttemptRow) m, v₀.attempts m = none →
      Function.update (jobView (σ.after w) item.job).attempts item.attempt (some new) m = none := by
    intro new m hnone
    by_contra hsome
    exact (hrunning.update_ne_none new m).mp hsome (hattempts m hnone)
  unfold fenceExpired
  split
  · next hretry =>
    refine Contract.wp_then (Contract.wp_updateKey_locked hlockedAttempt hrunning.found
      (fun _ => by simp [hrunning.active]) fun σ₁ w₁ hlater₁ _ hlocked₁ => ?_)
    have h₁ := (h₀.later hlater₁).writeAttempt hlocked₁ hrunning.job hlive
      (attempt.finish .fenced now "lease_lost" leaseMessage)
    refine Contract.wp_then (Contract.wp_updateKey_locked h₁.locked
      ((congrArg JobView.job h₁.view).trans hrunning.job) (fun _ => by simp [hrunning.state])
      fun σ₂ w₂ hlater₂ _ _ => ?_)
    have h₂ := (h₁.later hlater₂).writeJob hrunning.job hlive
      (row.retry now (backoff item.attempt)) (by simp [JobRow.retry])
    refine Contract.wp_then (wp_audit fun id₃ record₃ σ₃ w₃ hlater₃ _ hlocked₃ => ?_)
    have h₃ := (h₂.later hlater₃).writeAudit hlocked₃ record₃
    refine wp_audit fun id₄ record₄ σ₄ w₄ hlater₄ _ hlocked₄ => ?_
    have h₄ := (h₃.later hlater₄).writeAudit hlocked₄ record₄
    refine hok _ _ (h₄.settle ⟨h₄.toHeld, hchange.tail ?_, hkept _, ?_, ?_, ?_⟩) h₄.elsewhere
    · rw [hnow]
      exact .retry row item.attempt attempt "lease_lost" leaseMessage hrunning hretry
    · rintro row' ⟨⟩ hqueued
      simp at hqueued
    · rintro _ row' ⟨⟩ hterminal
      simp at hterminal
    · rintro row' ⟨⟩ hsucceeded
      simp at hsucceeded
  · refine Contract.wp_then (Contract.wp_updateKey_locked hlockedAttempt hrunning.found
      (fun _ => rfl) fun σ₁ w₁ hlater₁ _ hlocked₁ => ?_)
    have h₁ := (h₀.later hlater₁).writeAttempt hlocked₁ hrunning.job hlive
      (attempt.finish .failed now "retry_exhausted" leaseMessage)
    refine Contract.wp_then (Contract.wp_updateKey_locked h₁.locked
      ((congrArg JobView.job h₁.view).trans hrunning.job) (fun _ => rfl)
      fun σ₂ w₂ hlater₂ _ _ => ?_)
    have h₂ := (h₁.later hlater₂).writeJob hrunning.job hlive
      (row.fail now "retry_exhausted" leaseMessage) (by simp [JobRow.fail])
    refine Contract.wp_then (wp_audit fun id₃ record₃ σ₃ w₃ hlater₃ hinv₃ hlocked₃ => ?_)
    have h₃ := (h₂.later hlater₃).writeAudit hlocked₃ record₃
    have hsame : ∀ row₀, v₀.job = some row₀ → row.input = row₀.input := by
      intro row₀ hrow₀
      obtain ⟨row', hrow', _, hinput, _⟩ := hchange.job_some hrow₀
      obtain rfl := Option.some.inj (hrow'.symm.trans hrunning.job)
      exact hinput
    refine Contract.wp_then (h₃.wp_invalidateRun hinv₃ rfl rfl hsame ?_)
    intro invalidated σ₄ w₄ input h₄ hinput₄ hends₄
    have hend : ∀ σ' w', Busy p s item.job σ₀ σ w v₀
        { jobView (σ.after w) item.job with
          job := some (row.fail now "retry_exhausted" leaseMessage)
          attempts := Function.update (jobView (σ.after w) item.job).attempts item.attempt
            (some (attempt.finish .failed now "retry_exhausted" leaseMessage)) } σ' w' →
        w'.rows.jobInput (row.fail now "retry_exhausted" leaseMessage) = some input →
        (s.CollisionFree → input.operation = .validate → EndsValidation σ' input.runA) →
        post (.ok ()) σ' w' := by
      intro σ' w' h' hinput' hends'
      refine hok _ _ (h'.settle ⟨h'.toHeld, hchange.tail ?_, hkept _, ?_, ?_, ?_⟩) h'.elsewhere
      · rw [hnow]
        exact .fail row item.attempt attempt "retry_exhausted" leaseMessage hrunning
      · rintro row' ⟨⟩ hqueued
        simp at hqueued
      · rintro hfree row' ⟨⟩ _
        exact ⟨input, hinput', hends' hfree⟩
      · rintro row' ⟨⟩ hsucceeded
        simp at hsucceeded
    dsimp only
    split
    · exact Contract.wp_pure (hend σ₄ w₄ h₄ hinput₄ hends₄)
    · refine wp_audit fun id₅ record₅ σ₅ w₅ hlater₅ _ hlocked₅ => ?_
      refine hend _ _ ((h₄.later hlater₅).writeAudit hlocked₅ record₅)
        (rely_input hlater₅.rely hinput₄) fun hfree hoperation => ?_
      exact ((hends₄ hfree hoperation).later hlater₅).write (by simp) _

/-- A pass finds every job at most once. -/
theorem expiredAttempts_nodup (now : Timestamp) (store : Store) :
    ((expiredAttempts now store).map fun entry => entry.2.job).Nodup := by
  have hjob : ∀ job entry, expiredAttempt now store job = some entry → entry.2.job = job := by
    intro job entry hentry
    simp only [expiredAttempt, Option.bind_eq_bind, Option.bind_eq_some_iff] at hentry
    obtain ⟨row, _, n, _, attempt, _, input, _, hentry⟩ := hentry
    split at hentry
    · obtain rfl := Option.some.inj hentry
      rfl
    · cases hentry
  have hsublist : ∀ jobs : List Uuid,
      ((jobs.filterMap (expiredAttempt now store)).map fun entry => entry.2.job).Sublist jobs := by
    intro jobs
    induction jobs with
    | nil => exact List.Sublist.refl _
    | cons job jobs ih =>
      rw [List.filterMap_cons]
      split
      · exact ih.cons job
      · next entry hentry =>
        rw [List.map_cons, hjob job entry hentry]
        exact ih.cons_cons job
  exact (hsublist store.jobs).nodup store.jobs_nodup

/-- Reconciliation is verified: the loops over expired attempts, due retries and stranded
jobs each keep the invariant, and its commit gives the guarantee. -/
theorem wp_reconcile {limit : ℤ} :
    (contract p s).wp (reconcile limit w.clock) (Replies p s .count)
      (.start (.reconcile limit) w.clock w.store) w := by
  have h₀ : Reconciling p s none (.start (.reconcile limit) w.clock w.store)
      (.start (.reconcile limit) w.clock w.store) w :=
    ⟨.start _ w, fun _ _ => .inl fun key _ => AList.lookup_empty key,
      fun _ => .inl (AList.lookup_empty _), fun _ _ => .inl (AList.lookup_empty _)⟩
  have herror : ∀ σ' w', Reconciling p s none (.start (.reconcile limit) w.clock w.store) σ' w' →
      Replies p s Reply.count (.error (.database "" .noRows)) σ' w' :=
    fun σ' w' h' => .error (h'.call ▸ trivial) (by simp [Err.Ordinary])
  unfold reconcile
  refine Contract.wp_then (Contract.wp_snapshot fun σ₁ w₁ hlater₁ _ _ => ?_)
  refine wp_lockExpired fun selected σ₂ w₂ hlater₂ hsublist hlocked => ?_
  have hnodup : (selected.map Expired.job).Nodup := by
    refine (hsublist.map Expired.job).nodup ?_
    rw [List.map_map]
    exact ((List.mergeSort_perm _ _).map _).nodup_iff.mpr (expiredAttempts_nodup _ _)
  refine Contract.wp_then (wp_forEachJob Expired.job Locked hnodup ?_ ?_ ?_
    (h₀.later (hlater₁.trans hlater₂)) hlocked)
  · exact fun i j σ w σ' w' hne hi helsewhere => hi.elsewhere hne helsewhere
  · exact fun i σ w h hi => wp_fenceExpired h rfl hi fun σ' w' h' helsewhere => ⟨h', helsewhere⟩
  intro σ₃ w₃ h₃
  refine Contract.wp_then (wp_enqueueDue h₃ rfl (fun _ σ₄ w₄ h₄ => ?_) herror)
  refine Contract.wp_then (wp_republishStranded h₄ rfl (fun _ σ₅ w₅ h₅ => ?_) herror)
  refine Contract.wp_pure (.ok fun w₆ hrely hinv _ => (h₅.later (.of_rely hrely)).guarantee hinv ?_)
  rw [Effect, h₅.call]
  trivial

end Leases

end Tracewake.Hosted
