import Tracewake.Hosted.ValidatingRuns

/-!
# Jobs that can be worked on

A job that is not over has runs that its operation can use and an attempt left, and a
claim at the version of a queued job is not turned down.
-/

namespace Tracewake.Hosted

open ReadCommitted

variable {s : Service}

/-- The job is queued at a version. -/
def Store.QueuedAt (store : Store) (job : Uuid) (version : ℤ) : Prop :=
  ∃ row, store.job job = some row ∧ row.state = .queued ∧ row.rowVersion = version

/-- Every job that is not over can be worked on: its input runs are in the state that
its operation needs, it has an attempt left unless it is running, and a claim at its
version does not report a conflict or a missing job while the job stays queued. -/
theorem nonterminal_workable (hfree : s.CollisionFree) {system : System}
    (h : System.Reachable (transaction s) Anything system) :
    (∀ job row, system.world.rows.job job = some row → row.state.terminal = false →
      (∃ input, system.world.rows.jobInput row = some input ∧ ∀ run ∈ input.runs,
        ∃ found, system.world.rows.run run = some found ∧
          found.state = if input.operation = .validate then .validating else .ready) ∧
      (row.state = .queued ∨ row.state = .retryWait → nextAttempt system.world.rows job ≤ 3)) ∧
    ∀ n t worker jobID version token job error, system.running.lookup n = some t →
      t.session.call = .claim worker jobID version token → Uuid.parse jobID = some job →
      t.session.before.QueuedAt job version → system.world.rows.QueuedAt job version →
      t.program = .fail error → error ≠ .conflict ∧ error ≠ .notFound := by
  have hsound := sound_of_reachable h
  have hinv : Consistent unrestricted s system.world.rows := hsound.inv
  refine ⟨fun job row hrow hlive => ⟨?_, ?_⟩, ?_⟩
  · obtain ⟨input, hinput, _⟩ := hinv.inputs job row hrow
    refine ⟨input, hinput, fun run hrun => ?_⟩
    obtain ⟨found, hfound, _, hstate, _⟩ := hinv.runs hfree job row input hrow hinput run hrun
    refine ⟨found, hfound, ?_⟩
    rw [hstate hlive]
    cases input.operation <;> rfl
  · exact fun hstate => (hinv.jobs job).nextAttempt_le hrow hstate
  · rintro n t worker jobID version token job error ht hcall hjob ⟨row, hrow, hqueued, hversion⟩
      ⟨row', hrow', hqueued', hversion'⟩ hfail
    have hwp := hsound.verified n t ht
    rw [hfail] at hwp
    have hrefusal : Refusal unrestricted s t.session error system.world :=
      Contract.wp_fail_iff.mp hwp system.world .refl hinv
    have hpositive : 1 ≤ row'.rowVersion := (hinv.jobs job).version row' hrow'
    exact hrefusal.claim hfree worker jobID version token hcall
      ⟨job, row, row', hjob, by omega, hrow, hqueued, hversion, hrow', hqueued', hversion'⟩

/-- The validation job of an upload that nobody has claimed. -/
theorem demoUpload_queued :
    (((World.initial 0 : World).serve (transaction demo) (demoValidation.take 2)).any fun w =>
      (w.rows.job (newID 3)).any fun row => row.state = .queued) = true := by
  decide +kernel

/-- The validation job of an upload can be worked on. -/
theorem nonterminal_workable_uploaded : ∃ (system : System) (row : JobRow) (input : InputRow),
    system.world.rows.job (newID 3) = some row ∧ row.state = .queued ∧
      system.world.rows.jobInput row = some input ∧
      (∀ run ∈ input.runs, ∃ found, system.world.rows.run run = some found ∧
        found.state = if input.operation = .validate then .validating else .ready) ∧
      nextAttempt system.world.rows (newID 3) ≤ 3 := by
  obtain ⟨w, hrun, hany⟩ := (Option.any_eq_true _ _).mp demoUpload_queued
  obtain ⟨row, hrow, hstate⟩ := (Option.any_eq_true _ _).mp hany
  have hqueued : row.state = .queued := of_decide_eq_true hstate
  have hserial : Serial (transaction demo) w := Serial.serve (.initial 0) hrun
  have hreachable : System.Reachable (transaction demo) Anything ⟨w, ∅⟩ :=
    hserial.reachable fun _ _ _ => trivial
  obtain ⟨⟨input, hinput, hruns⟩, hnext⟩ :=
    (nonterminal_workable demo_collisionFree hreachable).1 (newID 3) row hrow (by simp [hqueued])
  exact ⟨⟨w, ∅⟩, row, input, hrow, hqueued, hinput, hruns, hnext (.inl hqueued)⟩

/-- A job fails twice and is claimed for the third time. -/
def demoThirdAttempt : List (Call × ℕ) :=
  demoValidation ++
    [(.failAttempt (newID 3).text 1 "token" "internal" "worker stopped" true, 5000000),
      (.reconcile 10, 0),
      (.claim 9 (newID 3).text 0 "token", 0),
      (.failAttempt (newID 3).text 2 "token" "internal" "worker stopped" true, 30000000),
      (.reconcile 10, 0),
      (.claim 9 (newID 3).text 0 "token", 0)]

/-- In the example a job is running its third attempt and would have a fourth. -/
theorem demoThirdAttempt_running :
    (((World.initial 0 : World).serve (transaction demo) demoThirdAttempt).any fun w =>
      (w.rows.job (newID 3)).any (fun row => row.state = .running) &&
        nextAttempt w.rows (newID 3) = 4) = true := by
  decide +kernel

/-- A job that runs its last attempt has none left. -/
theorem running_exhausted : ∃ system : System, System.Reachable (transaction demo) Anything system ∧
    ∃ row, system.world.rows.job (newID 3) = some row ∧ row.state.terminal = false ∧
      ¬ nextAttempt system.world.rows (newID 3) ≤ 3 := by
  obtain ⟨w, hrun, hany⟩ := (Option.any_eq_true _ _).mp demoThirdAttempt_running
  rw [Bool.and_eq_true] at hany
  obtain ⟨row, hrow, hstate⟩ := (Option.any_eq_true _ _).mp hany.1
  have hrunning : row.state = .running := of_decide_eq_true hstate
  have hnext : nextAttempt w.rows (newID 3) = 4 := of_decide_eq_true hany.2
  have hserial : Serial (transaction demo) w := Serial.serve (.initial 0) hrun
  refine ⟨⟨w, ∅⟩, hserial.reachable fun _ _ _ => trivial, row, hrow, by simp [hrunning], ?_⟩
  intro (hle : nextAttempt w.rows (newID 3) ≤ 3)
  omega

end Tracewake.Hosted
