import Tracewake.Hosted.PermanentDeletion

/-!
# Runs under validation

The state of a run and the state of its validation job are two rows that every call
keeps in step, except for a cancellation request: it ends a validation job and leaves
the run validating.
-/

namespace Tracewake.Hosted

open ReadCommitted

variable {s : Service}

/-- Exactly one job that is not over validates the run. -/
def Store.ValidatedOnce (store : Store) (run : Uuid) : Prop :=
  ∃! job, store.Validates job run ∧ store.Live job

/-- No cancellation request commits that ends a validation job. -/
def CancelsPatiently (system : System) : Event Call → Prop
  | .run n => ∀ t value, system.running.lookup n = some t → t.program = .pure value →
    PatientCommit t.session system.world
  | _ => True

/-- The policy of a schedule without such cancellations. -/
abbrev patientPolicy : Policy := ⟨False, False, True⟩

/-- A schedule without cancelled validations meets the policy. -/
theorem cancelsPatiently_schedules (s : Service) :
    (contract patientPolicy s).Schedules CancelsPatiently where
  start _ _ _ _ := False.elim
  permits _ _ t value h ht hvalue := fun _ => h t value ht hvalue
  apart _ _ _ _ _ _ _ _ _ _ _ := ⟨False.elim, False.elim⟩

/-- Every run that is validating has a job that is still to decide it. -/
def Attended (store : Store) : Prop :=
  ∀ run found, store.run run = some found → found.state = .validating →
    ∃ job, store.Validates job run ∧ store.Live job

/-- A job with a row that is not over is alive. -/
theorem Store.Live.of_not_terminal {store : Store} {job : Uuid} {row : JobRow}
    (hrow : store.job job = some row) (h : ¬ store.Terminal job) : store.Live job := by
  cases hstate : row.state.terminal with
  | false => exact ⟨row, hrow, hstate⟩
  | true => exact absurd ⟨row, hrow, hstate⟩ h

section Commit

variable {σ : Session} {reply : Reply} {w : World}

/-- A validation goes on being one. -/
theorem Guarantee.validates (h : Guarantee patientPolicy s σ reply w) {job run : Uuid}
    (hvalidates : w.rows.Validates job run) : (σ.after w).Validates job run := by
  obtain ⟨row, input, hrow, hinput, hoperation, hrun⟩ := hvalidates
  obtain ⟨row', hrow', _, hsame, _⟩ := h.job_some hrow
  exact ⟨row', input, hrow', h.jobInput hinput hsame, hoperation, hrun⟩

/-- A patient commit that ends a validation job decides its run. -/
theorem Guarantee.decides (hfree : s.CollisionFree) (h : Guarantee patientPolicy s σ reply w)
    (hpatient : PatientCommit σ w) {job run : Uuid} (hvalidates : w.rows.Validates job run)
    (hlive : w.rows.Live job) (hterminal : (σ.after w).Terminal job) {found : RunRow}
    (hfound : (σ.after w).run run = some found) : found.state ≠ .validating := by
  rcases h.validationsEnd hfree job run hvalidates hlive.not_terminal hterminal with hcancels | hend
  · obtain ⟨row, input, hrow, hinput, hoperation, _⟩ := hvalidates
    have hlocked : σ.locks (.job job) = some .exclusive := by
      rcases h.guarded job with hsame | hlocked | hover
      · have hjob : (σ.after w).job job = w.rows.job job := congrArg JobView.job hsame
        obtain ⟨row', hrow', hstate⟩ := hterminal
        exact absurd ⟨row', hjob.symm.trans hrow', hstate⟩ hlive.not_terminal
      · exact hlocked
      · exact absurd hover hlive.not_terminal
    exact absurd ⟨row, hrow, hpatient job row input hcancels hlocked hrow hinput hoperation⟩
      hlive.not_terminal
  · exact hend found hfound

/-- A patient commit leaves no run validating without a job that is to decide it. -/
theorem Guarantee.attended (hfree : s.CollisionFree) (h : Guarantee patientPolicy s σ reply w)
    (hpatient : PatientCommit σ w) (hattended : Attended w.rows) : Attended (σ.after w) := by
  intro run found hfound hstate
  have hstep := h.runs run
  cases hold : w.rows.run run with
  | none =>
    rw [hold, hfound] at hstep
    cases hstep with
    | create _ hdeclared => simp [hdeclared.1] at hstate
  | some old =>
    rw [hold, hfound] at hstep
    rcases hstep.state with rfl | ⟨hpending, _⟩ | ⟨_, hready | hinvalid⟩ | ⟨_, hdeleted⟩
    · obtain ⟨job, hvalidates, hlive⟩ := hattended run found hold hstate
      have hvalidates' := h.validates hvalidates
      obtain ⟨row, _, hrow, _⟩ := id hvalidates'
      exact ⟨job, hvalidates', .of_not_terminal hrow fun hterminal =>
        h.decides hfree hpatient hvalidates hlive hterminal hfound hstate⟩
    · obtain ⟨⟨job, hnew, hvalidates⟩, _⟩ :=
        h.runsUploaded run old found hold hfound hpending hstate
      obtain ⟨row, _, hrow, _⟩ := id hvalidates
      obtain ⟨_, input, hcreated⟩ := h.newJobs job row hnew hrow
      refine ⟨job, hvalidates, row, hrow, ?_⟩
      rw [hcreated.row_eq]
      rfl
    · simp [hstate] at hready
    · simp [hstate] at hinvalid
    · simp [hstate] at hdeleted

end Commit

/-- Where no cancellation request ends a validation job, a run is validating exactly
while one job that is not over validates it. -/
theorem validating_iff (hfree : s.CollisionFree) {system : System}
    (h : System.Reachable (transaction s) CancelsPatiently system) (run : Uuid) :
    (∃ found, system.world.rows.run run = some found ∧ found.state = .validating) ↔
      system.world.rows.ValidatedOnce run := by
  have hschedules := cancelsPatiently_schedules s
  have hinv : Consistent patientPolicy s system.world.rows :=
    ((verified patientPolicy s).sound hschedules h).inv
  constructor
  · rintro ⟨found, hfound, hstate⟩
    have hattended : Attended system.world.rows := by
      refine (verified patientPolicy s).invariant (P := fun w => Attended w.rows) hschedules
        (fun clock run found hfound => ?_) ?_ h
      · exact absurd hfound (by simp [Store.run, World.initial, World.rows])
      · intro w w' _ hmoves _ hattended
        cases hmoves with
        | tick _ => exact hattended
        | draw => exact hattended
        | refuse _ _ _ => exact hattended
        | commit σ value _ hpermits hguar =>
          exact Guarantee.attended hfree hguar (hpermits trivial) hattended
    obtain ⟨job, hvalidates, hlive⟩ := hattended run found hfound hstate
    exact ⟨job, ⟨hvalidates, hlive⟩, fun other hother =>
      hinv.validations hfree other job run hother.1 hvalidates⟩
  · rintro ⟨job, ⟨⟨row, input, hrow, hinput, hoperation, hrun⟩, hlive⟩, _⟩
    obtain ⟨found, hfound, _, hstate, _⟩ := hinv.runs hfree job row input hrow hinput run hrun
    obtain ⟨row', hrow', hnonterminal⟩ := hlive
    obtain rfl := Option.some.inj (hrow.symm.trans hrow')
    refine ⟨found, hfound, ?_⟩
    rw [hstate hnonterminal, hoperation]
    rfl

/-- A call that is no cancellation request may be served alone. -/
theorem cancelsPatiently_alone {call : Call}
    (hcall : ∀ workspace jobID, call ≠ .requestCancellation workspace jobID) :
    System.AllowsAlone CancelsPatiently call where
  start _ := trivial
  run w τ p hsame := by
    intro t value ht _ job row input hcancels
    obtain rfl := Option.some.inj ((System.solo_lookup w 0 τ p).symm.trans ht)
    obtain ⟨workspace, jobID, hcancel, _⟩ := hcancels
    exact absurd (hsame.symm.trans hcancel) (hcall workspace jobID)

/-- The run of an upload is validating while its validation job is queued. -/
theorem demoUpload_validating :
    (((World.initial 0 : World).serve (transaction demo) (demoValidation.take 2)).any fun w =>
      (w.rows.run (newID 1)).any fun found => found.state = .validating) = true := by
  decide +kernel

/-- A serial run without cancellation requests in which a run is validating. -/
theorem validating_iff_uploaded : ∃ system : System,
    (∃ found, system.world.rows.run (newID 1) = some found ∧ found.state = .validating) ∧
      system.world.rows.ValidatedOnce (newID 1) := by
  obtain ⟨w, hrun, hany⟩ := (Option.any_eq_true _ _).mp demoUpload_validating
  obtain ⟨found, hfound, hvalidating⟩ := (Option.any_eq_true _ _).mp hany
  have hexists : ∃ found, w.rows.run (newID 1) = some found ∧ found.state = .validating :=
    ⟨found, hfound, of_decide_eq_true hvalidating⟩
  have hcalls : ∀ entry ∈ demoValidation.take 2, System.AllowsAlone CancelsPatiently entry.1 := by
    intro entry hentry
    refine cancelsPatiently_alone fun workspace jobID hcancel => ?_
    simp only [demoValidation, List.take_succ_cons, List.take_zero, List.mem_cons,
      List.not_mem_nil, or_false] at hentry
    rcases hentry with rfl | rfl <;> cases hcancel
  have hreachable : System.Reachable (transaction demo) CancelsPatiently ⟨w, ∅⟩ :=
    (System.Reachable.initial 0).serve hcalls (fun _ _ => trivial) hrun
  exact ⟨⟨w, ∅⟩, hexists, (validating_iff demo_collisionFree hreachable (newID 1)).mp hexists⟩

/-- An upload whose validation job is cancelled on request. -/
def demoCancelled : List (Call × ℕ) :=
  demoValidation.take 2 ++ [(.requestCancellation 7 (newID 3).text, 0)]

/-- In the example a request cancels a validation job and leaves its run validating. -/
theorem demoCancelled_validating :
    (((World.initial 0 : World).serve (transaction demo) demoCancelled).any fun w =>
      (w.rows.run (newID 1)).any (fun found => found.state = .validating) &&
        (w.rows.job (newID 3)).any fun row => row.state = .cancelled &&
          (w.rows.jobInput row).any fun input =>
            input.operation = .validate && input.runs = [newID 1]) = true := by
  decide +kernel

/-- A cancelled validation job leaves its run validating for ever. -/
theorem validating_unattended : ∃ system : System,
    System.Reachable (transaction demo) Anything system ∧
      (∃ found, system.world.rows.run (newID 1) = some found ∧ found.state = .validating) ∧
      ¬ system.world.rows.ValidatedOnce (newID 1) := by
  obtain ⟨w, hrun, hany⟩ := (Option.any_eq_true _ _).mp demoCancelled_validating
  rw [Bool.and_eq_true] at hany
  obtain ⟨found, hfound, hvalidating⟩ := (Option.any_eq_true _ _).mp hany.1
  obtain ⟨row, hrow, hjob⟩ := (Option.any_eq_true _ _).mp hany.2
  rw [Bool.and_eq_true] at hjob
  obtain ⟨input, hinput, hover⟩ := (Option.any_eq_true _ _).mp hjob.2
  simp only [Bool.and_eq_true, decide_eq_true_eq] at hover hvalidating
  have hserial : Serial (transaction demo) w := Serial.serve (.initial 0) hrun
  have hreachable : System.Reachable (transaction demo) Anything ⟨w, ∅⟩ :=
    hserial.reachable fun _ _ _ => trivial
  refine ⟨⟨w, ∅⟩, hreachable, ⟨found, hfound, hvalidating⟩, ?_⟩
  rintro ⟨job, ⟨hvalidates, hlive⟩, _⟩
  have hsame : job = newID 3 :=
    (sound_of_reachable hreachable).inv.validations demo_collisionFree job (newID 3) (newID 1)
      hvalidates ⟨row, input, hrow, hinput, hover.1, by simp [hover.2]⟩
  subst hsame
  refine hlive.not_terminal ⟨row, hrow, ?_⟩
  rw [of_decide_eq_true hjob.1]
  rfl

end Tracewake.Hosted
