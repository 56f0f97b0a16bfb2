import Mathlib.Data.Prod.Lex
import Tracewake.Hosted.AuthoritativeResult
import Tracewake.Hosted.WorkerEffects

/-!
# Progress never goes backwards

Reports of progress arrive late, twice and out of order, and from attempts that are over.
The stored snapshot is ordered by its attempt and then by its sequence number. Whatever
is reported in whatever order, it only ever moves forward, and only the attempt that its
job is running moves it.
-/

namespace Tracewake.Hosted

open ReadCommitted

variable {s : Service} {w w' : World} {job : Uuid}

/-- The place of a snapshot in the lexicographic order of attempts and sequences. -/
def ProgressRow.place (row : ProgressRow) : ℤ ×ₗ ℤ := toLex (row.attemptNumber, row.sequence)

/-- A snapshot is not lost, it does not move back, and it stays the same at its place. -/
def Advances (old new : Option ProgressRow) : Prop :=
  ∀ row, old = some row → ∃ row', new = some row' ∧ row.place ≤ row'.place ∧
    (row'.place = row.place → row' = row)

/-- Progress that stays as it is has not gone back. -/
theorem Advances.refl (stored : Option ProgressRow) : Advances stored stored :=
  fun row hrow => ⟨row, hrow, le_rfl, fun _ => rfl⟩

/-- Progress that advances twice has advanced. -/
theorem Advances.trans {old mid new : Option ProgressRow} (h : Advances old mid)
    (h' : Advances mid new) : Advances old new := by
  intro row hrow
  obtain ⟨row₁, hrow₁, hle₁, hsame₁⟩ := h row hrow
  obtain ⟨row₂, hrow₂, hle₂, hsame₂⟩ := h' row₁ hrow₁
  refine ⟨row₂, hrow₂, hle₁.trans hle₂, fun hplace => ?_⟩
  have hplace₁ : row₁.place = row.place := le_antisymm (hplace ▸ hle₂) hle₁
  rw [hsame₂ (hplace.trans hplace₁.symm), hsame₁ hplace₁]

/-- A report that supersedes the snapshot moves it forward. -/
theorem Supersedes.advances {stored : Option ProgressRow} {n : ℤ} {progress : Progress}
    (h : Supersedes stored n progress.sequence) (now : Timestamp) :
    Advances stored (some (progress.row n now)) := by
  intro row hrow
  have hlt : row.place < (progress.row n now).place := Prod.Lex.toLex_lt_toLex.mpr (h row hrow)
  exact ⟨_, rfl, hlt.le, fun hsame => absurd hsame hlt.ne'⟩

/-- A call has just ended that reported progress of the job's running attempt. -/
structure Reported (s : Service) (w w' : World) (job : Uuid) (n : ℤ) (progress : Progress)
    (now : Timestamp) : Prop where
  ended : ∃ f jobID token, w'.history = f :: w.history ∧ f.now = now ∧
    f.call = .updateProgress jobID n token progress ∧ Uuid.parse jobID = some job ∧
    ∃ row attempt, Holds s w.rows job n token row attempt
  supersedes : Supersedes (w.rows.progress job) n progress.sequence
  stored : w'.rows.progress job = some (progress.row n now)

/-- A change of the world leaves the snapshot of a job, or its running attempt has reported. -/
theorem reported_of_moves {permits : Session → World → Prop}
    (hmove : (workerContract unrestricted s permits).Moves w w') (job : Uuid) :
    w'.rows.progress job = w.rows.progress job ∨
      ∃ n progress now, Reported s w w' job n progress now := by
  cases hmove with
  | tick n => exact .inl rfl
  | draw => exact .inl rfl
  | refuse σ error herror => exact .inl rfl
  | commit σ reply _ _ hguar =>
    obtain ⟨hheartbeat, hreport, hquiet⟩ := hguar.2
    by_cases hcall : σ.call.Quiet
    · exact .inl (hquiet hcall (.progress job))
    cases hsame : σ.call with
    | heartbeat jobID n token =>
      obtain ⟨other, row, attempt, _, _, _, hview, hothers⟩ := hheartbeat jobID n token hsame
      left
      by_cases hne : job = other
      · subst hne
        exact congrArg JobView.progress hview
      · exact congrArg JobView.progress (hothers job hne)
    | updateProgress jobID n token progress =>
      obtain ⟨other, row, attempt, stored, hparse, hholds, ⟨hview, hothers⟩, hstored⟩ :=
        hreport jobID n token progress hsame
      by_cases hne : job = other
      · subst hne
        have hnew : (w.commit σ reply).rows.progress job = stored :=
          congrArg JobView.progress hview
        rcases hstored with hkept | ⟨hsupersedes, hnewer⟩
        · exact .inl (hnew.trans hkept)
        · refine .inr ⟨n, progress, σ.now, ⟨_, jobID, token, rfl, rfl, hsame, hparse, row,
            attempt, hholds⟩, hsupersedes, hnew.trans hnewer⟩
      · exact .inl (congrArg JobView.progress (hothers job hne))
    | _ =>
      rw [hsame] at hcall
      exact absurd trivial hcall

/-- Every change of the world moves the snapshot of a job forward or leaves it. -/
theorem advances_of_moves {permits : Session → World → Prop}
    (hmove : (workerContract unrestricted s permits).Moves w w') (job : Uuid) :
    Advances (w.rows.progress job) (w'.rows.progress job) := by
  rcases reported_of_moves hmove job with hkept | ⟨n, progress, now, hreported⟩
  · rw [hkept]
    exact .refl _
  · rw [hreported.stored]
    exact hreported.supersedes.advances now

/-- In every run the snapshot of a job moves forward only, it keeps its stage and its
message at its place, and a step that changes it is the report of the running attempt. -/
theorem progress_monotone {system : System}
    (h : System.Reachable (transaction s) Anything system) (job : Uuid) :
    (∀ events system', System.execute (transaction s) events system = some system' →
      Advances (system.world.rows.progress job) (system'.world.rows.progress job)) ∧
    ∀ event system', System.step (transaction s) event system = some system' →
      system'.world.rows.progress job ≠ system.world.rows.progress job →
      ∃ n progress now, Reported s system.world system'.world job n progress now := by
  have hverified := worker_verified unrestricted s fun _ _ => True
  constructor
  · intro events system' hrun
    exact hverified.persists (worker_schedules s)
      (P := fun w => Advances (system.world.rows.progress job) (w.rows.progress job))
      (fun w w' _ hmove _ hbefore => hbefore.trans (advances_of_moves hmove job)) h
      (System.AllowedRun.of_all (fun _ _ => trivial) events system) hrun (.refl _)
  · intro event system' hstep hchanged
    have hsound := hverified.sound (worker_schedules s) h
    have hanything : Anything system event := trivial
    rcases hsound.moves (worker_schedules s) hanything hstep with hsame | hmove
    · exact absurd (by rw [hsame]) hchanged
    · exact (reported_of_moves hmove job).resolve_left hchanged

/-- A worker has reported that it is uploading, while an earlier report is under way. -/
def demoReport : List (Event Call) :=
  .start 0 (.updateProgress (newID 3).text 1 "token" ⟨2, "uploading", "second"⟩) ::
    .start 1 (.updateProgress (newID 3).text 1 "token" ⟨1, "downloading", "first"⟩) ::
    List.replicate 7 (.run 0)

/-- The earlier report goes on. -/
def demoLateReport : List (Event Call) := List.replicate 6 (.run 1)

/-- In the example a report is stored, and an older one is not. -/
theorem demoReport_stored :
    (((World.initial 0 : World).serve (transaction demo) demoValidation).any fun w =>
      (System.execute (transaction demo) demoReport ⟨w, ∅⟩).any fun system =>
        (system.world.rows.progress (newID 3)).any (fun row => row.sequence = 2) &&
        (System.execute (transaction demo) demoLateReport system).any fun system' =>
          system'.world.history.length = system.world.history.length + 1) = true := by
  decide +kernel

/-- A late report does not move a snapshot back. -/
theorem progress_monotone_late : ∃ system system' : System,
    System.execute (transaction demo) demoLateReport system = some system' ∧
      (∃ row, system.world.rows.progress (newID 3) = some row ∧ row.sequence = 2) ∧
      Advances (system.world.rows.progress (newID 3)) (system'.world.rows.progress (newID 3)) := by
  obtain ⟨w, hrun, hany⟩ := (Option.any_eq_true _ _).mp demoReport_stored
  obtain ⟨system, hreport, hend⟩ := (Option.any_eq_true _ _).mp hany
  rw [Bool.and_eq_true] at hend
  obtain ⟨row, hrow, hsequence⟩ := (Option.any_eq_true _ _).mp hend.1
  obtain ⟨system', hlate, _⟩ := (Option.any_eq_true _ _).mp hend.2
  have hserial : Serial (transaction demo) w := Serial.serve (.initial 0) hrun
  have hfirst : System.Reachable (transaction demo) Anything ⟨w, ∅⟩ :=
    hserial.reachable fun _ _ _ => trivial
  have hreachable : System.Reachable (transaction demo) Anything system :=
    hfirst.execute (System.AllowedRun.of_all (fun _ _ => trivial) _ _) hreport
  exact ⟨system, system', hlate, ⟨row, hrow, of_decide_eq_true hsequence⟩,
    (progress_monotone hreachable (newID 3)).1 demoLateReport system' hlate⟩

end Tracewake.Hosted
