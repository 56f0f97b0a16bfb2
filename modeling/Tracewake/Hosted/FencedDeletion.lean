import Tracewake.Hosted.AuthoritativeResult

/-!
# Deletions and running attempts

A deletion fences the running attempts in one statement and cancels the jobs in a
later one. A claim that commits in between starts an attempt that the deletion never
fences. Where no claim overtakes a deletion like this, a job that is over runs nothing.
-/

namespace Tracewake.Hosted

open ReadCommitted

variable {s : Service}

/-- No claim commits for a job that an open deletion covers and has begun to fence. -/
def ClaimsApart (system : System) : Event Call → Prop
  | .run n => ∀ t value, system.running.lookup n = some t → t.program = .pure value →
    ∀ m u, m ≠ n → system.running.lookup m = some u →
      FencedApart u.session.call u.session.now u.session.statements t.session system.world
  | _ => True

/-- Where claims are kept apart from deletions the serial policy admits the step. -/
theorem ClaimsApart.admits {system : System} {event : Event Call} (h : ClaimsApart system event) :
    Admits serialPolicy system event := by
  cases event with
  | start n call => exact False.elim
  | run n =>
    intro t value ht hvalue
    exact ⟨False.elim, fun m u hne hu => ⟨fun _ => h t value ht hvalue m u hne hu, False.elim⟩⟩
  | abort n => trivial
  | tick n => trivial

/-- A run in which claims are kept apart from deletions is one of the serial policy. -/
theorem reachable_admits {system : System}
    (h : System.Reachable (transaction s) ClaimsApart system) :
    System.Reachable (transaction s) (Admits serialPolicy) system := by
  induction h with
  | initial clock => exact .initial clock
  | step _ hallowed hstep ih => exact ih.step hallowed.admits hstep

/-- Where claims stay apart from deletions, no attempt of a job that is over is running. -/
theorem terminal_idle {system : System} (h : System.Reachable (transaction s) ClaimsApart system)
    {job : Uuid} {row : JobRow} (hrow : system.world.rows.job job = some row)
    (hterminal : row.state.terminal = true) : (jobView system.world.rows job).Idle := by
  have hinv : Consistent serialPolicy s system.world.rows :=
    (sound_of_admits (reachable_admits h)).inv
  exact (hinv.jobs job).terminal trivial row hrow hterminal

/-- A serial run keeps claims and deletions apart. -/
theorem claimsApart_of_serial {system : System} {event : Event Call}
    (h : system.running.entries.length ≤ 1) : ClaimsApart system event := by
  cases event with
  | run n => exact fun t value ht _ m u hne hu => absurd (one_session h ht hu) hne
  | _ => trivial

/-- A run in which a job is over. -/
theorem terminal_idle_succeeded : ∃ system : System,
    (∃ row, system.world.rows.job (newID 3) = some row ∧ row.state.terminal = true) ∧
    (jobView system.world.rows (newID 3)).Idle := by
  obtain ⟨w, hrun, hany⟩ := (Option.any_eq_true _ _).mp demoCompletion_succeeded
  obtain ⟨row, hrow, hstate⟩ := (Option.any_eq_true _ _).mp hany
  have hsucceeded : row.state = .succeeded := by simpa using hstate
  have hterminal : row.state.terminal = true := by simp [hsucceeded]
  have hserial : Serial (transaction demo) w := Serial.serve (.initial 0) hrun
  exact ⟨⟨w, ∅⟩, ⟨row, hrow, hterminal⟩,
    terminal_idle (hserial.reachable fun _ _ hlength => claimsApart_of_serial hlength) hrow hterminal⟩

/-- A claim of the validation job runs to its end after `DeleteRun` has fenced the
attempts and before it cancels the job. -/
def overtakingClaim : List (Event Call) :=
  .start 0 (.deleteRun 7 (newID 1).text) :: List.replicate 4 (.run 0) ++
    .start 1 (.claim 9 (newID 3).text 1 "token") :: List.replicate 12 (.run 1) ++
    List.replicate 11 (.run 0)

/-- In the example a claim that overtakes a deletion leaves an attempt running. -/
theorem overtakingClaim_cancelled :
    (((World.initial 0 : World).serve (transaction demo) (demoValidation.take 2)).any fun w =>
      (System.execute (transaction demo) overtakingClaim ⟨w, ∅⟩).any fun system =>
        ((system.world.rows.job (newID 3)).any fun row => row.state = .cancelled) &&
          (system.world.rows.attempt (newID 3) 1).any fun row => row.state = .running) = true := by
  decide +kernel

/-- A claim that overtakes a deletion leaves a cancelled job with a running attempt. -/
theorem terminal_running : ∃ system : System, System.Reachable (transaction demo) Anything system ∧
    ∃ row, system.world.rows.job (newID 3) = some row ∧ row.state.terminal = true ∧
      ¬ (jobView system.world.rows (newID 3)).Idle := by
  obtain ⟨w, hrun, hany⟩ := (Option.any_eq_true _ _).mp overtakingClaim_cancelled
  obtain ⟨system, hexecute, hend⟩ := (Option.any_eq_true _ _).mp hany
  rw [Bool.and_eq_true] at hend
  obtain ⟨row, hrow, hstate⟩ := (Option.any_eq_true _ _).mp hend.1
  obtain ⟨attempt, hattempt, hrunning⟩ := (Option.any_eq_true _ _).mp hend.2
  have hserial : Serial (transaction demo) w := Serial.serve (.initial 0) hrun
  have hreachable : System.Reachable (transaction demo) Anything ⟨w, ∅⟩ :=
    hserial.reachable fun _ _ _ => trivial
  have hcancelled : row.state = .cancelled := by simpa using hstate
  refine ⟨system, hreachable.execute (System.AllowedRun.of_all (fun _ _ => trivial) _ _) hexecute,
    row, hrow, by simp [hcancelled], fun hidle => ?_⟩
  exact hidle 1 attempt hattempt (by simpa using hrunning)

end Tracewake.Hosted
