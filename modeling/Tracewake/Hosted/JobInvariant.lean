import Tracewake.Hosted.Verified

/-!
# The job state machine in every serial run

When the transactions on a job follow one another, its attempts are numbered without
gaps, at most one of them is running, and the job's row says which.
-/

namespace Tracewake.Hosted

open ReadCommitted

variable {p : Policy} {s : Service} {w w' : World} {job : Uuid}

/-- A job's row agrees with its attempts, which are numbered from 1 to `k`. -/
structure JobView.Coherent (v : JobView) (row : JobRow) (k : ℤ) : Prop where
  running_iff : row.state = .running ↔ row.currentAttemptNumber = some k ∧
    ∃ attempt, v.attempts k = some attempt ∧ attempt.state = .running
  alone : row.state = .running → ∀ n attempt, v.attempts n = some attempt →
    attempt.state = .running → n = k
  waiting : row.state = .queued ∨ row.state = .retryWait →
    row.currentAttemptNumber = none ∧ v.Idle ∧ k ≤ 2
  terminal : row.state.terminal = true → v.Idle

/-- The invariant of a job says that its row and its attempts agree. -/
theorem JobView.Sound.coherent {v : JobView} (h : v.Sound True) {row : JobRow} {k : ℤ}
    (hnumbered : v.Numbered k) (hrow : v.job = some row) : v.Coherent row k := by
  have hcurrent : row.state = .running → ∃ attempt, v.Running row k attempt ∧
      ∀ n attempt, v.attempts n = some attempt → attempt.state = .running → n = k := by
    intro hstate
    obtain ⟨m, attempt, hrunning, hm, honly⟩ := h.running row hrow hstate
    have hmk : m = k := by
      have hlow := (hm.2.2 m).mp (by simp [hrunning.found])
      have hm' := (hnumbered.2.2 m).mp (by simp [hrunning.found])
      have hk' := (hm.2.2 k).mp ((hnumbered.2.2 k).mpr (by omega))
      omega
    subst hmk
    exact ⟨attempt, hrunning, honly⟩
  refine ⟨⟨fun hstate => ?_, ?_⟩, fun hstate => ?_, fun hstate => ?_, h.terminal trivial row hrow⟩
  · obtain ⟨attempt, hrunning, _⟩ := hcurrent hstate
    exact ⟨hrunning.current, attempt, hrunning.found, hrunning.active⟩
  · rintro ⟨_, attempt, hattempt, hactive⟩
    cases hterminal : row.state.terminal with
    | true => exact absurd hactive (h.terminal trivial row hrow hterminal k attempt hattempt)
    | false =>
      rcases JobState.of_not_terminal hterminal with hqueued | hrunning | hwaiting
      · exact absurd hactive ((h.waiting row hrow (.inl hqueued)).2.1 k attempt hattempt)
      · exact hrunning
      · exact absurd hactive ((h.waiting row hrow (.inr hwaiting)).2.1 k attempt hattempt)
  · obtain ⟨_, _, honly⟩ := hcurrent hstate
    exact honly
  · obtain ⟨hnull, hidle, hthird⟩ := h.waiting row hrow hstate
    refine ⟨hnull, hidle, ?_⟩
    have hhigh := hnumbered.2.1
    by_contra hk
    exact (hnumbered.2.2 3).mpr ⟨by omega, by omega⟩ hthird

/-- A call that is served alone leaves every job's row or changes it by steps. -/
theorem jobChange_of_serial (h : Serial (transaction s) w) {call : Call}
    (hrun : w.perform (transaction s) call = some w') (job : Uuid) :
    JobChange True w.clock (jobView w.rows job) (jobView w'.rows job) := by
  have hinv := Consistent.of_serial h
  obtain ⟨σ, w₁, hstore, _, _, _, _, hnow, _, hended⟩ := Contract.ended_of_alone
    (verified serialPolicy s).draw ((verified serialPolicy s).calls call w hinv False.elim) hinv hrun
  cases hended with
  | refuse error _ =>
    have hsame : (w₁.refuse σ error).rows = w.rows := hstore
    rw [hsame]
    exact .refl
  | commit reply hguar =>
    have hchange : JobChange True σ.now (jobView w₁.rows job) (jobView (σ.after w₁) job) :=
      (hguar False.elim).jobs job
    have hsame : w₁.rows = w.rows := hstore
    rw [hnow, hsame] at hchange
    exact hchange

/-- Every serial run of the service keeps its jobs and their attempts in agreement, and
every call that changes the state of a job increases its version. -/
theorem job_state_machine (h : Serial (transaction s) w) :
    (∀ job, ∃ k, 0 ≤ k ∧ k ≤ 3 ∧ (∀ n, w.rows.attempt job n ≠ none ↔ 1 ≤ n ∧ n ≤ k) ∧
      ∀ row, w.rows.job job = some row → (jobView w.rows job).Coherent row k) ∧
    ∀ call w', w.perform (transaction s) call = some w' → ∀ job row row',
      w.rows.job job = some row → w'.rows.job job = some row' → row'.state ≠ row.state →
      row.rowVersion < row'.rowVersion := by
  refine ⟨fun job => ?_, fun call w' hrun job row row' hrow hrow' hstate => ?_⟩
  · have hsound := (Consistent.of_serial h).jobs job
    obtain ⟨k, hk⟩ := hsound.numbered
    exact ⟨k, hk.1, hk.2.1, hk.2.2, fun row hrow => hsound.coherent hk hrow⟩
  · obtain ⟨found, hfound, _, _, hversion⟩ := (jobChange_of_serial h hrun job).job_some hrow
    obtain rfl := Option.some.inj (hfound.symm.trans hrow')
    rcases hversion with rfl | hlt
    · exact absurd rfl hstate
    · exact hlt

/-- A deployment whose hashes are easily computed. -/
def demo : Service := ⟨⟨id, fun key token => key ++ [token.length.toUInt8]⟩, ⟨1, [1], []⟩⟩

/-- A digest in the right form. -/
def demoDigest : String := String.ofList (List.replicate 64 'a')

/-- A bundle is uploaded, and a worker claims its validation. -/
def demoValidation : List (Call × ℕ) :=
  [(.createUpload 7 demoDigest 10 1, 0),
    (.completeUpload 7 (newID 1).text "v1" demoDigest 10 2 3, 0),
    (.claim 9 (newID 3).text 1 "token", 0)]

/-- In the example a validation job is running. -/
theorem demoValidation_running :
    (((World.initial 0 : World).serve (transaction demo) demoValidation).any fun w =>
      (w.rows.job (newID 3)).any fun row => row.state = .running) = true := by
  decide +kernel

/-- A run in which a worker has claimed a job. -/
theorem job_state_machine_running : ∃ w : World, (∃ row, w.rows.job (newID 3) = some row ∧
    row.state = .running) ∧ ∃ k, 0 ≤ k ∧ k ≤ 3 ∧
      (∀ n, w.rows.attempt (newID 3) n ≠ none ↔ 1 ≤ n ∧ n ≤ k) ∧
      ∀ row, w.rows.job (newID 3) = some row → (jobView w.rows (newID 3)).Coherent row k := by
  obtain ⟨w, hrun, hany⟩ := (Option.any_eq_true _ _).mp demoValidation_running
  obtain ⟨row, hrow, hstate⟩ := (Option.any_eq_true _ _).mp hany
  have hserial : Serial (transaction demo) w := Serial.serve (.initial 0) hrun
  exact ⟨w, ⟨row, hrow, by simpa using hstate⟩, (job_state_machine hserial).1 (newID 3)⟩

end Tracewake.Hosted
