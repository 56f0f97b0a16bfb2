import Tracewake.Hosted.JobInvariant

/-!
# One authoritative result

In every interleaving of the service's statements at most one completion of a job
commits. The artifacts of a job are those of that completion, and a job that is over
never changes again.
-/

namespace Tracewake.Hosted

open ReadCommitted

variable {p : Policy} {s : Service} {σ : Session} {w w' : World} {job : Uuid}

/-- Whether a finished call is a completion of the job that has committed. -/
def completed (job : Uuid) (f : Finished Call Err Reply) : Bool :=
  match f.call, f.result with
  | .completeAttempt jobID _ _ _ _, .ok _ => Uuid.parse jobID = some job
  | _, _ => false

/-- The test of a finished call finds the completions of the job that committed. -/
theorem completed_iff {f : Finished Call Err Reply} :
    completed job f = true ↔ f.call.Completes job ∧ ∃ reply, f.result = .ok reply := by
  obtain ⟨call, now, ended, result⟩ := f
  constructor
  · intro h
    cases call <;> cases result <;> simp only [completed, Bool.false_eq_true, decide_eq_true_eq] at h
    exact ⟨⟨_, _, _, _, _, rfl, h⟩, _, rfl⟩
  · rintro ⟨⟨jobID, n, token, completion, random, rfl, hparse⟩, reply, rfl⟩
    simpa [completed] using hparse

/-- The kinds of artifacts that a result of the operation consists of. -/
def resultKinds (operation : Operation) : List ArtifactKind :=
  expectedKind operation :: expectedCompanions operation

/-- The artifacts of a job are exactly those of one attempt's result. -/
def Store.Result (store : Store) (job : Uuid) (row : JobRow) : Prop :=
  ∃ n jobID input, Uuid.parse jobID = some job ∧ store.jobInput row = some input ∧
    ∀ kind, (store.artifact job kind ≠ none ↔ kind ∈ resultKinds input.operation) ∧
      ∀ artifact, store.artifact job kind = some artifact → artifact.attemptNumber = n ∧
        artifact.objectKey = attemptPath row.workspace jobID n ++ kind.text

/-- What holds of a job's result in every committed world. -/
structure OneResult (job : Uuid) (w : World) : Prop where
  result : ∀ row, w.rows.job job = some row → row.state = .succeeded → w.rows.Result job row
  once : (w.history.filter (completed job)).length ≤ 1
  none : (∀ row, w.rows.job job = some row → row.state ≠ .succeeded) →
    w.history.filter (completed job) = []

/-- A companion of each expected kind is registered. -/
theorem exists_companion {companions : List Companion} {kinds : List ArtifactKind}
    (hlength : companions.length = kinds.length) {kind : ArtifactKind} (hkind : kind ∈ kinds) :
    ∃ companion, (companion, kind) ∈ companions.zip kinds := by
  obtain ⟨i, hi, hget⟩ := List.getElem_of_mem hkind
  refine ⟨companions[i], ?_⟩
  rw [← hget, List.mem_iff_getElem]
  exact ⟨i, by simp [hlength, hi], by simp⟩

/-- A completion registers exactly the artifacts of its result. -/
theorem CompleteEffect.result {jobID : String} {n : ℤ} {result : Completion}
    (hinv : Consistent p s w.rows) (h : CompleteEffect w.rows (σ.after w) σ jobID n result)
    (hinputs : ∀ i input, w.rows.input i = some input → (σ.after w).input i = some input)
    (hparse : Uuid.parse jobID = some job) :
    (∀ row, w.rows.job job = some row → row.state ≠ .succeeded) ∧
    ∃ row, (σ.after w).job job = some row ∧ row.state = .succeeded ∧
      (σ.after w).Result job row := by
  obtain ⟨job', row, attempt, input, artifact, hparse', hrunning, hinput, _, hrow, hregistered, _⟩ := h
  obtain rfl := Option.some.inj (hparse'.symm.trans hparse)
  have hold : w.rows.job job' = some row := hrunning.job
  have hbefore : ∀ found, w.rows.job job' = some found → found.state ≠ .succeeded := by
    intro found hfound
    obtain rfl := Option.some.inj (hfound.symm.trans hold)
    simp [hrunning.state]
  refine ⟨hbefore, _, hrow, rfl, n, jobID, input, hparse, hinputs _ _ hinput, fun kind => ?_⟩
  have hkind : kind ∈ resultKinds input.operation ∨ (σ.after w).artifact job' kind = none := by
    by_cases hmem : kind ∈ resultKinds input.operation
    · exact .inl hmem
    · rw [resultKinds, List.mem_cons, not_or] at hmem
      refine .inr ((hregistered.others kind hmem.1 hmem.2).trans ?_)
      exact (hinv.jobs job').unfinished row hold (by simp [hrunning.state]) kind
  have hrows : kind ∈ resultKinds input.operation → ∃ found,
      (σ.after w).artifact job' kind = some found ∧ found.attemptNumber = n ∧
        found.objectKey = attemptPath row.workspace jobID n ++ kind.text := by
    intro hmem
    rcases List.mem_cons.mp hmem with rfl | hcompanion
    · refine ⟨_, hregistered.row, rfl, ?_⟩
      rw [← hregistered.kind]
      exact hregistered.objectKey
    · obtain ⟨companion, hentry⟩ := exists_companion hregistered.length hcompanion
      obtain ⟨hname, hkey, id, _, hfound⟩ := hregistered.companions _ hentry
      refine ⟨_, hfound, rfl, ?_⟩
      rw [← hname]
      exact hkey
  refine ⟨⟨fun hsome => hkind.resolve_right hsome, fun hmem => ?_⟩, fun found hfound => ?_⟩
  · obtain ⟨found, hfound, _⟩ := hrows hmem
    simp [hfound]
  · obtain ⟨found', hfound', hnumber, hkey⟩ := hrows (hkind.resolve_right (by simp [hfound]))
    obtain rfl := Option.some.inj (hfound'.symm.trans hfound)
    exact ⟨hnumber, hkey⟩

/-- Expiring artifacts leaves a result what it is. -/
theorem Store.Result.expire {store store' : Store} {row : JobRow} {now : Timestamp}
    (h : store.Result job row)
    (hinput : ∀ input, store.jobInput row = some input → store'.jobInput row = some input)
    (hexpires : ∀ kind, ExpiresArtifact now (store.artifact job kind) (store'.artifact job kind)) :
    store'.Result job row := by
  obtain ⟨n, jobID, input, hparse, hfound, hkinds⟩ := h
  refine ⟨n, jobID, input, hparse, hinput input hfound, fun kind => ?_⟩
  obtain ⟨hexists, hrows⟩ := hkinds kind
  rcases hexpires kind with hsame | ⟨old, hold, hnew⟩
  · rw [hsame]
    exact ⟨hexists, hrows⟩
  · rw [hnew]
    refine ⟨⟨fun _ => hexists.mp (by simp [hold]), by simp⟩, ?_⟩
    rintro artifact ⟨⟩
    exact hrows old hold

/-- Every change of the committed world keeps a job to one result. -/
theorem OneResult.move (hinv : Consistent p s w.rows) (h : OneResult job w)
    (hmove : (contract p s).Moves w w') : OneResult job w' := by
  cases hmove with
  | tick n => exact ⟨h.result, h.once, h.none⟩
  | draw => exact ⟨h.result, h.once, h.none⟩
  | refuse σ error _ =>
    have hlast : completed job ⟨σ.call, σ.now, w.clock, .error error⟩ = false := by
      rw [Bool.eq_false_iff, ne_eq, completed_iff]
      rintro ⟨_, reply, hreply⟩
      cases hreply
    refine ⟨h.result, ?_, fun hrow => ?_⟩
    · rw [World.refuse_history, List.filter_cons_of_neg (by simp [hlast])]
      exact h.once
    · rw [World.refuse_history, List.filter_cons_of_neg (by simp [hlast])]
      exact h.none hrow
  | commit σ reply _ _ hguar =>
    by_cases hcompletes : σ.call.Completes job
    · -- the completion of this job
      obtain ⟨jobID, n, token, result, random, hcall, hparse⟩ := hcompletes
      have heffect := hguar.effect
      rw [Effect, hcall] at heffect
      obtain ⟨hbefore, row, hrow, hstate, hresult⟩ :=
        CompleteEffect.result hinv heffect hguar.inputs hparse
      have hlast : completed job ⟨σ.call, σ.now, w.clock, .ok reply⟩ = true :=
        completed_iff.mpr ⟨⟨jobID, n, token, result, random, hcall, hparse⟩, reply, rfl⟩
      refine ⟨fun found hfound _ => ?_, ?_, fun hnone => absurd hstate (hnone row hrow)⟩
      · obtain rfl := Option.some.inj (hrow.symm.trans hfound)
        exact hresult
      · rw [World.commit_history, List.filter_cons_of_pos hlast, h.none hbefore]
        simp
    · have hlast : completed job ⟨σ.call, σ.now, w.clock, .ok reply⟩ = false := by
        rw [Bool.eq_false_iff, ne_eq, completed_iff]
        exact fun hcompleted => hcompletes hcompleted.1
      refine ⟨fun row hrow hstate => ?_, ?_, fun hnone => ?_⟩
      · have hold := (hguar.succeeds job row hrow hstate).resolve_right hcompletes
        have hterminal : row.state.terminal = true := by simp [hstate]
        exact (h.result row hold hstate).expire
          (fun input hinput => hguar.jobInput hinput rfl)
          ((hguar.jobs job).terminal hold hterminal).2
      · rw [World.commit_history, List.filter_cons_of_neg (by simp [hlast])]
        exact h.once
      · rw [World.commit_history, List.filter_cons_of_neg (by simp [hlast])]
        refine h.none fun row hrow hstate => ?_
        have hterminal : row.state.terminal = true := by simp [hstate]
        exact hnone row (hguar.terminal hrow hterminal) hstate

/-- A job that is over keeps its row in every change of the committed world. -/
theorem terminal_move {row : JobRow} (hterminal : row.state.terminal = true)
    (hmove : (contract p s).Moves w w') (hrow : w.rows.job job = some row) :
    w'.rows.job job = some row := by
  cases hmove with
  | tick n => exact hrow
  | draw => exact hrow
  | refuse σ error _ => exact hrow
  | commit σ reply _ _ hguar => exact hguar.terminal hrow hterminal

/-- In every run at most one completion of a job commits, and its artifacts stay. -/
theorem oneResult_of_reachable {system : System}
    (h : System.Reachable (transaction s) Anything system) (job : Uuid) :
    OneResult job system.world := by
  refine (verified unrestricted s).invariant (anything_schedules s) (fun clock => ?_) ?_ h
  · refine ⟨fun row hrow => ?_, by simp [World.initial], fun _ => by simp [World.initial]⟩
    exact absurd hrow (by simp [World.rows, World.initial, Store.job])
  · exact fun w w' hinv hmove _ hbefore => hbefore.move hinv hmove

/-- In every interleaving, at most one completion of a job commits, a job has artifacts
exactly when it has succeeded, these are exactly the artifacts of one attempt's result,
and the row of a job that is over is final. -/
theorem one_authoritative_result {system : System}
    (h : System.Reachable (transaction s) Anything system) (job : Uuid) :
    (system.world.history.filter (completed job)).length ≤ 1 ∧
    (∀ row, system.world.rows.job job = some row →
      (row.state = .succeeded ↔ ∃ kind artifact,
        system.world.rows.artifact job kind = some artifact ∧ artifact.authoritative = true) ∧
      (row.state = .succeeded → system.world.rows.Result job row)) ∧
    ∀ row, system.world.rows.job job = some row → row.state.terminal = true →
      ∀ events system', System.execute (transaction s) events system = some system' →
        system'.world.rows.job job = some row := by
  have hverified := verified unrestricted s
  have hresult := oneResult_of_reachable h job
  have hinv : Consistent unrestricted s system.world.rows := (sound_of_reachable h).inv
  refine ⟨hresult.once, fun row hrow => ⟨⟨fun hstate => ?_, ?_⟩, hresult.result row hrow⟩,
    fun row hrow hterminal events system' hrun => ?_⟩
  · obtain ⟨n, jobID, input, _, _, hkinds⟩ := hresult.result row hrow hstate
    have hexists := (hkinds (expectedKind input.operation)).1.mpr (by simp [resultKinds])
    obtain ⟨artifact, hartifact⟩ := Option.ne_none_iff_exists'.mp hexists
    exact ⟨_, artifact, hartifact, ((hinv.jobs job).artifacts _ artifact hartifact).1⟩
  · rintro ⟨kind, artifact, hartifact, _⟩
    by_contra hstate
    have hnone : system.world.rows.artifact job kind = none :=
      (hinv.jobs job).unfinished row hrow hstate kind
    simp [hnone] at hartifact
  · exact hverified.persists (anything_schedules s)
      (P := fun w => w.rows.job job = some row)
      (fun w w' _ hmove _ hbefore => terminal_move hterminal hmove hbefore) h
      (System.AllowedRun.of_all (fun _ _ => trivial) events system) hrun hrow

/-- The result that a worker commits for the validation of the demonstration. -/
def demoCompletion : Completion where
  protocolVersion := 1
  attemptNumber := 1
  artifactID := (newID 50).text
  kind := "validation_json"
  objectKey := attemptPath 7 (newID 3).text 1 ++ "validation_json"
  objectVersion := "o1"
  digest := demoDigest
  mediaType := "application/json"
  schemaName := "result-envelope"
  size := 5
  schemaVersion := 1
  logicalDigest := demoDigest
  bundleDigest := demoDigest
  eventCount := 3
  bundleFormat := 1
  cassetteFormat := 1
  eventSchema := 1
  companions := []

/-- In the example a second completion changes nothing. -/
theorem demoCompletion_succeeded :
    (((World.initial 0 : World).serve (transaction demo) (demoValidation ++
      [(.completeAttempt (newID 3).text 1 "token" demoCompletion 60, 0),
        (.completeAttempt (newID 3).text 1 "token" demoCompletion 61, 0)])).any fun w =>
      (w.rows.job (newID 3)).any fun row => row.state = .succeeded) = true := by
  decide +kernel

/-- A run in which a worker has committed a result and has sent it once more. -/
theorem one_authoritative_result_succeeded : ∃ system : System,
    (∃ row, system.world.rows.job (newID 3) = some row ∧ row.state = .succeeded ∧
      system.world.rows.Result (newID 3) row) ∧
    (system.world.history.filter (completed (newID 3))).length ≤ 1 := by
  obtain ⟨w, hrun, hany⟩ := (Option.any_eq_true _ _).mp demoCompletion_succeeded
  obtain ⟨row, hrow, hstate⟩ := (Option.any_eq_true _ _).mp hany
  have hserial : Serial (transaction demo) w := Serial.serve (.initial 0) hrun
  have hreachable : System.Reachable (transaction demo) Anything ⟨w, ∅⟩ :=
    hserial.reachable fun _ _ _ => trivial
  have hresult := one_authoritative_result hreachable (newID 3)
  have hsucceeded : row.state = .succeeded := by simpa using hstate
  exact ⟨⟨w, ∅⟩, ⟨row, hrow, hsucceeded, (hresult.2.1 row hrow).2 hsucceeded⟩, hresult.1⟩

end Tracewake.Hosted
